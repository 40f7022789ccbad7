import ChordSheet.Proofs.Chord.Rereading

/-! How the symbol of a chord divides into the name of its root, a quality, and a bass.

* `Division`: three parts of a symbol as they are written.
* `Division.Divides`: where a part ends and the next one begins, told without reading;
  `divides_unique`.
* `Note.Named`, `Division.ReadsAs`: the notes and the chord that the parts stand for.
* `Chord.divides_read`: a chord is read from the one division of its symbol. -/
namespace ChordSheet
set_option autoImplicit false

/-! ## Names of notes -/

/-- `H` is another letter for B, and a bare `B` is B flat where the naming has a letter for both. -/
structure Note.Named (naming : Naming) (l : Char) (a : Text) (x : Note) : Prop where
  letter : x.letter = [if l = 'H' then 'B' else l]
  accidental : x.accidental = if naming = .h ∧ l = 'B' ∧ a = [] then ['b'] else a

theorem Note.named_read (naming : Naming) (l : Char) (a : Text) :
    Named naming l a (read naming l a) := by
  unfold read
  by_cases hh : l = 'H'
  · rw [if_pos hh]
    exact ⟨by rw [if_pos hh], (if_neg (fun h => by rw [h.2.1] at hh; cases hh)).symm⟩
  · by_cases hb : naming = .h ∧ l = 'B' ∧ a = []
    · rw [if_neg hh, if_pos hb]
      exact ⟨by rw [if_neg hh, hb.2.1], (if_pos hb).symm⟩
    · rw [if_neg hh, if_neg hb]
      exact ⟨by rw [if_neg hh], (if_neg hb).symm⟩

namespace Chord

/-! ## Divisions -/

/-- A slash and the name of a note. -/
def IsBass (s : Text) : Prop := ∃ l a, s = '/' :: l :: a ∧ isNoteLetter l ∧ a ∈ Note.accidentals

@[ext] structure Division where
  root : Text
  quality : Text
  bass : Text

/-- The root takes the accidental that stands directly behind its letter, and what follows the root
ends in the bass, if it ends in one at all. -/
structure Division.Divides (d : Division) (s : Text) : Prop where
  whole : s = d.root ++ (d.quality ++ d.bass)
  root : ∃ l a, d.root = l :: a ∧ isNoteLetter l ∧ (a = [] ∧
    (∀ c ∈ (d.quality ++ d.bass).head?, isAccidental c = false) ∨ ∃ c, a = [c] ∧ isAccidental c)
  bass : IsBass d.bass ∨ d.bass = [] ∧ ∀ u, u <:+ d.quality → ¬ IsBass u

/-- The chord has the quality as it stands, and the notes that the other parts name. -/
structure Division.ReadsAs (naming : Naming) (d : Division) (c : Chord) : Prop where
  root : ∃ l a x, d.root = l :: a ∧ c.root = some x ∧ x.Named naming l a
  quality : c.quality = d.quality
  bass : d.bass = [] ∧ c.bass = none ∨
    ∃ l a y, d.bass = '/' :: l :: a ∧ c.bass = some y ∧ y.Named naming l a

/-! ## Where the parts end -/

theorem not_isBass_of_splitBass {s : Text} (h : splitBass s = (s, none)) {u : Text} (hu : u <:+ s) :
    ¬ IsBass u := by
  rintro ⟨l, a, rfl, hl, ha⟩
  obtain ⟨q, rfl⟩ := hu
  rw [splitBass_slash q hl ha, Prod.mk.injEq] at h
  cases h.2

/-- What a text that has been divided is found to end in. -/
theorem splitBass_append {q S : Text} (h : IsBass S ∨ S = [] ∧ ∀ u, u <:+ q → ¬ IsBass u) :
    S = [] ∧ splitBass (q ++ S) = (q, none) ∨
      ∃ l a, S = '/' :: l :: a ∧ a ∈ Note.accidentals ∧ splitBass (q ++ S) = (q, some (l, a)) := by
  rcases h with ⟨l, a, rfl, hl, ha⟩ | ⟨rfl, hq⟩
  · exact .inr ⟨l, a, rfl, ha, splitBass_slash q hl ha⟩
  · refine .inl ⟨rfl, ?_⟩
    rw [List.append_nil]
    rcases splitBass_cases q with hb | ⟨t, l, a, ht, hl, ha, -⟩
    · exact hb
    · exact absurd ⟨l, a, rfl, hl, ha⟩ (hq _ ⟨t, ht.symm⟩)

theorem exists_bass (s : Text) : ∃ q S, s = q ++ S ∧
    (IsBass S ∨ S = [] ∧ ∀ u, u <:+ q → ¬ IsBass u) := by
  rcases splitBass_cases s with h | ⟨q, l, a, hs, hl, ha, -⟩
  · exact ⟨s, [], (List.append_nil s).symm, .inr ⟨rfl, fun _ hu => not_isBass_of_splitBass h hu⟩⟩
  · exact ⟨q, '/' :: l :: a, hs, .inl ⟨l, a, rfl, hl, ha⟩⟩

/-- The parts of a symbol as reading finds them, one after the other. -/
theorem Division.Divides.found {d : Division} {l : Char} {rest : Text}
    (h : d.Divides (l :: rest)) : ∃ a, d.root = l :: a ∧ a ∈ Note.accidentals ∧
      splitAccidental rest = (a, d.quality ++ d.bass) := by
  obtain ⟨k, a, hr, -, ha⟩ := h.root
  have hw := h.whole
  rw [hr, List.cons_append, List.cons.injEq] at hw
  obtain ⟨rfl, rfl⟩ := hw
  have hmem : a ∈ Note.accidentals :=
    (mem_accidentals a).mpr (ha.imp (fun h => h.1) (fun h => h))
  refine ⟨a, hr, hmem, splitAccidental_append hmem fun h0 c u hc => ?_⟩
  rcases ha with ⟨-, hnext⟩ | ⟨b, rfl, -⟩
  · exact hnext c (by rw [hc]; rfl)
  · cases h0

theorem exists_divides {l : Char} (hl : isNoteLetter l) (rest : Text) :
    ∃ d : Division, d.Divides (l :: rest) := by
  obtain ⟨ha, hsplit⟩ := splitAccidental_spec rest
  obtain ⟨q, S, hS, hb⟩ := exists_bass (splitAccidental rest).2
  refine ⟨⟨l :: (splitAccidental rest).1, q, S⟩, ?_, ⟨l, _, rfl, hl, ?_⟩, hb⟩
  · rw [List.cons_append, ← hS, ← hsplit]
  · refine ((mem_accidentals _).mp ha).imp (fun h0 => ⟨h0, fun c hc => ?_⟩) (fun h => h)
    rw [← hS] at hc
    obtain ⟨u, hu⟩ := List.head?_eq_some_iff.mp hc
    exact splitAccidental_none h0 hu

/-- A symbol divides in no more than one way. -/
theorem divides_unique {d e : Division} {s : Text} (hd : d.Divides s) (he : e.Divides s) :
    e = d := by
  obtain ⟨l, a, hr, -⟩ := hd.root
  obtain ⟨rest, rfl⟩ : ∃ rest, s = l :: rest := ⟨_, by rw [hd.whole, hr, List.cons_append]⟩
  obtain ⟨b, hb, -, hsplit⟩ := hd.found
  obtain ⟨c, hc, -, hsplit'⟩ := he.found
  rw [hsplit, Prod.mk.injEq] at hsplit'
  obtain ⟨rfl, htail⟩ := hsplit'
  have hquality : ∀ f : Division, f.Divides (l :: rest) →
      (splitBass (f.quality ++ f.bass)).1 = f.quality := by
    intro f hf
    rcases splitBass_append hf.bass with ⟨-, h⟩ | ⟨k, a, -, -, h⟩ <;> rw [h]
  have hq : e.quality = d.quality := by rw [← hquality e he, ← htail, hquality d hd]
  rw [hq] at htail
  exact Division.ext (hc.trans hb.symm) hq (List.append_cancel_left htail).symm

/-! ## Reading -/

theorem readsAs_ofParts (naming : Naming) {d : Division} {l : Char} {rest : Text}
    (h : d.Divides (l :: rest)) : d.ReadsAs naming (ofParts naming l rest) := by
  obtain ⟨a, hr, -, hsplit⟩ := h.found
  rw [ofParts, hsplit]
  rcases splitBass_append h.bass with ⟨hS, hb⟩ | ⟨k, b, hS, -, hb⟩
  · simp only [hb]
    exact ⟨⟨l, a, _, hr, rfl, Note.named_read naming l a⟩, rfl, .inl ⟨hS, rfl⟩⟩
  · simp only [hb]
    exact ⟨⟨l, a, _, hr, rfl, Note.named_read naming l a⟩, rfl,
      .inr ⟨k, b, _, hS, rfl, Note.named_read naming k b⟩⟩

/-! ## Writing what has been read -/

/-- B has one letter. -/
def plain (c : Char) : Char := if c = 'H' then 'B' else c

theorem write_read {l : Char} {a : Text} (ha : a ∈ Note.accidentals) :
    (Note.read .b l a).write .b = (l :: a).map plain := by
  have hall : ∀ a ∈ Note.accidentals, a.map plain = a := by decide
  have hname : (Note.read .b l a).write .b = plain l :: a := by
    by_cases hl : l = 'H' <;> simp [Note.read, Note.write, Note.name, plain, hl]
  rw [hname, List.map_cons, hall a ha]

theorem write_ofParts {d : Division} {l : Char} {rest : Text} (h : d.Divides (l :: rest)) :
    (ofParts .b l rest).write .b = d.root.map plain ++ (d.quality ++ d.bass.map plain) := by
  obtain ⟨a, hr, ha, hsplit⟩ := h.found
  rw [ofParts, hsplit]
  rcases splitBass_append h.bass with ⟨hS, hb⟩ | ⟨k, b, hS, hk, hb⟩
  · simp only [hb]
    rw [write_some, write_read ha, hr, hS]
    rfl
  · simp only [hb]
    rw [write_some, write_read ha, hr, hS, Option.map_some, bassText, write_read hk]
    rfl

/-- A text that starts with no note letter is all quality. Every other text divides in just one way,
the chord is the one that its parts stand for, and in the naming `B` nothing else but an `H` in the
root or the bass is written otherwise than it was. -/
theorem divides_read (naming : Naming) (s : Text) :
    ((∀ c ∈ (strip s).head?, isNoteLetter c = false) ∧ read naming s = ⟨none, strip s, none⟩ ∧
        (read .b s).write .b = strip s) ∨
      ∃ d : Division, d.Divides (strip s) ∧ (∀ e : Division, e.Divides (strip s) → e = d) ∧
        d.ReadsAs naming (read naming s) ∧
        (read .b s).write .b = d.root.map plain ++ (d.quality ++ d.bass.map plain) := by
  unfold read
  cases hs : strip s with
  | nil => exact .inl ⟨nofun, rfl, rfl⟩
  | cons l rest =>
    by_cases hl : isNoteLetter l
    · obtain ⟨d, hd⟩ := exists_divides hl rest
      simp only [hl, if_true]
      exact .inr ⟨d, hd, fun e he => divides_unique hd he, readsAs_ofParts naming hd,
        write_ofParts hd⟩
    · simp only [hl]
      refine .inl ⟨?_, rfl, rfl⟩
      rintro c ⟨⟩
      simpa using hl

end Chord
end ChordSheet
