import ChordSheet.Proofs.Chord.Symbol

/-! What becomes of a chord that is written and read again. Nothing stands between the root and the
quality, so an accidental at the start of the quality may be taken for one of the root.

* `Chord.reread`: the chord that is read; `Chord.read_write`.
* `Chord.Survives`: the quality is kept apart from the root; `reread_eq_iff`.
* `Chord.survives_read`: what has been read survives in the naming `B`.
* `Chord.write_reread_iff`: which symbols stay as they are in the naming `H`.
* `Chord.shiftAll`: transpositions one after the other; `Chord.read_write_shifted`. -/
namespace ChordSheet
set_option autoImplicit false

namespace Chord

/-! ## Written chords -/

def bassText (naming : Naming) : Option Note → Text
  | none => []
  | some y => '/' :: y.write naming

theorem write_some (naming : Naming) (x : Note) (q : Text) (y : Option Note) :
    write naming ⟨some x, q, y⟩ = x.write naming ++ (q ++ bassText naming y) := by
  rw [← List.append_assoc]
  cases y <;> rfl

theorem not_isBlank_of_mem_symbols {c : Char} (hc : c ∈ Note.symbols) : isBlank c = false := by
  have hall : ∀ c ∈ Note.symbols, isBlank c = false := by decide
  exact hall c hc

theorem stripRight_note {x : Note} (hx : x.Known) (naming : Naming) :
    stripRight (x.write naming) = x.write naming :=
  stripRight_of_no_blank fun _ hc => not_isBlank_of_mem_symbols (Note.mem_symbols hx naming hc)

theorem stripRight_tail {x : Note} {q : Text} {y : Option Note} (h : Formed ⟨some x, q, y⟩)
    (naming : Naming) : stripRight (q ++ bassText naming y) = q ++ bassText naming y := by
  cases h with
  | rooted hx hr hb => rw [bassText, List.append_nil, hr]
  | @slashed _ y _ hx hy =>
    have hs : stripRight ('/' :: y.write naming) = '/' :: y.write naming := by
      rw [stripRight_cons, stripRight_note hy]
      obtain ⟨l, a, hw, -⟩ := Note.exists_write hy naming
      rw [hw, if_neg (by simp)]
    rw [bassText, stripRight_append_of_ne _ (by simp [hs]), hs]

theorem splitBass_tail_text {x : Note} {q : Text} {y : Option Note} (h : Formed ⟨some x, q, y⟩)
    (naming : Naming) : ∃ b, splitBass (q ++ bassText naming y) = (q, b) ∧
      b.map (fun b => Note.read naming b.1 b.2) = y := by
  cases h with
  | rooted hx hr hb => exact ⟨none, by rw [bassText, List.append_nil, hb], rfl⟩
  | @slashed _ y _ hx hy =>
    obtain ⟨l, a, hw, hl, ha, hread⟩ := Note.exists_write hy naming
    refine ⟨some (l, a), ?_, by rw [← hread]; rfl⟩
    rw [bassText, hw, splitBass_slash q hl ha]

theorem splitAccidental_append {a t : Text} (ha : a ∈ Note.accidentals)
    (ht : a = [] → ∀ d u, t = d :: u → isAccidental d = false) :
    splitAccidental (a ++ t) = (a, t) := by
  rcases (mem_accidentals a).mp ha with rfl | ⟨c, rfl, hc⟩
  · cases t with
    | nil => rfl
    | cons d u =>
      rw [List.nil_append, splitAccidental, ht rfl d u rfl]
      rfl
  · exact if_pos hc

/-- The parts of a symbol, where the accidental is that of the root. -/
theorem read_parts {x : Note} {q : Text} {y : Option Note} (h : Formed ⟨some x, q, y⟩)
    (naming : Naming) {l : Char} (hl : isNoteLetter l) {a : Text} (ha : a ∈ Note.accidentals)
    (hq : a = [] → ∀ d u, q = d :: u → isAccidental d = false) :
    read naming (l :: (a ++ (q ++ bassText naming y))) = ⟨some (Note.read naming l a), q, y⟩ := by
  have hblank : isBlank l = false := by
    have hall : ∀ c ∈ Note.letters, isBlank c = false := by decide
    exact hall l (Note.mem_letters hl)
  have hnote : stripRight (l :: a) = l :: a := by
    refine stripRight_of_no_blank fun c hc => ?_
    rcases List.mem_cons.mp hc with rfl | hc
    · exact hblank
    · have hall : ∀ a ∈ Note.accidentals, ∀ c ∈ a, isBlank c = false := by decide
      exact hall a ha c hc
  have hstrip : strip (l :: (a ++ (q ++ bassText naming y))) =
      l :: (a ++ (q ++ bassText naming y)) := by
    refine strip_of_flush ?_ ?_
    · rw [stripLeft_cons, hblank]
      rfl
    · rw [← List.cons_append, stripRight_append_flush hnote, stripRight_tail h]
  have ht : a = [] → ∀ d u, q ++ bassText naming y = d :: u → isAccidental d = false := by
    intro h0 d u hd
    cases q with
    | nil =>
      cases y with
      | none => cases hd
      | some y =>
        cases hd
        decide
    | cons d' q =>
      cases hd
      exact hq h0 d q rfl
  obtain ⟨b, hb, hy⟩ := splitBass_tail_text h naming
  rw [read, hstrip]
  simp only [hl, if_true]
  rw [ofParts, splitAccidental_append ha ht, hb, hy]

/-! ## Written and read again -/

/-- A root without an accidental takes one from the quality. -/
def reread (naming : Naming) (c : Chord) : Chord :=
  match c.root.map (Note.write naming), c.quality with
  | some [l], a :: q =>
    if isAccidental a then { c with root := some (Note.read naming l [a]), quality := q } else c
  | _, _ => c

/-- No accidental at the start of the quality follows a root of one letter. -/
def Survives (naming : Naming) (c : Chord) : Prop :=
  ∀ x l a q, c.root = some x → x.write naming = [l] → c.quality = a :: q → isAccidental a = false

theorem reread_of_survives {naming : Naming} {c : Chord} (h : c.Survives naming) :
    c.reread naming = c := by
  unfold reread
  split
  · next l a q hr hq =>
    obtain ⟨x, hx, hw⟩ := Option.map_eq_some_iff.mp hr
    rw [h x l a q hx hw hq]
    rfl
  · rfl

theorem reread_of_accidental {naming : Naming} {x : Note} {l a : Char} (hw : x.write naming = [l])
    (ha : isAccidental a) (q : Text) (y : Option Note) :
    reread naming ⟨some x, a :: q, y⟩ = ⟨some (Note.read naming l [a]), q, y⟩ := by
  rw [reread, Option.map_some, hw]
  exact if_pos ha

theorem exists_of_not_survives {naming : Naming} {c : Chord} (h : ¬ c.Survives naming) :
    ∃ x l a q, c = ⟨some x, a :: q, c.bass⟩ ∧ x.write naming = [l] ∧ isAccidental a := by
  obtain ⟨root, quality, bass⟩ := c
  simp only [Survives, not_forall, Bool.not_eq_false] at h
  obtain ⟨x, l, a, q, rfl, hw, rfl, ha⟩ := h
  exact ⟨x, l, a, q, rfl, hw, ha⟩

/-- A chord stays the same just when its quality is kept apart from the root. -/
theorem reread_eq_iff (naming : Naming) (c : Chord) :
    c.reread naming = c ↔ c.Survives naming := by
  refine ⟨fun h => ?_, reread_of_survives⟩
  by_cases hs : c.Survives naming
  · exact hs
  · obtain ⟨x, l, a, q, hc, hw, ha⟩ := exists_of_not_survives hs
    rw [hc, reread_of_accidental hw ha, Chord.mk.injEq] at h
    exact absurd h.2.1.symm (List.cons_ne_self a q)

theorem Formed.tail {x : Note} {a : Char} {q : Text} {y : Option Note}
    (h : Formed ⟨some x, a :: q, y⟩) : Formed ⟨some x, q, y⟩ := by
  cases h with
  | rooted hx hr hb => exact .rooted hx (stripRight_of_append (s := [a]) hr) (splitBass_tail hb)
  | slashed hx hy => exact .slashed hx hy

theorem Formed.known {c : Chord} (h : c.Formed) {x : Note} (hx : c.root = some x) : x.Known := by
  cases h with
  | plain hf hh => cases hx
  | rooted hx' hr hb =>
    cases hx
    exact hx'
  | slashed hx' hy =>
    cases hx
    exact hx'

/-- Writing and reading change a chord to the one that is reread. -/
theorem read_write {c : Chord} (h : c.Formed) (naming : Naming) :
    read naming (c.write naming) = c.reread naming := by
  by_cases hs : c.Survives naming
  · rw [reread_of_survives hs]
    obtain ⟨root, q, y⟩ := c
    cases root with
    | none =>
      cases h with
      | plain hf hh =>
        rw [show write naming ⟨none, q, none⟩ = q from rfl, read, hf]
        cases q with
        | nil => rfl
        | cons c q => simp [hh c q rfl]
    | some x =>
      obtain ⟨l, a, hw, hl, ha, hread⟩ := Note.exists_write (h.known rfl) naming
      rw [write_some, hw, List.cons_append, read_parts h naming hl ha, hread]
      intro h0 d u hq
      rw [h0] at hw
      exact hs x l d u rfl hw hq
  · obtain ⟨x, l, a, q, hc, hw, ha⟩ := exists_of_not_survives hs
    rw [hc] at h ⊢
    have hl : isNoteLetter l := by
      obtain ⟨l', a', hw', hl', -⟩ := Note.exists_write (h.known rfl) naming
      rw [hw, List.cons.injEq] at hw'
      rw [hw'.1]
      exact hl'
    rw [reread_of_accidental hw ha, write_some, hw,
      ← read_parts h.tail naming hl ((mem_accidentals [a]).mpr (.inr ⟨a, rfl, ha⟩)) (by simp)]
    rfl

/-! ## Symbols that have been read -/

theorem splitAccidental_none {s : Text} (h : (splitAccidental s).1 = []) {d : Char} {u : Text}
    (hd : (splitAccidental s).2 = d :: u) : isAccidental d = false := by
  cases s with
  | nil => cases hd
  | cons a s =>
    rw [splitAccidental] at h hd
    by_cases ha : isAccidental a
    · rw [if_pos ha] at h
      cases h
    · rw [if_neg ha] at hd
      cases hd
      simpa using ha

theorem exists_splitBass (s : Text) : ∃ u, s = (splitBass s).1 ++ u := by
  rcases splitBass_cases s with h | ⟨q, l, a, hs, -, -, h⟩
  · exact ⟨[], by rw [h, List.append_nil]⟩
  · exact ⟨'/' :: l :: a, by rw [h]; exact hs⟩

theorem accidental_of_read (naming : Naming) (l : Char) {a : Text} (ha : a ≠ []) :
    (Note.read naming l a).accidental ≠ [] := by
  rw [Note.read]
  by_cases hl : l = 'H'
  · rw [if_pos hl]
    exact ha
  · rw [if_neg hl, if_neg (fun h => ha h.2.2)]
    exact ha

/-- The accidental that stands directly behind a letter belongs to the root. -/
theorem accidental_ne_nil {naming : Naming} {s : Text} {x : Note} {a : Char} {q : Text}
    (hx : (read naming s).root = some x) (hq : (read naming s).quality = a :: q)
    (ha : isAccidental a) : x.accidental ≠ [] := by
  rw [read] at hx hq
  cases hs : strip s with
  | nil => rw [hs] at hx; cases hx
  | cons c r =>
    rw [hs] at hx hq
    by_cases hc : isNoteLetter c
    · simp only [hc, if_true] at hx hq
      rw [ofParts, Option.some.injEq] at hx
      rw [ofParts] at hq
      rw [← hx]
      refine accidental_of_read naming c fun hnone => ?_
      obtain ⟨u, hu⟩ := exists_splitBass (splitAccidental r).2
      have hq' : (splitBass (splitAccidental r).2).1 = a :: q := hq
      rw [hq', List.cons_append] at hu
      have hd := splitAccidental_none hnone hu
      rw [ha] at hd
      cases hd
    · simp [hc] at hx

/-- What has been read survives in the naming `B`. -/
theorem survives_read (naming : Naming) (s : Text) : (read naming s).Survives .b := by
  intro x l a q hx hw hq
  cases ha : isAccidental a with
  | false => rfl
  | true =>
    have hall : ∀ x ∈ Note.spellings, (x.write .b).length = 1 → x.accidental = [] := by decide
    have hk := (formed_read naming s).known hx
    exact absurd (hall x hk (by rw [hw]; rfl)) (accidental_ne_nil hx hq ha)

/-- In the naming `B` the symbol stays as it is, whatever the chord. -/
theorem write_reread {c : Chord} (h : c.Formed) : (c.reread .b).write .b = c.write .b := by
  by_cases hs : c.Survives .b
  · rw [reread_of_survives hs]
  · obtain ⟨x, l, a, q, hc, hw, ha⟩ := exists_of_not_survives hs
    rw [hc] at h ⊢
    have hall : ∀ x ∈ Note.spellings, ∀ l ∈ Note.letters, x.write .b = [l] →
        ∀ a ∈ ['#', 'b'], (Note.read .b l [a]).write .b = [l, a] := by decide
    have hl : l ∈ Note.letters := by
      obtain ⟨l', a', hw', hl', -⟩ := Note.exists_write (h.known rfl) .b
      rw [hw, List.cons.injEq] at hw'
      rw [hw'.1]
      exact Note.mem_letters hl'
    have hr := hall x (h.known rfl) l hl hw a (by simpa [isAccidental_iff] using ha)
    rw [reread_of_accidental hw ha, write_some, hr, write_some, hw]
    rfl

/-- In the naming `H` only B flat runs into its quality, and then the symbol changes. -/
theorem write_reread_iff (naming : Naming) (s : Text) :
    ((read naming s).reread .h).write .h = (read naming s).write .h ↔
      ((read naming s).root = some ⟨['B'], ['b']⟩ →
        ∀ a q, (read naming s).quality = a :: q → isAccidental a = false) := by
  have hf := formed_read naming s
  have hne := @accidental_ne_nil naming s
  generalize read naming s = c at hf hne ⊢
  constructor
  · intro h hroot a q hq
    obtain ⟨root, quality, y⟩ := c
    cases hroot
    cases hq
    cases ha : isAccidental a with
    | false => rfl
    | true =>
      rw [reread_of_accidental (l := 'B') rfl ha, write_some, write_some] at h
      rcases (isAccidental_iff a).mp ha with rfl | rfl
      · cases h
      · have hlen := congrArg List.length h
        simp [Note.read, Note.write] at hlen
  · intro h
    refine congrArg _ (reread_of_survives ?_)
    intro x l a q hx hw hq
    cases ha : isAccidental a with
    | false => rfl
    | true =>
      have hall : ∀ x ∈ Note.spellings, (x.write .h).length = 1 → x.accidental ≠ [] →
          x = ⟨['B'], ['b']⟩ := by decide
      have hB := hall x (hf.known hx) (by rw [hw]; rfl) (hne hx hq ha)
      rw [hB] at hx
      rw [← ha, h hx a q hq]

/-! ## Chords that have been moved -/

/-- One transposition after the other. -/
def shiftAll (ns : List Int) (c : Chord) : Except Fault Chord := ns.foldlM (fun c n => c.shift n) c

/-- Whatever the transpositions, none fails and the chord stays one that can be read. -/
theorem exists_shiftAll {c : Chord} (h : c.Formed) (ns : List Int) :
    ∃ e, c.shiftAll ns = .ok e ∧ e.Formed := by
  induction ns generalizing c with
  | nil => exact ⟨c, rfl, h⟩
  | cons n ns ih =>
    obtain ⟨e, he, hf⟩ := ih (formed_moved h n)
    refine ⟨e, ?_, hf⟩
    rw [shiftAll, List.foldlM_cons, shift_formed h n]
    exact he

/-- A known note is written as a letter, or as one with an accidental. -/
theorem write_eq_letter_or {x : Note} (hx : x.Known) (naming : Naming) :
    (∃ l, x.write naming = [l]) ∨ ∃ l a, x.write naming = [l, a] ∧ isAccidental a := by
  obtain ⟨l, a, hw, -, ha, -⟩ := Note.exists_write hx naming
  rcases (mem_accidentals a).mp ha with rfl | ⟨d, rfl, hd⟩
  · exact .inl ⟨l, hw⟩
  · exact .inr ⟨l, d, hw, hd⟩

/-- Three ways for a quality to be kept apart from the root: there is no root, the quality starts
with no accidental, or the root is written with one of its own. -/
theorem survives_iff {c : Chord} (h : c.Formed) (naming : Naming) :
    c.Survives naming ↔ c.root = none ∨ (∀ a ∈ c.quality.head?, isAccidental a = false) ∨
      ∃ x l a, c.root = some x ∧ x.write naming = [l, a] ∧ isAccidental a := by
  constructor
  · intro hs
    cases hr : c.root with
    | none => exact .inl rfl
    | some x =>
      rcases write_eq_letter_or (h.known hr) naming with ⟨l, hw⟩ | ⟨l, a, hw, ha⟩
      · refine .inr (.inl fun a ha => ?_)
        obtain ⟨q, hq⟩ := List.head?_eq_some_iff.mp ha
        exact hs x l a q hr hw hq
      · exact .inr (.inr ⟨x, l, a, rfl, hw, ha⟩)
  · rintro (hr | hq | ⟨x, l, a, hr, hw, -⟩) y k b q hy hk hb
    · rw [hr] at hy
      cases hy
    · exact hq b (by rw [hb]; rfl)
    · rw [hr, Option.some.injEq] at hy
      rw [← hy, hw] at hk
      cases hk

/-- A chord that has been read and moved any number of times, by any intervals, is read again from
its symbol just when it has no root, or its quality starts with neither a sharp nor a flat, or its
root is written with an accidental. -/
theorem read_write_shifted (source target : Naming) (s : Text) (ns : List Int) :
    ∃ c, (read source s).shiftAll ns = .ok c ∧
      (read target (c.write target) = c ↔ c.root = none ∨
        (∀ a ∈ c.quality.head?, a ≠ '#' ∧ a ≠ 'b') ∨
        ∃ x l a, c.root = some x ∧ x.write target = [l, a] ∧ (a = '#' ∨ a = 'b')) := by
  obtain ⟨c, hc, hf⟩ := exists_shiftAll (formed_read source s) ns
  refine ⟨c, hc, ?_⟩
  rw [read_write hf, reread_eq_iff, survives_iff hf]
  simp only [isAccidental_iff, ← Bool.not_eq_true, not_or, ne_eq]

/-! ## Characters of symbols -/

theorem mem_of_mem_quality {naming : Naming} {s : Text} {c : Char}
    (h : c ∈ (read naming s).quality) : c ∈ s := by
  rw [read] at h
  cases hs : strip s with
  | nil => rw [hs] at h; cases h
  | cons d r =>
    have hmem : ∀ c ∈ d :: r, c ∈ s := fun c hc => mem_of_mem_strip (by rw [hs]; exact hc)
    rw [hs] at h
    by_cases hd : isNoteLetter d
    · simp only [hd, if_true] at h
      rw [ofParts] at h
      obtain ⟨u, hu⟩ := exists_splitBass (splitAccidental r).2
      refine hmem c (List.mem_cons_of_mem d ?_)
      rw [(splitAccidental_spec r).2, hu]
      simp [h]
    · simp only [hd] at h
      exact hmem c h

theorem mem_write {c : Chord} (h : c.Formed) {naming : Naming} {d : Char}
    (hd : d ∈ c.write naming) : d ∈ c.quality ∨ d ∈ Note.symbols := by
  obtain ⟨root, q, y⟩ := c
  cases root with
  | none => exact .inl hd
  | some x =>
    rw [write_some, List.mem_append, List.mem_append] at hd
    rcases hd with hd | hd | hd
    · exact .inr (Note.mem_symbols (h.known rfl) naming hd)
    · exact .inl hd
    · cases h with
      | rooted => cases hd
      | slashed hx hy =>
        rcases List.mem_cons.mp hd with rfl | hd
        · exact .inr (by decide)
        · exact .inr (Note.mem_symbols hy naming hd)

/-- The symbol of a moved chord has only characters of its own and those of notes. -/
theorem avoids_symbol {s : Text} (hs : Avoids chordStops s) (source target : Naming) (n : Int) :
    Avoids chordStops (((read source s).moved n).write target) := by
  intro c hc hstop
  have hf := formed_moved (formed_read source s) n
  rcases mem_write hf hc with hq | hsym
  · rw [quality_moved] at hq
    exact hs c (mem_of_mem_quality hq) hstop
  · have hall : ∀ c ∈ chordStops, c ∉ Note.symbols := by decide
    exact hall c hstop hsym

end Chord
end ChordSheet
