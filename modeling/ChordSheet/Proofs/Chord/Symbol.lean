import ChordSheet.Proofs.Chord.Spelling

/-! Chord symbols as they are read, and transposition without a fault.

* `Chord.splitBass_cases`, `Chord.splitBass_slash`: where the quality ends.
* `Chord.Formed`: the chords that reading gives; `formed_read`, `formed_moved`.
* `Chord.moved`: where a chord moves to; `shift_formed`. -/
namespace ChordSheet
set_option autoImplicit false

namespace Chord

/-! ## The bass of a text -/

theorem isAccidental_iff (c : Char) : isAccidental c ↔ c = '#' ∨ c = 'b' := by
  simp [isAccidental]

theorem mem_accidentals (a : Text) :
    a ∈ Note.accidentals ↔ a = [] ∨ ∃ c, a = [c] ∧ isAccidental c := by
  simp only [Note.accidentals, List.mem_cons, List.not_mem_nil, or_false, isAccidental_iff]
  constructor
  · rintro (rfl | rfl | rfl)
    · exact .inl rfl
    · exact .inr ⟨'#', rfl, .inl rfl⟩
    · exact .inr ⟨'b', rfl, .inr rfl⟩
  · rintro (rfl | ⟨c, rfl, rfl | rfl⟩) <;> simp

theorem bass?_slash {l : Char} (hl : isNoteLetter l) {a : Text} (ha : a ∈ Note.accidentals) :
    bass? ('/' :: l :: a) = some (l, a) := by
  rcases (mem_accidentals a).mp ha with rfl | ⟨c, rfl, hc⟩
  · exact if_pos hl
  · exact if_pos (by rw [hl, hc]; rfl)

theorem of_bass? {s a : Text} {l : Char} (h : bass? s = some (l, a)) :
    s = '/' :: l :: a ∧ isNoteLetter l ∧ a ∈ Note.accidentals := by
  unfold bass? at h
  split at h
  · next c =>
    by_cases hc : isNoteLetter c
    · rw [if_pos hc] at h
      cases h
      exact ⟨rfl, hc, by decide⟩
    · rw [if_neg hc] at h
      cases h
  · next c d =>
    by_cases hc : isNoteLetter c && isAccidental d
    · rw [if_pos hc] at h
      cases h
      rw [Bool.and_eq_true] at hc
      exact ⟨rfl, hc.1, (mem_accidentals _).mpr (.inr ⟨d, rfl, hc.2⟩)⟩
    · rw [if_neg hc] at h
      cases h
  · cases h

theorem splitBass_of_bass? {s : Text} {b : Char × Text} (h : bass? s = some b) :
    splitBass s = ([], some b) := by
  cases s with
  | nil => cases h
  | cons c s => rw [splitBass, h]

theorem splitBass_cons {c : Char} {s : Text} (h : bass? (c :: s) = none) :
    splitBass (c :: s) = (c :: (splitBass s).1, (splitBass s).2) := by
  rw [splitBass, h]

/-- The quality goes on to the bass that ends the text, and there is no other before it. -/
theorem splitBass_slash (q : Text) {l : Char} (hl : isNoteLetter l) {a : Text}
    (ha : a ∈ Note.accidentals) : splitBass (q ++ '/' :: l :: a) = (q, some (l, a)) := by
  induction q with
  | nil => exact splitBass_of_bass? (bass?_slash hl ha)
  | cons c q ih =>
    have hb : bass? (c :: (q ++ '/' :: l :: a)) = none := by
      cases hs : bass? (c :: (q ++ '/' :: l :: a)) with
      | none => rfl
      | some b =>
        -- a bass has a letter where the slash of the real one would be
        obtain ⟨he, hm, hd⟩ := of_bass? (l := b.1) (a := b.2) hs
        have hslash : isNoteLetter '/' = false := by decide
        cases q with
        | nil =>
          simp only [List.nil_append, List.cons.injEq] at he
          rw [← he.2.1, hslash] at hm
          cases hm
        | cons d q =>
          have hlen := congrArg List.length he
          have hle : b.2.length ≤ 1 := by
            rcases (mem_accidentals _).mp hd with h0 | ⟨_, h0, -⟩ <;> rw [h0] <;> simp
          simp only [List.length_cons, List.length_append] at hlen
          omega
    rw [List.cons_append, splitBass_cons hb, ih]

/-- Either the whole text is quality, or a bass ends it. -/
theorem splitBass_cases (s : Text) :
    splitBass s = (s, none) ∨ ∃ q l a, s = q ++ '/' :: l :: a ∧ isNoteLetter l ∧
      a ∈ Note.accidentals ∧ splitBass s = (q, some (l, a)) := by
  induction s with
  | nil => exact .inl rfl
  | cons c s ih =>
    cases hb : bass? (c :: s) with
    | some b =>
      obtain ⟨he, hl, ha⟩ := of_bass? (l := b.1) (a := b.2) hb
      exact .inr ⟨[], b.1, b.2, he, hl, ha, splitBass_of_bass? hb⟩
    | none =>
      rw [splitBass_cons hb]
      rcases ih with h | ⟨q, l, a, hs, hl, ha, h⟩
      · exact .inl (by rw [h])
      · exact .inr ⟨c :: q, l, a, by rw [hs, List.cons_append], hl, ha, by rw [h]⟩

theorem splitBass_tail {c : Char} {s : Text} (h : splitBass (c :: s) = (c :: s, none)) :
    splitBass s = (s, none) := by
  cases hb : bass? (c :: s) with
  | some b =>
    rw [splitBass_of_bass? hb] at h
    cases h
  | none =>
    rw [splitBass_cons hb, Prod.mk.injEq, List.cons.injEq] at h
    exact Prod.ext h.1.2 h.2

/-! ## Formed chords -/

/-- A chord has no root and no bass, a root alone, or a root and a bass. -/
inductive Formed : Chord → Prop
  | plain {q : Text} (hf : strip q = q) (hh : ∀ c s, q = c :: s → isNoteLetter c = false) :
      Formed ⟨none, q, none⟩
  | rooted {x : Note} {q : Text} (hx : x.Known) (hr : stripRight q = q)
      (hb : splitBass q = (q, none)) : Formed ⟨some x, q, none⟩
  | slashed {x y : Note} {q : Text} (hx : x.Known) (hy : y.Known) : Formed ⟨some x, q, some y⟩

theorem splitAccidental_spec (s : Text) : (splitAccidental s).1 ∈ Note.accidentals ∧
    s = (splitAccidental s).1 ++ (splitAccidental s).2 := by
  cases s with
  | nil => exact ⟨by decide, rfl⟩
  | cons a s =>
    rw [splitAccidental]
    by_cases ha : isAccidental a
    · rw [if_pos ha]
      exact ⟨(mem_accidentals _).mpr (.inr ⟨a, rfl, ha⟩), rfl⟩
    · rw [if_neg ha]
      exact ⟨(mem_accidentals _).mpr (.inl rfl), rfl⟩

theorem formed_ofParts (naming : Naming) {l : Char} (hl : isNoteLetter l) {s : Text}
    (hs : stripRight (l :: s) = l :: s) : (ofParts naming l s).Formed := by
  obtain ⟨ha, hsplit⟩ := splitAccidental_spec s
  have hx := Note.known_read naming hl ha
  rw [ofParts]
  rcases splitBass_cases (splitAccidental s).2 with h | ⟨q, k, a, -, hk, hka, h⟩
  · have hr : stripRight (splitAccidental s).2 = (splitAccidental s).2 := by
      refine stripRight_of_append (s := l :: (splitAccidental s).1) ?_
      rw [List.cons_append, ← hsplit, hs]
    rw [h]
    exact .rooted hx hr h
  · rw [h]
    exact .slashed hx (Note.known_read naming hk hka)

theorem formed_read (naming : Naming) (s : Text) : (read naming s).Formed := by
  unfold read
  cases h : strip s with
  | nil => exact .plain rfl (fun _ _ h => by cases h)
  | cons c r =>
    have hf := strip_strip s
    have hr := stripRight_strip s
    rw [h] at hf hr
    by_cases hc : isNoteLetter c
    · simp only [hc, if_true]
      exact formed_ofParts naming hc hr
    · simp only [hc]
      refine .plain hf ?_
      rintro _ _ ⟨⟩
      simpa using hc

/-! ## Transposition -/

def moved (n : Int) (c : Chord) : Chord :=
  match c.root with
  | none => c
  | some root =>
    if n % 12 = 0 then c
    else { c with
      root := some (root.moved c.usesFlats n), bass := c.bass.map (Note.moved c.usesFlats n) }

theorem moved_zero (c : Chord) : c.moved 0 = c := by
  unfold moved
  cases c.root <;> rfl

theorem shift_formed {c : Chord} (h : c.Formed) (n : Int) : c.shift n = .ok (c.moved n) := by
  cases h with
  | plain hf hh => rfl
  | rooted hx hr hb =>
    by_cases hn : n % 12 = 0
    · simp [shift, moved, hn]
    · simp [shift, moved, hn, Note.shift_known hx, bind, Except.bind]
  | slashed hx hy =>
    by_cases hn : n % 12 = 0
    · simp [shift, moved, hn]
    · simp [shift, moved, hn, Note.shift_known hx, Note.shift_known hy, bind, Except.bind,
        Except.map]

theorem formed_moved {c : Chord} (h : c.Formed) (n : Int) : (c.moved n).Formed := by
  by_cases hn : n % 12 = 0
  · have hc : c.moved n = c := by cases h <;> simp [moved, hn]
    rwa [hc]
  cases h with
  | plain hf hh => exact .plain hf hh
  | rooted hx hr hb =>
    simp only [moved, hn, if_false]
    exact .rooted (Note.known_moved hx _ n) hr hb
  | slashed hx hy =>
    simp only [moved, hn, if_false]
    exact .slashed (Note.known_moved hx _ n) (Note.known_moved hy _ n)

theorem quality_moved (n : Int) (c : Chord) : (c.moved n).quality = c.quality := by
  unfold moved
  cases c.root with
  | none => rfl
  | some x => by_cases hn : n % 12 = 0 <;> simp [hn]

end Chord
end ChordSheet
