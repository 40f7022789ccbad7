import ChordSheet.Chord.Standard
import ChordSheet.Proofs.Chord.Hearing

/-! The standard ear is one that takes symbols apart and goes by a table.

* `tabled?`: a quality in the table, with the bass behind it; `sounding?_eq`.
* `sounding?_accidentals`: all accidentals behind a letter are heard with it, or nothing is.
* `tabled?_slash`: a note at the end is the bass, if no slash is left before it.
* `Ear.standard_goesBy`: what is assumed of an ear holds of this one. -/
namespace ChordSheet
set_option autoImplicit false

/-! ## Roots -/

theorem tone?_cons (l : Char) (w : Text) : tone? (l :: w) = rootTone? (l :: w) := by
  match w with
  | [] =>
    cases h : PitchClass.natural? l with
    | none => simp [tone?, PitchClass.ofName?, rootTone?, toneAccidentals, h]
    | some m =>
      have hm : m.shift 0 = m := (PitchClass.shift_eq_self_iff m 0).mpr rfl
      simp [tone?, PitchClass.ofName?, rootTone?, toneAccidentals, bend, h, hm]
  | [a] =>
    by_cases hs : a = '#'
    · simp [tone?, PitchClass.ofName?, rootTone?, toneAccidentals, bend, hs]
    · by_cases hf : a = 'b'
      · simp [tone?, PitchClass.ofName?, rootTone?, toneAccidentals, bend, hf]
      · simp [tone?, PitchClass.ofName?, rootTone?, toneAccidentals, hs, hf]
  | [a, b] =>
    by_cases hs : a = '#' ∧ b = '#'
    · obtain ⟨rfl, rfl⟩ := hs
      rfl
    · by_cases hf : a = 'b' ∧ b = 'b'
      · obtain ⟨rfl, rfl⟩ := hf
        rfl
      · simp [tone?, rootTone?, toneAccidentals, hs, hf]
  | a :: b :: c :: w => simp [tone?, PitchClass.ofName?, rootTone?, toneAccidentals]

theorem slash_not_mem_of_tone? {w : Text} {r : PitchClass} (h : tone? w = some r) : '/' ∉ w := by
  cases w with
  | nil => simp
  | cons l w =>
    rw [tone?_cons] at h
    obtain ⟨hw, m, hm, -⟩ := rootTone?_eq_some_iff.mp h
    have hall : ∀ w ∈ toneAccidentals, '/' ∉ w := by decide
    intro hmem
    rcases List.mem_cons.mp hmem with rfl | hmem
    · cases hm
    · exact hall w hw hmem

/-! ## Symbols taken apart -/

def bassOf? : Option Text → Option (Option PitchClass)
  | none => some none
  | some name => (bassTone? name).map some

/-- A quality in the table, and the bass behind the first slash that belongs to no inversion. -/
def tabled? (s : Text) : Option Quality :=
  (bassOf? (splitSlash (dropInversions false s)).2).bind fun bass =>
    (intervals? (splitSlash (dropInversions false s)).1).bind fun steps =>
      if maxDigits < (inversion s).length then none else some ⟨steps.map Int.ofNat, bass⟩

theorem bassTones?_eq (s : Option Text) : bassTones? s = (bassOf? s).map Option.toList := by
  cases s with
  | none => rfl
  | some name =>
    rw [bassTones?, bassOf?]
    cases bassTone? name <;> rfl

theorem sounding?_eq (symbol : Text) : sounding? symbol = (tone? (splitTone symbol).1).bind
    fun root => (tabled? (splitTone symbol).2).map fun k => (k.above root).all := by
  unfold sounding? tabled?
  simp only [bassTones?_eq]
  cases tone? (splitTone symbol).1 with
  | none => rfl
  | some root =>
    cases bassOf? (splitSlash (dropInversions false (splitTone symbol).2)).2 with
    | none => rfl
    | some bass =>
      cases intervals? (splitSlash (dropInversions false (splitTone symbol).2)).1 with
      | none => rfl
      | some steps =>
        by_cases hd : maxDigits < (inversion (splitTone symbol).2).length <;>
          simp [hd, Quality.above, Hearing.all]

/-! ## The table -/

theorem exists_of_intervals? {q : Text} {steps : List Nat} (h : intervals? q = some steps) :
    ∃ row ∈ qualities, row.1 = steps ∧ ∃ name ∈ row.2, name.toList = q := by
  obtain ⟨row, hrow, hsteps⟩ := Option.map_eq_some_iff.mp h
  have hname := List.find?_some hrow
  obtain ⟨name, hn, hq⟩ := List.any_eq_true.mp hname
  exact ⟨row, List.mem_of_find?_eq_some hrow, hsteps, name, hn, beq_iff_eq.mp hq⟩

theorem root_of_tabled? {s : Text} {k : Quality} (h : tabled? s = some k) :
    ∃ i ∈ k.steps, i % 12 = 0 := by
  have hall : ∀ row ∈ qualities, 0 ∈ row.1 := by decide
  obtain ⟨bass, -, h⟩ := Option.bind_eq_some_iff.mp h
  obtain ⟨steps, hsteps, h⟩ := Option.bind_eq_some_iff.mp h
  obtain ⟨row, hrow, rfl, -⟩ := exists_of_intervals? hsteps
  split_ifs at h
  cases h
  exact ⟨0, List.mem_map_of_mem (hall row hrow), rfl⟩

/-- No name of a quality starts with an accidental. -/
theorem intervals?_accidental {a : Char} (ha : Chord.isAccidental a) (q : Text) :
    intervals? (a :: q) = none := by
  have hall : ∀ row ∈ qualities, ∀ name ∈ row.2,
      name.toList.head?.all (fun c => !Chord.isAccidental c) := by decide
  cases h : intervals? (a :: q) with
  | none => rfl
  | some steps =>
    obtain ⟨row, hrow, -, name, hname, hq⟩ := exists_of_intervals? h
    have hhead := hall row hrow name hname
    rw [hq] at hhead
    simp [ha] at hhead

theorem tabled?_accidental {a : Char} (ha : Chord.isAccidental a) (s : Text) :
    tabled? (a :: s) = none := by
  have hs : a ≠ '/' := by
    rintro rfl
    exact absurd ha (by decide)
  have hdrop : dropInversions false (a :: s) = a :: dropInversions false s := by
    simp [dropInversions, hs]
  have hsplit : (splitSlash (a :: dropInversions false s)).1 =
      a :: (splitSlash (dropInversions false s)).1 := by
    simp [splitSlash, hs]
  rw [tabled?, hdrop, hsplit, intervals?_accidental ha]
  cases bassOf? (splitSlash (a :: dropInversions false s)).2 <;> rfl

/-- All accidentals behind a letter are heard with it, or nothing is. -/
theorem sounding?_accidentals (l : Char) {w rest : Text} (hw : ∀ a ∈ w, Chord.isAccidental a)
    (hrest : ∀ d u, rest = d :: u → Chord.isAccidental d = false) :
    sounding? (l :: (w ++ rest)) = (rootTone? (l :: w)).bind fun root =>
      (tabled? rest).map fun k => (k.above root).all := by
  have hsplit : ∀ {s v t : Text}, splitTone s = (l :: v, t) → sounding? s =
      (rootTone? (l :: v)).bind fun root => (tabled? t).map fun k => (k.above root).all := by
    intro s v t h
    rw [sounding?_eq, h, tone?_cons]
  match w with
  | [] =>
    apply hsplit
    match rest with
    | [] => rfl
    | [d] => simp [splitTone, hrest d [] rfl]
    | d :: e :: u => simp [splitTone, hrest d (e :: u) rfl]
  | [a] =>
    have ha : Chord.isAccidental a := hw a (by simp)
    apply hsplit
    match rest with
    | [] => simp [splitTone, ha]
    | d :: u =>
      have hd : a ≠ d := by
        rintro rfl
        rw [hrest a u rfl] at ha
        cases ha
      simp [splitTone, ha, hd]
  | a :: b :: w =>
    have ha : Chord.isAccidental a := hw a (by simp)
    have hb : Chord.isAccidental b := hw b (by simp)
    by_cases hab : a = b
    · have hpair : splitTone (l :: a :: b :: (w ++ rest)) = ([l, a, b], w ++ rest) := by
        simp [splitTone, hb, hab]
      have h := hsplit hpair
      cases w with
      | nil => exact h
      | cons c w =>
        -- a third accidental starts the quality, and the whole is no tone
        have hc : Chord.isAccidental c := hw c (by simp)
        have hnone : rootTone? (l :: a :: b :: c :: w) = none := by
          simp [rootTone?, toneAccidentals]
        rw [List.cons_append, List.cons_append, h, List.cons_append, tabled?_accidental hc, hnone]
        cases rootTone? [l, a, b] <;> rfl
    · have hsingle : splitTone (l :: a :: b :: (w ++ rest)) = ([l, a], b :: (w ++ rest)) := by
        simp [splitTone, ha, hab]
      have h := hsplit hsingle
      have hmem : a :: b :: w ∉ toneAccidentals := by
        simp only [toneAccidentals, List.mem_cons, List.cons.injEq, List.not_mem_nil, or_false,
          reduceCtorEq, false_or, and_false, not_or]
        constructor <;> rintro ⟨rfl, rfl, -⟩ <;> exact hab rfl
      have hnone : rootTone? (l :: a :: b :: w) = none :=
        if_neg (mt List.contains_iff_mem.mp hmem)
      rw [List.cons_append, List.cons_append, h, tabled?_accidental hb, hnone]
      cases rootTone? [l, a] <;> rfl

/-! ## Basses -/

theorem dropInversions_of_not_mem {s : Text} (hs : '/' ∉ s) : dropInversions false s = s := by
  induction s with
  | nil => rfl
  | cons c s ih =>
    rw [List.mem_cons, not_or] at hs
    simp [dropInversions, Ne.symm hs.1, ih hs.2]

theorem inversion_of_not_mem {s : Text} (hs : '/' ∉ s) : inversion s = [] := by
  induction s with
  | nil => rfl
  | cons c s ih =>
    rw [List.mem_cons, not_or] at hs
    simp [inversion, Ne.symm hs.1, ih hs.2]

theorem head?_append_slash (t name : Text) :
    (t ++ '/' :: name).head?.any isDigit = t.head?.any isDigit := by
  cases t <;> rfl

section Bass
variable {name : Text} (hd : name.head?.any isDigit = false) (hs : '/' ∉ name)
include hd hs

/-- A bass at the end is no inversion, whatever stands before it. -/
theorem dropInversions_append_slash (inside : Bool) (t : Text) :
    dropInversions inside (t ++ '/' :: name) = dropInversions inside t ++ '/' :: name := by
  induction t generalizing inside with
  | nil => simp [dropInversions, hd, dropInversions_of_not_mem hs, isDigit]
  | cons c t ih =>
    rw [List.cons_append, dropInversions, dropInversions, head?_append_slash, ih, ih]
    split_ifs <;> rfl

theorem inversion_append_slash (t : Text) : inversion (t ++ '/' :: name) = inversion t := by
  induction t with
  | nil => simp [inversion, hd, inversion_of_not_mem hs]
  | cons c t ih =>
    have htake : (t ++ '/' :: name).takeWhile isDigit = t.takeWhile isDigit := by
      rw [List.takeWhile_append]
      split_ifs with hl
      · rw [List.takeWhile_cons_of_neg (by decide), List.append_nil,
          (List.takeWhile_prefix isDigit).eq_of_length hl]
      · rfl
    rw [List.cons_append, inversion, inversion, head?_append_slash, htake, ih]

end Bass

theorem bne_slash {u : Text} (hu : '/' ∉ u) : ∀ c ∈ u, (c != '/') = true := by
  intro c hc
  rw [bne_iff_ne]
  rintro rfl
  exact hu hc

theorem splitSlash_append {u : Text} (hu : '/' ∉ u) (name : Text) :
    splitSlash (u ++ '/' :: name) = (u, some name) := by
  rw [splitSlash, List.takeWhile_append_of_pos (bne_slash hu),
    List.dropWhile_append_of_pos (bne_slash hu)]
  simp

theorem splitSlash_of_not_mem {u : Text} (hu : '/' ∉ u) : splitSlash u = (u, none) := by
  rw [splitSlash, List.takeWhile_eq_self_iff.mpr (bne_slash hu),
    List.dropWhile_eq_nil_iff.mpr (bne_slash hu)]
  rfl

theorem bass_of_tabled? {s : Text} (hs : '/' ∉ s) {k : Quality} (h : tabled? s = some k) :
    k.bass = none := by
  obtain ⟨bass, hb, h⟩ := Option.bind_eq_some_iff.mp h
  rw [dropInversions_of_not_mem hs, splitSlash_of_not_mem hs] at hb
  obtain ⟨steps, -, h⟩ := Option.bind_eq_some_iff.mp h
  split_ifs at h
  cases h
  cases hb
  rfl

/-- A note at the end is the bass, if no slash is left before it. -/
theorem tabled?_slash (t : Text) {y : Note} (hy : y.Known) {r : PitchClass}
    (hr : y.pitch = .ok r) :
    tabled? (t ++ '/' :: y.write .b) =
      if '/' ∈ dropInversions false t then none
      else (tabled? t).map fun k => { k with bass := some r } := by
  have hall : ∀ y ∈ Note.spellings, (y.write .b).head?.any isDigit = false ∧
      '/' ∉ y.write .b ∧ (y.write .b).getLast? ≠ some '\n' := by decide
  obtain ⟨hd, hs, hlast⟩ := hall y hy
  obtain ⟨l, hl, -, hpitch⟩ := Note.exists_tone hy hr
  have hne : y.write .b ≠ [] := by simp [hl]
  rw [hl, ← tone?_cons, ← hl] at hpitch
  rw [tabled?, dropInversions_append_slash hd hs, inversion_append_slash hd hs]
  by_cases hu : '/' ∈ dropInversions false t
  · rw [if_pos hu]
    obtain ⟨u, v, huv, hnu⟩ := List.eq_append_cons_of_mem hu
    have hnone : bassTone? (v ++ '/' :: y.write .b) = none := by
      have hend : (v ++ '/' :: y.write .b).getLast? = (y.write .b).getLast? := by
        rw [List.getLast?_append_of_ne_nil v (by simp), List.getLast?_cons_of_ne_nil hne]
      rw [bassTone?, hend, if_neg hlast]
      cases h : tone? (v ++ '/' :: y.write .b) with
      | none => rfl
      | some p => exact absurd (by simp) (slash_not_mem_of_tone? h)
    rw [huv, List.append_assoc, List.cons_append, splitSlash_append hnu]
    simp only [bassOf?, hnone]
    rfl
  · rw [if_neg hu, tabled?, splitSlash_append hu, splitSlash_of_not_mem hu]
    simp only [bassOf?, bassTone?, hlast, if_false, hpitch, Option.map_some, Option.bind_some]
    cases intervals? (dropInversions false t) with
    | none => rfl
    | some steps =>
      by_cases hd : maxDigits < (inversion t).length <;> simp [hd]

/-! ## The ear -/

namespace Ear

theorem standard_tones? (symbol : Text) :
    standard.tones? symbol = (sounding? symbol).map ascending := by
  have hval : PitchClass.ofInt ∘ (fun p : PitchClass => (p.val : Int)) = id := by
    funext p
    apply PitchClass.ext_val
    have hlt := p.isLt
    rw [Function.comp_apply, PitchClass.val_ofInt, id]
    omega
  rw [tones?, standard, Option.map_map]
  congr 1
  funext ps
  rw [Function.comp_apply, List.map_map, hval, List.map_id]

theorem standard_goesBy : standard.GoesBy tabled? where
  symbol l w rest hw hrest := by
    rw [standard_tones?, sounding?_accidentals l hw hrest, Option.map_bind]
    congr 1
    funext root
    rw [Function.comp_apply, Option.map_map]
    rfl
  root _ _ := root_of_tabled?
  plain _ _ hs := bass_of_tabled? hs
  slash s x y p hx hy hp := by
    obtain ⟨r, hr⟩ := Note.exists_pitch hx
    rw [tabled?_slash s hy hp, tabled?_slash s hx hr]
    split_ifs
    · rfl
    · rw [Option.map_map]
      rfl

end Ear
end ChordSheet
