import Mathlib.Data.List.DropRight
import ChordSheet.Text.Blank

/-! What stripping leaves of a text, at its left end, its right end and at both.

* `stripRight_append`: the right end of two texts is that of the second, unless it is blank.
* `exists_stripRight`, `exists_strip`: a text is what stripping leaves of it, and blanks around that.
* `stripLeft_append_blanks`: blanks at the right end do not matter at the left one. -/
namespace ChordSheet
set_option autoImplicit false

/-! ## The right end -/

theorem stripRight_cons (c : Char) (s : Text) :
    stripRight (c :: s) =
      if stripRight s = [] then (if isBlank c then [] else [c]) else c :: stripRight s := by
  rw [stripRight]
  cases h : stripRight s <;> simp

theorem stripRight_eq_nil_iff (s : Text) : stripRight s = [] ↔ ∀ c ∈ s, isBlank c := by
  induction s with
  | nil => simp [stripRight]
  | cons c s ih =>
    rw [stripRight_cons]
    by_cases h : stripRight s = []
    · have hs := ih.mp h
      by_cases hc : isBlank c <;> simp [h, hc]
      exact hs
    · have hs : ¬ ∀ c ∈ s, isBlank c := fun h' => h (ih.mpr h')
      simp only [h, if_false, List.mem_cons, forall_eq_or_imp]
      simp [hs]

theorem stripRight_append (s t : Text) :
    stripRight (s ++ t) = if stripRight t = [] then stripRight s else s ++ stripRight t := by
  induction s with
  | nil => by_cases h : stripRight t = [] <;> simp [h, stripRight]
  | cons c s ih =>
    rw [List.cons_append, stripRight_cons, ih]
    by_cases h : stripRight t = []
    · rw [if_pos h, if_pos h, stripRight_cons]
    · simp [h]

theorem stripRight_append_blanks (s : Text) {z : Text} (hz : ∀ c ∈ z, isBlank c) :
    stripRight (s ++ z) = stripRight s := by
  rw [stripRight_append, if_pos ((stripRight_eq_nil_iff z).mpr hz)]

theorem stripRight_append_of_ne (s : Text) {t : Text} (ht : stripRight t ≠ []) :
    stripRight (s ++ t) = s ++ stripRight t := by
  rw [stripRight_append, if_neg ht]

theorem stripRight_concat {c : Char} (s : Text) (hc : isBlank c = false) :
    stripRight (s ++ [c]) = s ++ [c] := by
  have h : stripRight [c] = [c] := by simp [stripRight, hc]
  rw [stripRight_append_of_ne s (by simp [h]), h]

theorem exists_stripRight (s : Text) : ∃ z, (∀ c ∈ z, isBlank c) ∧ s = stripRight s ++ z := by
  induction s with
  | nil => exact ⟨[], by simp, rfl⟩
  | cons c s ih =>
    obtain ⟨z, hz, hs⟩ := ih
    rw [stripRight_cons]
    by_cases h : stripRight s = []
    · have hs' := (stripRight_eq_nil_iff s).mp h
      by_cases hc : isBlank c
      · exact ⟨c :: s, by simpa [hc] using hs', by simp [h, hc]⟩
      · exact ⟨s, hs', by simp [h, hc]⟩
    · refine ⟨z, hz, ?_⟩
      rw [if_neg h, List.cons_append, ← hs]

@[simp] theorem stripRight_stripRight (s : Text) : stripRight (stripRight s) = stripRight s := by
  obtain ⟨z, hz, hs⟩ := exists_stripRight s
  have h := stripRight_append_blanks (stripRight s) hz
  rw [← hs] at h
  exact h.symm

theorem mem_of_mem_stripRight {c : Char} {s : Text} (h : c ∈ stripRight s) : c ∈ s := by
  obtain ⟨z, -, hs⟩ := exists_stripRight s
  rw [hs]
  exact List.mem_append_left z h

/-- Behind a text that ends in no blank. -/
theorem stripRight_append_flush {s : Text} (hs : stripRight s = s) (t : Text) :
    stripRight (s ++ t) = s ++ stripRight t := by
  rw [stripRight_append]
  by_cases ht : stripRight t = []
  · rw [if_pos ht, ht, hs, List.append_nil]
  · rw [if_neg ht]

theorem stripRight_of_append {s t : Text} (h : stripRight (s ++ t) = s ++ t) :
    stripRight t = t := by
  obtain ⟨z, hz, ht⟩ := exists_stripRight t
  have hs := stripRight_append_blanks (s ++ stripRight t) hz
  rw [List.append_assoc, ← ht, h, stripRight_append, stripRight_stripRight] at hs
  by_cases hn : stripRight t = []
  · rw [if_pos hn] at hs
    obtain ⟨y, -, hy⟩ := exists_stripRight s
    have hlen := congrArg List.length hs
    have hlen' := congrArg List.length hy
    rw [List.length_append] at hlen hlen'
    rw [hn]
    exact (List.eq_nil_of_length_eq_zero (by omega)).symm
  · rw [if_neg hn] at hs
    exact (List.append_cancel_left hs).symm

theorem stripRight_of_no_blank {s : Text} (hs : ∀ c ∈ s, isBlank c = false) : stripRight s = s := by
  obtain ⟨z, hz, hsz⟩ := exists_stripRight s
  cases z with
  | nil => rw [List.append_nil] at hsz; exact hsz.symm
  | cons c z =>
    have hc := hz c (by simp)
    rw [hs c (by rw [hsz]; simp)] at hc
    cases hc

/-- What stripping leaves ends in a character that is no blank. -/
theorem exists_concat_of_stripRight {s : Text} (h : stripRight s ≠ []) :
    ∃ t c, stripRight s = t ++ [c] ∧ isBlank c = false := by
  rcases List.eq_nil_or_concat' (stripRight s) with hs | ⟨t, c, hs⟩
  · exact absurd hs h
  · refine ⟨t, c, hs, ?_⟩
    by_contra hc
    have hblank : ∀ d ∈ [c], isBlank d := by simpa using hc
    have hself := stripRight_stripRight s
    rw [hs, stripRight_append_blanks t hblank] at hself
    obtain ⟨z, -, ht⟩ := exists_stripRight t
    have hlength := congrArg List.length ht
    simp [hself] at hlength

/-! ## The left end -/

theorem stripLeft_cons (c : Char) (s : Text) :
    stripLeft (c :: s) = if isBlank c then stripLeft s else c :: s := by
  rw [stripLeft, List.dropWhile_cons, stripLeft]

@[simp] theorem stripLeft_stripLeft (s : Text) : stripLeft (stripLeft s) = stripLeft s :=
  List.dropWhile_idempotent isBlank s

theorem mem_of_mem_stripLeft {c : Char} {s : Text} (h : c ∈ stripLeft s) : c ∈ s :=
  (List.dropWhile_sublist isBlank).mem h

theorem stripLeft_eq_nil_iff (s : Text) : stripLeft s = [] ↔ ∀ c ∈ s, isBlank c :=
  List.dropWhile_eq_nil_iff

theorem eq_nil_of_flush {s : Text} (hl : stripLeft s = s) (hr : stripRight s = []) : s = [] := by
  rw [← hl, stripLeft_eq_nil_iff]
  exact (stripRight_eq_nil_iff s).mp hr

theorem stripLeft_append_blanks (s : Text) {z : Text} (hz : ∀ c ∈ z, isBlank c) :
    stripLeft (s ++ z) = if stripLeft s = [] then [] else stripLeft s ++ z := by
  induction s with
  | nil =>
    rw [List.nil_append, (stripLeft_eq_nil_iff z).mpr hz]
    rfl
  | cons c s ih =>
    rw [List.cons_append, stripLeft_cons, stripLeft_cons]
    by_cases hc : isBlank c
    · rw [if_pos hc, if_pos hc, ih]
    · simp [hc]

theorem stripLeft_blanks_append {z : Text} (hz : ∀ c ∈ z, isBlank c) (s : Text) :
    stripLeft (z ++ s) = stripLeft s := List.dropWhile_append_of_pos hz

theorem exists_stripLeft (s : Text) : ∃ z, (∀ c ∈ z, isBlank c) ∧ s = z ++ stripLeft s :=
  ⟨s.takeWhile isBlank, List.all_eq_true.mp List.all_takeWhile,
    List.takeWhile_append_dropWhile.symm⟩

/-- What stripping the right end leaves of a text flush left is flush left. -/
theorem stripLeft_stripRight {s : Text} (hs : stripLeft s = s) :
    stripLeft (stripRight s) = stripRight s := by
  cases s with
  | nil => rfl
  | cons c s =>
    rw [stripLeft_cons] at hs
    have hc : ¬ isBlank c := fun hc => by
      rw [if_pos hc] at hs
      have hle := List.length_dropWhile_le isBlank s
      rw [show s.dropWhile isBlank = c :: s from hs, List.length_cons] at hle
      omega
    rw [stripRight_cons]
    by_cases h : stripRight s = [] <;> simp [h, hc, stripLeft_cons]

/-! ## Both ends -/

theorem strip_append_blanks (s : Text) {z : Text} (hz : ∀ c ∈ z, isBlank c) :
    strip (s ++ z) = strip s := by
  rw [strip, strip, stripLeft_append_blanks s hz]
  by_cases h : stripLeft s = []
  · rw [if_pos h, h]
  · rw [if_neg h, stripRight_append_blanks _ hz]

theorem strip_between {y s z : Text} (hy : ∀ c ∈ y, isBlank c) (hs : strip s = s)
    (hz : ∀ c ∈ z, isBlank c) : strip (y ++ s ++ z) = s := by
  rw [strip_append_blanks _ hz, strip, stripLeft_blanks_append hy]
  exact hs

theorem exists_strip (s : Text) : ∃ y z, (∀ c ∈ y, isBlank c) ∧ (∀ c ∈ z, isBlank c) ∧
    s = y ++ strip s ++ z := by
  obtain ⟨y, hy, hs⟩ := exists_stripLeft s
  obtain ⟨z, hz, ht⟩ := exists_stripRight (stripLeft s)
  exact ⟨y, z, hy, hz, by rw [List.append_assoc, strip, ← ht, ← hs]⟩

theorem strip_of_flush {s : Text} (hl : stripLeft s = s) (hr : stripRight s = s) : strip s = s := by
  rw [strip, hl, hr]

theorem stripLeft_strip (s : Text) : stripLeft (strip s) = strip s :=
  stripLeft_stripRight (stripLeft_stripLeft s)

theorem stripRight_strip (s : Text) : stripRight (strip s) = strip s :=
  stripRight_stripRight (stripLeft s)

@[simp] theorem strip_strip (s : Text) : strip (strip s) = strip s :=
  strip_of_flush (stripLeft_strip s) (stripRight_strip s)

theorem flush_of_strip {s : Text} (h : strip s = s) : stripLeft s = s ∧ stripRight s = s := by
  have hl := stripLeft_strip s
  have hr := stripRight_strip s
  rw [h] at hl hr
  exact ⟨hl, hr⟩

theorem mem_of_mem_strip {c : Char} {s : Text} (h : c ∈ strip s) : c ∈ s :=
  mem_of_mem_stripLeft (mem_of_mem_stripRight h)

end ChordSheet
