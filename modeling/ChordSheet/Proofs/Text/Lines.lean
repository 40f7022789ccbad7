import ChordSheet.Proofs.Text.Ends
import ChordSheet.Text.Lines

/-! Texts as lists of lines.

* `Avoids`: a text without certain characters; `breaks` are those that end a line.
* `unlines`: lines, each with its line break.
* `squeeze`: empty lines at the start are gone, and of several in a row one is left.
* `trimEnd`: blank lines at the end are gone, and blanks at the end of the last line that is left.
* `unlines_squeeze`, `stripRight_unlines`: the same on texts. -/
namespace ChordSheet
set_option autoImplicit false

/-! ## Characters that a text does without -/

/-- What holds of the characters of a text is decided by going through the text. -/
instance decidableForallMem (p : Char → Prop) [DecidablePred p] (s : List Char) :
    Decidable (∀ c ∈ s, p c) := List.decidableBAll p s

instance decidableExistsMem (p : Char → Prop) [DecidablePred p] (s : List Char) :
    Decidable (∃ c ∈ s, p c) := List.decidableBEx p s

def Avoids (cs s : Text) : Prop := ∀ c ∈ s, c ∉ cs

instance (cs s : Text) : Decidable (Avoids cs s) :=
  inferInstanceAs (Decidable (∀ c ∈ s, c ∉ cs))

/-- The characters that end a line. -/
def breaks : Text := ['\n', '\r']

/-- The characters that end a chord, or the line that it stands on. -/
def chordStops : Text := ['\n', '\r', ']']

/-- The characters that end lyrics, and the closing bracket, which is dropped from them. -/
def lyricStops : Text := ['\n', '\r', '[', ']']

section Avoids
variable {cs s t : Text}

@[simp] theorem avoids_nil : Avoids cs [] := fun _ h => absurd h List.not_mem_nil

@[simp] theorem avoids_cons {c : Char} : Avoids cs (c :: s) ↔ c ∉ cs ∧ Avoids cs s :=
  List.forall_mem_cons

@[simp] theorem avoids_append : Avoids cs (s ++ t) ↔ Avoids cs s ∧ Avoids cs t :=
  List.forall_mem_append

theorem Avoids.not_mem (h : Avoids cs s) {c : Char} (hc : c ∈ cs) : c ∉ s :=
  fun hs => h c hs hc

theorem Avoids.of_subset (h : Avoids cs s) (hst : ∀ c ∈ t, c ∈ s) : Avoids cs t :=
  fun c hc => h c (hst c hc)

theorem Avoids.weaken {ds : Text} (h : Avoids cs s) (hcs : ∀ c ∈ ds, c ∈ cs) : Avoids ds s :=
  fun c hc hd => h c hc (hcs c hd)

theorem Avoids.stripRight (h : Avoids cs s) : Avoids cs (stripRight s) :=
  h.of_subset fun _ => mem_of_mem_stripRight

theorem Avoids.stripLeft (h : Avoids cs s) : Avoids cs (stripLeft s) :=
  h.of_subset fun _ => mem_of_mem_stripLeft

end Avoids

/-! ## Lines of a text -/

theorem not_mem_of_mem_splitOn {c : Char} {s l : Text} (h : l ∈ s.splitOn c) : c ∉ l := by
  induction s generalizing l with
  | nil => simp_all
  | cons d s ih =>
    rw [List.splitOn_cons_eq_if_modifyHead] at h
    by_cases hd : d = c
    · rw [if_pos (by simpa using hd), List.mem_cons] at h
      rcases h with rfl | h
      · simp
      · exact ih h
    · rw [if_neg (by simpa using hd)] at h
      obtain ⟨a, as, ha⟩ := List.exists_cons_of_ne_nil (List.splitOn_ne_nil c s)
      rw [ha, List.modifyHead_cons, List.mem_cons] at h
      rcases h with rfl | h
      · have hc := ih (l := a) (by simp [ha])
        simpa [hc] using Ne.symm hd
      · exact ih (by simp [ha, h])

theorem normalizeBreaks_ne_return {s : Text} : '\r' ∉ normalizeBreaks s := by
  fun_induction normalizeBreaks s with
  | case1 => simp
  | case2 s ih => simpa using ih
  | case3 c s h ih => by_cases hc : c = '\r' <;> simp_all [Ne.symm]

theorem normalizeBreaks_of_not_mem {s : Text} (hs : '\r' ∉ s) : normalizeBreaks s = s := by
  fun_induction normalizeBreaks s with
  | case1 => rfl
  | case2 s ih => simp at hs
  | case3 c s h ih =>
    rw [List.mem_cons, not_or] at hs
    rw [if_neg (Ne.symm hs.1), ih hs.2]

/-! ## Lines with their breaks -/

def unlines (ls : List Text) : Text := ls.flatMap (· ++ ['\n'])

@[simp] theorem unlines_nil : unlines [] = [] := rfl

@[simp] theorem unlines_cons (l : Text) (ls : List Text) :
    unlines (l :: ls) = l ++ '\n' :: unlines ls := by
  simp [unlines]

@[simp] theorem unlines_append (ls ms : List Text) :
    unlines (ls ++ ms) = unlines ls ++ unlines ms := by
  simp [unlines]

theorem intercalate_eq_unlines (ls : List Text) (hne : ls ≠ []) :
    ['\n'].intercalate ls ++ ['\n'] = unlines ls := by
  induction ls with
  | nil => exact absurd rfl hne
  | cons l ls ih =>
    cases ls with
    | nil => simp
    | cons l' ls =>
      rw [List.intercalate_cons_cons, unlines_cons, ← ih (by simp)]
      simp

theorem splitOn_unlines {ls : List Text} (h : ∀ l ∈ ls, '\n' ∉ l) :
    (unlines ls).splitOn '\n' = ls ++ [[]] := by
  induction ls with
  | nil => rfl
  | cons l ls ih =>
    obtain ⟨hl, hls⟩ := List.forall_mem_cons.mp h
    rw [unlines_cons, List.splitOn_append_cons_self_of_not_mem hl, ih hls, List.cons_append]

/-! ## Rows of empty lines

Lines may hold anything, so that the same is known of lines of tokens. -/

section Squeeze
variable {α β : Type}

/-- `squeeze gap ls` stands behind an empty line or at the start if there is a gap. -/
def squeeze : Bool → List (List α) → List (List α)
  | _, [] => []
  | true, [] :: ls => squeeze true ls
  | false, [] :: ls => [] :: squeeze true ls
  | _, (c :: l) :: ls => (c :: l) :: squeeze false ls

/-- Whether an empty line comes last, or nothing at all comes after a gap. -/
def endsInGap : Bool → List (List α) → Bool
  | gap, [] => gap
  | _, l :: ls => endsInGap l.isEmpty ls

theorem squeeze_cons (gap : Bool) (l : List α) (ls : List (List α)) :
    squeeze gap (l :: ls) =
      (if gap && l.isEmpty then [] else [l]) ++ squeeze l.isEmpty ls := by
  cases gap <;> cases l <;> rfl

theorem squeeze_append (gap : Bool) (ls ms : List (List α)) :
    squeeze gap (ls ++ ms) = squeeze gap ls ++ squeeze (endsInGap gap ls) ms := by
  induction ls generalizing gap with
  | nil => rfl
  | cons l ls ih =>
    rw [List.cons_append, squeeze_cons, squeeze_cons, ih, endsInGap, List.append_assoc]

theorem endsInGap_append (gap : Bool) (ls ms : List (List α)) :
    endsInGap gap (ls ++ ms) = endsInGap (endsInGap gap ls) ms := by
  induction ls generalizing gap with
  | nil => rfl
  | cons l ls ih => exact ih l.isEmpty

theorem squeeze_behind_gap (gap : Bool) (ls ms : List (List α)) :
    squeeze gap (ls ++ [] :: ms) = squeeze gap (ls ++ [[]]) ++ squeeze true ms := by
  rw [← List.singleton_append, ← List.append_assoc, squeeze_append, endsInGap_append]
  rfl

theorem squeeze_of_ne_nil {ls : List (List α)} (h : ∀ l ∈ ls, l ≠ []) (gap : Bool) :
    squeeze gap ls = ls := by
  induction ls generalizing gap with
  | nil => rfl
  | cons l ls ih =>
    obtain ⟨hl, hls⟩ := List.forall_mem_cons.mp h
    have he : l.isEmpty = false := by simpa using hl
    rw [squeeze_cons, he, Bool.and_false, if_neg (by simp), ih hls, List.singleton_append]

theorem squeeze_empties {ls : List (List α)} (h : ∀ l ∈ ls, l = []) (ms : List (List α)) :
    squeeze true (ls ++ ms) = squeeze true ms := by
  induction ls with
  | nil => rfl
  | cons l ls ih =>
    obtain ⟨rfl, hls⟩ := List.forall_mem_cons.mp h
    exact ih hls

/-- A map of lines under which empty lines stay empty, and no others become so. -/
theorem squeeze_map {f : List α → List β} (gap : Bool) {ls : List (List α)}
    (h : ∀ l ∈ ls, f l = [] ↔ l = []) : squeeze gap (ls.map f) = (squeeze gap ls).map f := by
  induction ls generalizing gap with
  | nil => rfl
  | cons l ls ih =>
    obtain ⟨hl, hls⟩ := List.forall_mem_cons.mp h
    have he : (f l).isEmpty = l.isEmpty := by
      rw [Bool.eq_iff_iff, List.isEmpty_iff, List.isEmpty_iff]
      exact hl
    rw [List.map_cons, squeeze_cons, squeeze_cons, he, ih _ hls]
    cases gap && l.isEmpty <;> simp

theorem mem_of_mem_squeeze {gap : Bool} {l : List α} {ls : List (List α)}
    (h : l ∈ squeeze gap ls) : l ∈ ls := by
  induction ls generalizing gap with
  | nil => exact h
  | cons m ls ih =>
    rw [squeeze_cons, List.mem_append] at h
    rcases h with h | h
    · cases hg : gap && m.isEmpty <;> simp_all
    · exact List.mem_cons_of_mem m (ih h)

theorem mem_squeeze_of_mem (gap : Bool) {l : List α} {ls : List (List α)} (h : l ∈ ls)
    (hl : l ≠ []) : l ∈ squeeze gap ls := by
  induction ls generalizing gap with
  | nil => exact h
  | cons m ls ih =>
    rw [squeeze_cons, List.mem_append]
    rcases List.mem_cons.mp h with rfl | h
    · simp [hl]
    · exact .inr (ih _ h)

end Squeeze

/-! ## Line breaks -/

theorem capBreaks_append {k : Nat} {l : Text} (hl : '\n' ∉ l) (hne : l ≠ []) (s : Text) :
    capBreaks k (l ++ '\n' :: s) = l ++ '\n' :: capBreaks 1 s := by
  induction l generalizing k with
  | nil => exact absurd rfl hne
  | cons c l ih =>
    rw [List.mem_cons, not_or] at hl
    rw [List.cons_append, capBreaks, if_neg (Ne.symm hl.1)]
    cases l with
    | nil => simp [capBreaks]
    | cons d l => rw [ih hl.2 (by simp)]; rfl

/-- After one line break, or after two of them. -/
theorem capBreaks_unlines {ls : List Text} (h : ∀ l ∈ ls, '\n' ∉ l) (gap : Bool) :
    capBreaks (if gap then 2 else 1) (unlines ls) = unlines (squeeze gap ls) := by
  fun_induction squeeze gap ls with
  | case1 gap => rfl
  | case2 ls ih =>
    have hls := (List.forall_mem_cons.mp h).2
    rw [unlines_cons, List.nil_append, if_pos rfl, capBreaks, if_pos rfl, if_neg (by omega)]
    exact ih hls
  | case3 ls ih =>
    have hls := (List.forall_mem_cons.mp h).2
    rw [unlines_cons, unlines_cons, List.nil_append, List.nil_append, capBreaks, if_pos rfl,
      if_pos (by simp)]
    exact congrArg _ (ih hls)
  | case4 gap c l ls ih =>
    obtain ⟨hl, hls⟩ := List.forall_mem_cons.mp h
    rw [unlines_cons, unlines_cons, capBreaks_append hl (by simp)]
    exact congrArg _ (congrArg _ (ih hls))

theorem unlines_squeeze {ls : List Text} (h : ∀ l ∈ ls, '\n' ∉ l) (k : Nat) :
    dropBreaks (capBreaks k (unlines ls)) = unlines (squeeze true ls) := by
  induction ls generalizing k with
  | nil => rfl
  | cons l ls ih =>
    obtain ⟨hl, hls⟩ := List.forall_mem_cons.mp h
    cases l with
    | nil =>
      rw [unlines_cons, List.nil_append, capBreaks, if_pos rfl, squeeze]
      by_cases hk : k < 2
      · rw [if_pos hk, dropBreaks, List.dropWhile_cons_of_pos rfl]
        exact ih hls (k + 1)
      · rw [if_neg hk]
        exact ih hls k
    | cons c l =>
      have hc : c ≠ '\n' := fun hc => hl (by simp [hc])
      rw [unlines_cons, capBreaks_append hl (by simp), squeeze, unlines_cons,
        ← capBreaks_unlines hls false, List.cons_append, dropBreaks,
        List.dropWhile_cons_of_neg (by simpa using hc)]
      rfl

/-! ## The end -/

section Trim
variable {α : Type} (strip : List α → List α)

/-- `strip` tells what is left of the last line that has something left. -/
def trimEnd : List (List α) → List (List α)
  | [] => []
  | l :: ls =>
    if trimEnd ls = [] then (if strip l = [] then [] else [strip l]) else l :: trimEnd ls

theorem trimEnd_append (ls ms : List (List α)) :
    trimEnd strip (ls ++ ms) =
      if trimEnd strip ms = [] then trimEnd strip ls else ls ++ trimEnd strip ms := by
  induction ls with
  | nil => by_cases h : trimEnd strip ms = [] <;> simp [h, trimEnd]
  | cons l ls ih =>
    rw [List.cons_append, trimEnd, ih]
    by_cases h : trimEnd strip ms = []
    · rw [if_pos h, if_pos h, trimEnd]
    · simp [h]

theorem trimEnd_eq_nil_iff (ls : List (List α)) :
    trimEnd strip ls = [] ↔ ∀ l ∈ ls, strip l = [] := by
  induction ls with
  | nil => simp [trimEnd]
  | cons l ls ih =>
    rw [trimEnd, List.forall_mem_cons, ← ih]
    by_cases h : trimEnd strip ls = []
    · by_cases hl : strip l = [] <;> simp [h, hl]
    · simp [h]

variable {strip}

theorem mem_trimEnd {l : List α} {ls : List (List α)} (h : l ∈ trimEnd strip ls) :
    l ∈ ls ∨ ∃ m ∈ ls, l = strip m := by
  induction ls with
  | nil => exact .inl h
  | cons k ls ih =>
    rw [trimEnd] at h
    by_cases hls : trimEnd strip ls = []
    · rw [if_pos hls] at h
      by_cases hk : strip k = []
      · rw [if_pos hk] at h
        cases h
      · rw [if_neg hk] at h
        exact .inr ⟨k, by simp, List.mem_singleton.mp h⟩
    · rw [if_neg hls] at h
      rcases List.mem_cons.mp h with rfl | h
      · exact .inl (by simp)
      · rcases ih h with h | ⟨m, hm, rfl⟩
        · exact .inl (List.mem_cons_of_mem k h)
        · exact .inr ⟨m, List.mem_cons_of_mem k hm, rfl⟩

theorem trimEnd_of_flush {ls : List (List α)} (h : ∀ l ∈ ls, strip l = l ∧ l ≠ []) :
    trimEnd strip ls = ls := by
  induction ls with
  | nil => rfl
  | cons l ls ih =>
    obtain ⟨⟨hl, hne⟩, hls⟩ := List.forall_mem_cons.mp h
    rw [trimEnd, ih hls, hl, if_neg hne]
    by_cases hn : ls = []
    · rw [if_pos hn, hn]
    · rw [if_neg hn]

theorem trimEnd_map {f : List α → List α} (hf : ∀ l, strip (f l) = f (strip l))
    (hn : ∀ l, f l = [] ↔ l = []) (ls : List (List α)) :
    trimEnd strip (ls.map f) = (trimEnd strip ls).map f := by
  induction ls with
  | nil => rfl
  | cons l ls ih =>
    rw [List.map_cons, trimEnd, trimEnd, ih]
    by_cases h : trimEnd strip ls = []
    · by_cases hl : strip l = []
      · simp [h, hl, hf, (hn _).mpr]
      · simp [h, hl, hf, hn]
    · simp [h]

variable (hs : strip [] = [])
include hs

theorem trimEnd_squeeze (gap : Bool) (ls : List (List α)) :
    trimEnd strip (squeeze gap ls) = squeeze gap (trimEnd strip ls) := by
  induction ls generalizing gap with
  | nil => rfl
  | cons l ls ih =>
    -- nothing is left of the lines behind, before and after empty ones have been dropped
    have hn : trimEnd strip (squeeze l.isEmpty ls) = [] ↔ trimEnd strip ls = [] := by
      simp only [trimEnd_eq_nil_iff]
      refine ⟨fun h m hm => ?_, fun h m hm => h m (mem_of_mem_squeeze hm)⟩
      by_cases hm' : m = []
      · rw [hm', hs]
      · exact h m (mem_squeeze_of_mem _ hm hm')
    rw [squeeze_cons, trimEnd_append, trimEnd]
    by_cases h : trimEnd strip ls = []
    · rw [if_pos (hn.mpr h), if_pos h]
      cases l with
      | nil => cases gap <;> simp [trimEnd, hs, squeeze]
      | cons c l =>
        cases hc : strip (c :: l) <;> simp [trimEnd, squeeze, hc]
    · rw [if_neg (fun h' => h (hn.mp h')), if_neg h, ih, squeeze_cons]

theorem trimEnd_squeeze_empty (gap : Bool) (ls : List (List α)) :
    trimEnd strip (squeeze gap (ls ++ [[]])) = trimEnd strip (squeeze gap ls) := by
  have hlast : ∀ gap : Bool, trimEnd strip (squeeze gap [[]]) = [] := by
    intro gap
    cases gap
    · simp [squeeze, trimEnd, hs]
    · rfl
  rw [squeeze_append, trimEnd_append, if_pos (hlast _)]

end Trim

theorem stripRight_append_break (l s : Text) :
    stripRight (l ++ '\n' :: s) =
      if stripRight s = [] then stripRight l else l ++ '\n' :: stripRight s := by
  have hb : ∀ c ∈ ['\n'], isBlank c := by decide
  rw [List.append_cons, stripRight_append, stripRight_append_blanks l hb]
  by_cases h : stripRight s = [] <;> simp [h]

theorem stripRight_unlines_eq_nil_iff (ls : List Text) :
    stripRight (unlines ls) = [] ↔ trimEnd stripRight ls = [] := by
  induction ls with
  | nil => simp [trimEnd, stripRight]
  | cons l ls ih =>
    rw [unlines_cons, stripRight_append_break, trimEnd]
    by_cases h : trimEnd stripRight ls = []
    · rw [if_pos (ih.mpr h), if_pos h]
      by_cases hl : stripRight l = [] <;> simp [hl]
    · rw [if_neg (fun hs => h (ih.mp hs)), if_neg h]
      simp

theorem stripRight_unlines (ls : List Text) (h : trimEnd stripRight ls ≠ []) :
    stripRight (unlines ls) ++ ['\n'] = unlines (trimEnd stripRight ls) := by
  induction ls with
  | nil => exact absurd rfl h
  | cons l ls ih =>
    rw [unlines_cons, stripRight_append_break]
    by_cases hls : trimEnd stripRight ls = []
    · rw [trimEnd, if_pos hls] at h ⊢
      have hl : stripRight l ≠ [] := fun hl => h (if_pos hl)
      rw [if_neg hl, if_pos ((stripRight_unlines_eq_nil_iff ls).mpr hls)]
      simp
    · have hs : stripRight (unlines ls) ≠ [] :=
        fun hs => hls ((stripRight_unlines_eq_nil_iff ls).mp hs)
      rw [trimEnd, if_neg hls, if_neg hs, unlines_cons, ← ih hls]
      simp

end ChordSheet
