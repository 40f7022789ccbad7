import ChordSheet.Document.OfTokens
import ChordSheet.Proofs.Grammar.Trimmed

/-! Lines of tokens as they are arranged in the body of a sheet.

* `arrange`: sections are set off by an empty line; titles and entries leave none of their own.
* `squeeze_arrange`: rows of empty lines do not matter to what is arranged.
* `squeeze_arrange_arrange`: what has been arranged stays as it is when it is arranged again.
* `trimmed_arrange`: blanks at the end do not matter either. -/
namespace ChordSheet
set_option autoImplicit false

namespace Line

/-- The head of the section that is open behind a line. -/
def enter (head : Option Headline) : List Token → Option Headline
  | .headline h :: _ => if opensSection head h then some h else head
  | _ => head

/-- The lines that a line leaves. -/
def lay (head : Option Headline) : List Token → List (List Token)
  | .headline h :: ts =>
    (if opensSection head h then [[]] else []) ++ if h.level = 1 then [] else [.headline h :: ts]
  | .entry _ :: _ => [[]]
  | ts => [ts]

end Line

open Line

def arrange (head : Option Headline) : List (List Token) → List (List Token)
  | [] => []
  | l :: ls => lay head l ++ arrange (enter head l) ls

def enterAll (head : Option Headline) (ls : List (List Token)) : Option Headline :=
  ls.foldl enter head

theorem arrange_append (head : Option Headline) (ls ms : List (List Token)) :
    arrange head (ls ++ ms) = arrange head ls ++ arrange (enterAll head ls) ms := by
  induction ls generalizing head with
  | nil => rfl
  | cons l ls ih =>
    rw [List.cons_append, arrange, ih, arrange, List.append_assoc]
    rfl

/-! ## Rewritten and readable lines -/

theorem enter_rewrite (w : Text → Text) (head : Option Headline) (l : List Token) :
    enter head (rewrite w l) = enter head l := by
  cases l with
  | nil => rfl
  | cons t ts => cases t <;> rfl

theorem lay_rewrite (w : Text → Text) (head : Option Headline) (l : List Token) :
    lay head (rewrite w l) = (lay head l).map (rewrite w) := by
  cases l with
  | nil => rfl
  | cons t ts =>
    cases t with
    | headline h =>
      have hr : rewrite w (.headline h :: ts) = .headline h :: rewrite w ts := rfl
      rw [hr, lay, lay]
      by_cases ho : opensSection head h <;> by_cases hl : h.level = 1 <;>
        simp [ho, hl, rewrite, Token.rewrite]
    | _ => rfl

theorem arrange_rewrite (w : Text → Text) (head : Option Headline) (ls : List (List Token)) :
    arrange head (ls.map (rewrite w)) = (arrange head ls).map (rewrite w) := by
  induction ls generalizing head with
  | nil => rfl
  | cons l ls ih =>
    rw [List.map_cons, arrange, arrange, lay_rewrite, enter_rewrite, ih, List.map_append]

theorem mem_lay {head : Option Headline} {l m : List Token} (h : m ∈ lay head l) :
    m = [] ∨ m = l := by
  cases l with
  | nil => exact .inl (by simpa [lay] using h)
  | cons t ts =>
    cases t with
    | headline hd =>
      rw [lay, List.mem_append] at h
      rcases h with h | h
      · by_cases ho : opensSection head hd <;> simp_all
      · by_cases hl : hd.level = 1 <;> simp_all
    | entry e => exact .inl (by simpa [lay] using h)
    | _ => exact .inr (by simpa [lay] using h)

theorem readable_arrange {ls : List (List Token)} (h : ∀ l ∈ ls, Readable l)
    (head : Option Headline) : ∀ l ∈ arrange head ls, Readable l := by
  induction ls generalizing head with
  | nil => simp [arrange]
  | cons l ls ih =>
    obtain ⟨hl, hls⟩ := List.forall_mem_cons.mp h
    intro m hm
    rw [arrange, List.mem_append] at hm
    rcases hm with hm | hm
    · rcases mem_lay hm with rfl | rfl
      · exact .nil
      · exact hl
    · exact ih hls _ m hm

/-! ## Rows of empty lines -/

theorem squeeze_arrange {gap inner : Bool} (hg : inner = true → gap = true)
    (head : Option Headline) (ls : List (List Token)) :
    squeeze gap (arrange head (squeeze inner ls)) = squeeze gap (arrange head ls) := by
  induction ls generalizing gap inner head with
  | nil => rfl
  | cons l ls ih =>
    by_cases hl : l = []
    · subst hl
      have h : squeeze true (arrange head (squeeze true ls)) = squeeze true (arrange head ls) :=
        ih (fun _ => rfl) head
      cases inner with
      | false =>
        show squeeze gap ([] :: arrange head (squeeze true ls)) =
          squeeze gap ([] :: arrange head ls)
        rw [squeeze_cons, squeeze_cons]
        exact congrArg _ h
      | true =>
        obtain rfl := hg rfl
        exact h
    · have he : l.isEmpty = false := by simpa using hl
      rw [squeeze_cons, he, Bool.and_false, if_neg (by simp), List.singleton_append, arrange,
        arrange, squeeze_append, squeeze_append, ih (by simp)]

/-! ## Arranging twice -/

/-- An open section lies inside an outer one that is no deeper, unless it is a title. -/
def Inside (own outer : Option Headline) : Prop :=
  ∀ h, own = some h → h.level ≠ 1 → ∃ g, outer = some g ∧ g.level ≠ 1 ∧ g.level ≤ h.level

theorem inside_none (outer : Option Headline) : Inside none outer := fun _ h => by cases h

theorem opensSection_some (own h : Headline) :
    opensSection (some own) h = true ↔ own.level = 1 ∨ h.level ≤ own.level := by
  simp [opensSection]

/-- What opens no section inside opens none outside. -/
theorem not_opens_outer {own outer : Option Headline} (hi : Inside own outer) {h : Headline}
    (ho : ¬ opensSection own h) : ¬ opensSection outer h ∧ own ≠ none := by
  cases own with
  | none => exact absurd rfl ho
  | some k =>
    rw [opensSection_some, not_or] at ho
    obtain ⟨g, rfl, hg, hle⟩ := hi k rfl ho.1
    rw [opensSection_some]
    refine ⟨?_, by simp⟩
    omega

theorem inside_opened {h : Headline} (hl : h.level ≠ 1) (outer : Option Headline) :
    Inside (some h) (if opensSection outer h then some h else outer) := by
  rintro _ ⟨⟩ -
  by_cases ho : opensSection outer h
  · exact ⟨h, if_pos ho, hl, Nat.le_refl _⟩
  · cases outer with
    | none => exact absurd rfl ho
    | some g =>
      have hg := ho
      rw [opensSection_some, not_or] at hg
      exact ⟨g, if_neg ho, hg.1, by omega⟩

theorem inside_title {h : Headline} (hl : h.level = 1) (outer : Option Headline) :
    Inside (some h) outer := by
  rintro _ ⟨⟩ hne
  exact absurd hl hne

/-- Arranging what a line has left, behind an outer section. -/
theorem squeeze_arrange_lay {own outer : Option Headline} (hi : Inside own outer) (gap : Bool)
    (l : List Token) :
    squeeze gap (arrange outer (lay own l)) = squeeze gap (lay own l) ∧
      endsInGap gap (arrange outer (lay own l)) = endsInGap gap (lay own l) ∧
      Inside (enter own l) (enterAll outer (lay own l)) := by
  cases l with
  | nil => exact ⟨rfl, rfl, hi⟩
  | cons t ts =>
    cases t with
    | headline h =>
      by_cases ho : opensSection own h
      · have he : enter own (.headline h :: ts) = some h := if_pos ho
        by_cases hl : h.level = 1
        · have hy : lay own (.headline h :: ts) = [[]] := by simp [lay, ho, hl]
          rw [he, hy]
          exact ⟨rfl, rfl, inside_title hl outer⟩
        · have hy : lay own (.headline h :: ts) = [[], .headline h :: ts] := by simp [lay, ho, hl]
          have ha : arrange outer [[], .headline h :: ts] =
              [] :: ((if opensSection outer h then [[]] else []) ++ [.headline h :: ts]) := by
            simp [arrange, lay, enter, hl]
            rfl
          rw [he, hy, ha]
          -- a second empty line is dropped again
          refine ⟨?_, ?_, inside_opened hl outer⟩
          · by_cases hg : opensSection outer h <;> simp [squeeze_cons, hg]
          · by_cases hg : opensSection outer h <;> simp [endsInGap, hg]
      · have he : enter own (.headline h :: ts) = own := if_neg ho
        have hg := (not_opens_outer hi ho).1
        by_cases hl : h.level = 1
        · have hy : lay own (.headline h :: ts) = [] := by simp [lay, ho, hl]
          rw [he, hy]
          exact ⟨rfl, rfl, hi⟩
        · have hy : lay own (.headline h :: ts) = [.headline h :: ts] := by simp [lay, ho, hl]
          have ha : arrange outer [.headline h :: ts] = [.headline h :: ts] := by
            simp [arrange, lay, hg, hl]
          have hi' : Inside own (if opensSection outer h then some h else outer) := by
            rwa [if_neg hg]
          rw [he, hy, ha]
          exact ⟨rfl, rfl, hi'⟩
    | _ => exact ⟨rfl, rfl, hi⟩

/-- Arranged lines stay as they are when they are arranged behind an outer section. -/
theorem squeeze_arrange_arrange {own outer : Option Headline} (hi : Inside own outer) (gap : Bool)
    (ls : List (List Token)) :
    squeeze gap (arrange outer (arrange own ls)) = squeeze gap (arrange own ls) := by
  induction ls generalizing own outer gap with
  | nil => rfl
  | cons l ls ih =>
    obtain ⟨hs, he, hi'⟩ := squeeze_arrange_lay hi gap l
    rw [arrange, arrange_append, squeeze_append, squeeze_append, hs, he, ih hi']

/-! ## The end -/

/-- The text of lines without blanks at the end. -/
def trimmed (ls : List (List Token)) : List Text := trimEnd stripRight (ls.map write)

theorem trimmed_append (ls ms : List (List Token)) :
    trimmed (ls ++ ms) = if trimmed ms = [] then trimmed ls else ls.map write ++ trimmed ms := by
  rw [trimmed, List.map_append, trimEnd_append]
  rfl

theorem trimmed_append_congr (ls : List (List Token)) {ms ns : List (List Token)}
    (h : trimmed ms = trimmed ns) : trimmed (ls ++ ms) = trimmed (ls ++ ns) := by
  rw [trimmed_append, trimmed_append, h]

theorem trimmed_cons (l : List Token) (ls : List (List Token)) :
    trimmed (l :: ls) = if trimmed ls = [] then trimmed [l] else write l :: trimmed ls := rfl

theorem trimmed_singleton (l : List Token) :
    trimmed [l] = if stripRight (write l) = [] then [] else [stripRight (write l)] := rfl

theorem trimmed_singleton_trim {l : List Token} (h : Readable l) :
    trimmed [trim l] = trimmed [l] := by
  rw [trimmed_singleton, trimmed_singleton, stripRight_write_trim h]

theorem lay_body {ts : List Token} (h : Parts true ts) (head : Option Headline) :
    lay head ts = [ts] := by
  cases h <;> rfl

theorem trimmed_lay_trim {l : List Token} (h : Readable l) (head : Option Headline) :
    trimmed (lay head (trim l)) = trimmed (lay head l) := by
  have hl := trimmed_singleton_trim h
  cases h with
  | @headline h =>
    -- only the level decides where a headline goes
    have ho : opensSection head { h with text := stripRight h.text } = opensSection head h := rfl
    rw [trim, Token.trim, lay, lay, ho]
    apply trimmed_append_congr
    by_cases h1 : h.level = 1
    · rw [if_pos h1, if_pos h1]
    · rw [if_neg h1, if_neg h1]
      exact hl
  | quote => exact hl
  | entry => rfl
  | body hp => rw [lay_body hp, lay_body (parts_trim hp), hl]

theorem trimmed_arrange {ls : List (List Token)} (h : ∀ l ∈ ls, Readable l)
    (head : Option Headline) :
    trimmed (arrange head (trimEnd trim ls)) = trimmed (arrange head ls) := by
  induction ls generalizing head with
  | nil => rfl
  | cons l ls ih =>
    obtain ⟨hr, hls⟩ := List.forall_mem_cons.mp h
    have hl := trimmed_lay_trim hr head
    unfold trimEnd
    by_cases hn : trimEnd trim ls = []
    · have hrest : trimmed (arrange (enter head l) ls) = [] := by
        rw [← ih hls, hn]
        rfl
      have ha : arrange head (l :: ls) = lay head l ++ arrange (enter head l) ls := rfl
      rw [if_pos hn, ha, trimmed_append, if_pos hrest, ← hl]
      by_cases ht : trim l = []
      · rw [if_pos ht, ht]
        rfl
      · rw [if_neg ht, arrange, arrange, List.append_nil]
    · rw [if_neg hn, arrange, arrange]
      exact trimmed_append_congr _ (ih hls _)

theorem trimmed_trimEnd {ls : List (List Token)} (h : ∀ l ∈ ls, Readable l) :
    trimmed (trimEnd trim ls) = trimmed ls := by
  induction ls with
  | nil => rfl
  | cons l ls ih =>
    obtain ⟨hr, hrs⟩ := List.forall_mem_cons.mp h
    have hl := trimmed_singleton_trim hr
    rw [trimEnd, trimmed_cons l, ← ih hrs]
    by_cases hn : trimEnd trim ls = []
    · rw [if_pos hn, hn, if_pos (show trimmed [] = [] from rfl), ← hl]
      by_cases ht : trim l = []
      · rw [if_pos ht, ht]
        rfl
      · rw [if_neg ht]
    · rw [if_neg hn, trimmed_cons]

theorem trimmed_squeeze {ls : List (List Token)} (h : ∀ l ∈ ls, Readable l) (gap : Bool) :
    trimmed (squeeze gap ls) = squeeze gap (trimmed ls) := by
  rw [trimmed, trimmed, ← squeeze_map gap (fun l hl => write_eq_nil_iff (h l hl)),
    trimEnd_squeeze rfl]

end ChordSheet
