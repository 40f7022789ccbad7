import ChordSheet.Proofs.Sheet.NormalForm
import Mathlib.Data.List.Forall2

/-! A sheet whose chords are moved, and the same sheet without that: the chords are all that
differs between them.

* `Token.Alike`: the same token, or two chords.
* `Alike.filterMap_eq`, `Alike.length_chords`: what tokens that are alike have in common.
* `Sheet.linesOf_print_rewrite`: chords that are rewritten change nothing around them.
* `Sheet.tokens_transposed`: a sheet and its transposition have tokens that are alike. -/
namespace ChordSheet
set_option autoImplicit false

/-! ## Tokens that are alike -/

/-- The same token, or two chords. -/
inductive Token.Alike : Token → Token → Prop
  | same (t : Token) : Alike t t
  | chord (x y : Text) : Alike (.chord x) (.chord y)

theorem Token.alike_rewrite (v w : Text → Text) (t : Token) :
    Alike (t.rewrite v) (t.rewrite w) := by
  cases t with
  | chord x => exact .chord (v x) (w x)
  | _ => exact .same _

namespace Alike
variable {ts us : List Token} (h : List.Forall₂ Token.Alike ts us)
include h

/-- What is not looked for in chords is found alike. -/
theorem filterMap_eq {α : Type} {g : Token → Option α} (hg : ∀ x, g (.chord x) = none) :
    ts.filterMap g = us.filterMap g := by
  induction h with
  | nil => rfl
  | cons ht hts ih =>
    cases ht with
    | same => rw [List.filterMap_cons, List.filterMap_cons, ih]
    | chord x y => rw [List.filterMap_cons_none (hg x), List.filterMap_cons_none (hg y), ih]

theorem length_chords :
    (ts.filterMap Token.chord?).length = (us.filterMap Token.chord?).length := by
  induction h with
  | nil => rfl
  | @cons t u ts us ht _ ih =>
    cases ht with
    | same =>
      rw [List.filterMap_cons, List.filterMap_cons]
      cases t.chord? with
      | none => exact ih
      | some x => exact congrArg Nat.succ ih
    | chord x y => exact congrArg Nat.succ ih

end Alike

/-! ## Lines with other chords -/

namespace Line

theorem alike_rewrite (v w : Text → Text) (l : List Token) :
    List.Forall₂ Token.Alike (rewrite v l) (rewrite w l) := by
  rw [rewrite, rewrite, List.forall₂_map_left_iff, List.forall₂_map_right_iff, List.forall₂_same]
  exact fun t _ => t.alike_rewrite v w

theorem alike_map_rewrite (v w : Text → Text) (ls : List (List Token)) :
    List.Forall₂ (List.Forall₂ Token.Alike) (ls.map (rewrite v)) (ls.map (rewrite w)) := by
  rw [List.forall₂_map_left_iff, List.forall₂_map_right_iff, List.forall₂_same]
  exact fun l _ => alike_rewrite v w l

theorem rewrite_append (w : Text → Text) (ts us : List Token) :
    rewrite w (ts ++ us) = rewrite w ts ++ rewrite w us := List.map_append

theorem intercalate_rewrite (w : Text → Text) (ls : List (List Token)) :
    [.newline].intercalate (ls.map (rewrite w)) = rewrite w ([.newline].intercalate ls) := by
  induction ls with
  | nil => rfl
  | cons l ls ih =>
    cases ls with
    | nil => rw [List.map_singleton, List.intercalate_singleton, List.intercalate_singleton]
    | cons k ls =>
      rw [List.map_cons, List.map_cons, List.intercalate_cons_cons, ← List.map_cons, ih,
        List.intercalate_cons_cons, rewrite_append, rewrite_append]
      rfl

end Line

namespace Sheet

open Line (rewrite trim Tame)

theorem closed_rewrite (w : Text → Text) (ls : List (List Token)) :
    closed (ls.map (rewrite w)) = (closed ls).map (rewrite w) := by
  unfold closed
  by_cases hn : ls = []
  · rw [hn]
    rfl
  · rw [if_neg hn, if_neg (fun h => hn (List.map_eq_nil_iff.mp h)), List.map_append]
    rfl

/-- Chords that are rewritten are found in their places, among the same lines as before: neither
the blanks at the end nor the empty lines depend on them. -/
theorem linesOf_print_rewrite {w : Text → Text} (hw : Tame w) {ls : List (List Token)}
    (h : ∀ l ∈ ls, Readable l) :
    linesOf (print (ls.map (rewrite w))) = (linesOf (print ls)).map (rewrite w) := by
  have hempty : ∀ l : List Token, rewrite w l = [] ↔ l = [] := fun l => List.map_eq_nil_iff
  rw [linesOf_print_eq (Line.readable_map_rewrite hw h), linesOf_print_eq h,
    trimEnd_map (Line.trim_rewrite w) hempty, squeeze_map true (fun l _ => hempty l),
    closed_rewrite]

/-! ## Transposed sheets -/

section Transposed
variable (s : Text) (naming : Naming)

/-- The sheet of a text with the chord texts as they stand there. -/
def plain : Text := print (page (metadataIn (linesOf s)) naming (linesOf s))

theorem linesOf_transposed (n : Int) :
    linesOf (transposed s n naming) = (linesOf (plain s naming)).map
      (rewrite (symbol (metadataIn (linesOf s)).naming naming (Chord.moved n))) := by
  have hread := readable_linesOf s
  have hpage := readable_page (sound_metadataIn hread) naming hread
  have htame := tame_symbol (metadataIn (linesOf s)).naming naming n
  rw [transposed, ← page_rewrite, linesOf_print_rewrite htame hpage, plain]

theorem tokens_transposed_eq (n : Int) :
    ∃ t, tokenize (transposed s n naming) = .ok t ∧ t.tokens =
      rewrite (symbol (metadataIn (linesOf s)).naming naming (Chord.moved n))
        ([.newline].intercalate (linesOf (plain s naming))) := by
  obtain ⟨t, ht, htokens⟩ := tokens_linesOf (transposed s n naming)
  refine ⟨t, ht, ?_⟩
  rw [htokens, linesOf_transposed, Line.intercalate_rewrite]

/-- A sheet and its transposition have as many tokens, on as many lines, which are the same but
for the texts of chords; so they have the same headlines, lyrics, quotes and header, and as many
chords. -/
theorem tokens_transposed (n : Int) :
    ∃ u v t k, transposeAndConvert s n none (sheetFormat naming) = .ok u ∧
      convert s none (sheetFormat naming) = .ok v ∧ tokenize u = .ok t ∧ tokenize v = .ok k ∧
      List.Forall₂ Token.Alike t.tokens k.tokens ∧
      List.Forall₂ (List.Forall₂ Token.Alike) (linesOf u) (linesOf v) ∧
      (∀ {α : Type} (g : Token → Option α), (∀ x, g (.chord x) = none) →
        t.tokens.filterMap g = k.tokens.filterMap g) ∧
      (t.tokens.filterMap Token.chord?).length = (k.tokens.filterMap Token.chord?).length := by
  obtain ⟨t, ht, htokens⟩ := tokens_transposed_eq s naming n
  obtain ⟨k, hk, hktokens⟩ := tokens_transposed_eq s naming 0
  have halike : List.Forall₂ Token.Alike t.tokens k.tokens := by
    rw [htokens, hktokens]
    exact Line.alike_rewrite _ _ _
  have hlines : List.Forall₂ (List.Forall₂ Token.Alike) (linesOf (transposed s n naming))
      (linesOf (transposed s 0 naming)) := by
    rw [linesOf_transposed, linesOf_transposed]
    exact Line.alike_map_rewrite _ _ _
  exact ⟨_, _, t, k, transposeAndConvert_eq s n naming, convert_eq s naming, ht, hk, halike,
    hlines, fun g hg => Alike.filterMap_eq halike hg, Alike.length_chords halike⟩

end Transposed
end Sheet
end ChordSheet
