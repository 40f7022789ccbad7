import Mathlib.Data.List.Chain
import ChordSheet.Proofs.Text.Lines

/-! What line breaks a text has, and what becomes of them.

* `Piece`, `Pieces`: a text as line breaks and other characters, with no break in two parts.
* `pieces_iff`: a text has its pieces in one way only.
* `normalizeBreaks_eq_map`: every line break becomes one line feed, and nothing else changes.
* `replaceAll`: a text with another one in all places of a third.
* `normalizeBreaks_eq_replaceAll`: two replacements, one after the other, do the same. -/
namespace ChordSheet
set_option autoImplicit false

/-! ## Pieces -/

inductive Piece
  | crlf
  | cr
  | lf
  | other (c : Char)
  deriving DecidableEq, Repr

namespace Piece

def spell : Piece → Text
  | crlf => ['\r', '\n']
  | cr => ['\r']
  | lf => ['\n']
  | other c => [c]

def normal : Piece → Char
  | other c => c
  | _ => '\n'

def ofChar (c : Char) : Piece := if c = '\r' then cr else if c = '\n' then lf else other c

theorem spell_ofChar (c : Char) : (ofChar c).spell = [c] := by
  unfold ofChar
  split_ifs with hr hf
  · rw [hr]; rfl
  · rw [hf]; rfl
  · rfl

theorem normal_ofChar (c : Char) : (ofChar c).normal = if c = '\r' then '\n' else c := by
  unfold ofChar
  split_ifs with hr hf
  · rfl
  · rw [hf]; rfl
  · rfl

theorem eq_of_spell {c d : Char} (h : (ofChar c).spell = [d]) : c = d := by
  rw [spell_ofChar] at h
  exact List.singleton_inj.mp h

theorem not_mem_breaks {c d : Char} (h : ofChar c = other d) : d ∉ breaks := by
  unfold ofChar at h
  split_ifs at h with hr hf
  cases h
  simp [breaks, hr, hf]

theorem ofChar_other {c : Char} (hc : c ∉ breaks) : ofChar c = other c := by
  simp only [breaks, List.mem_cons, List.not_mem_nil, or_false, not_or] at hc
  rw [ofChar, if_neg hc.2, if_neg hc.1]

end Piece

/-- The pieces of a text; a carriage return with a line feed behind it is one break and not two. -/
structure Pieces (s : Text) (ps : List Piece) : Prop where
  spelled : ps.flatMap Piece.spell = s
  other : ∀ c, .other c ∈ ps → c ∉ breaks
  whole : ps.IsChain fun p q => p = .cr → q ≠ .lf

def piecesOf : Text → List Piece
  | [] => []
  | '\r' :: '\n' :: s => .crlf :: piecesOf s
  | c :: s => .ofChar c :: piecesOf s

theorem exists_of_head?_piecesOf {s : Text} (h : (piecesOf s).head? = some .lf) :
    ∃ t, s = '\n' :: t := by
  fun_cases piecesOf s with
  | case1 => cases h
  | case2 s => cases h
  | case3 c s hs =>
    rw [piecesOf.eq_3 c s hs, List.head?_cons, Option.some.injEq] at h
    exact ⟨s, by rw [Piece.eq_of_spell (congrArg Piece.spell h)]⟩

theorem pieces_piecesOf (s : Text) : Pieces s (piecesOf s) := by
  fun_induction piecesOf s with
  | case1 => exact ⟨rfl, nofun, .nil⟩
  | case2 s ih =>
    refine ⟨?_, ?_, ?_⟩
    · rw [List.flatMap_cons, ih.spelled]
      rfl
    · intro c hc
      exact ih.other c (by simpa using hc)
    · exact ih.whole.cons fun q _ h => nomatch h
  | case3 c s hs ih =>
    refine ⟨?_, ?_, ?_⟩
    · rw [List.flatMap_cons, ih.spelled, Piece.spell_ofChar]
      rfl
    · intro d hd
      rcases List.mem_cons.mp hd with hd | hd
      · exact Piece.not_mem_breaks hd.symm
      · exact ih.other d hd
    · refine ih.whole.cons ?_
      -- a line feed behind this carriage return would have been read with it
      rintro q hq hc rfl
      obtain ⟨t, rfl⟩ := exists_of_head?_piecesOf hq
      exact hs t (Piece.eq_of_spell (congrArg Piece.spell hc)) rfl

theorem Pieces.piecesOf_eq {s : Text} {ps : List Piece} (h : Pieces s ps) : piecesOf s = ps := by
  induction ps generalizing s with
  | nil =>
    rw [← h.spelled]
    rfl
  | cons p ps ih =>
    have hps : Pieces (ps.flatMap Piece.spell) ps :=
      ⟨rfl, fun c hc => h.other c (List.mem_cons_of_mem p hc), h.whole.tail⟩
    rw [← h.spelled, List.flatMap_cons]
    cases p with
    | crlf => exact congrArg _ (ih hps)
    | cr =>
      have hnext : ∀ t, ps.flatMap Piece.spell ≠ '\n' :: t := by
        intro t ht
        cases ps with
        | nil => cases ht
        | cons q ps =>
          have hq : q ≠ .lf := (List.isChain_cons_cons.mp h.whole).1 rfl
          cases q with
          | lf => exact hq rfl
          | other c =>
            have hc := h.other c (by simp)
            rw [List.flatMap_cons] at ht
            obtain rfl : c = '\n' := (List.cons.inj ht).1
            exact hc (by decide)
          | _ => exact absurd (List.cons.inj ht).1 (by decide)
      have hread := piecesOf.eq_3 '\r' (ps.flatMap Piece.spell) fun t _ ht => hnext t ht
      rw [ih hps] at hread
      exact hread
    | lf => exact congrArg _ (ih hps)
    | other c =>
      have hc := h.other c (by simp)
      have hread := piecesOf.eq_3 c (ps.flatMap Piece.spell) fun t hr _ =>
        hc (by rw [hr]; decide)
      rw [ih hps, Piece.ofChar_other hc] at hread
      exact hread

/-- A text has its pieces in one way only. -/
theorem pieces_iff (s : Text) (ps : List Piece) : Pieces s ps ↔ ps = piecesOf s :=
  ⟨fun h => h.piecesOf_eq.symm, fun h => h ▸ pieces_piecesOf s⟩

theorem normalizeBreaks_eq_map (s : Text) : normalizeBreaks s = (piecesOf s).map Piece.normal := by
  fun_induction piecesOf s with
  | case1 => rfl
  | case2 s ih => rw [normalizeBreaks, ih]; rfl
  | case3 c s hs ih => rw [normalizeBreaks.eq_3 c s hs, List.map_cons, ih, Piece.normal_ofChar]

/-! ## Replacements -/

/-- Every `old` in a text, from the left on, becomes `new`. -/
def replaceAll (old new : Text) : Text → Text
  | [] => []
  | c :: s =>
    if old.isPrefixOf (c :: s) then new ++ replaceAll old new (s.drop (old.length - 1))
    else c :: replaceAll old new s
termination_by s => s.length

theorem replaceAll_singleton (a b : Char) (s : Text) :
    replaceAll [a] [b] s = s.map fun c => if c = a then b else c := by
  induction s with
  | nil => rw [replaceAll]; rfl
  | cons c s ih =>
    rw [replaceAll, List.map_cons]
    by_cases hc : c = a
    · simp [hc, ih]
    · simp [hc, Ne.symm hc, ih]

/-- First every pair of a carriage return and a line feed, and then every carriage return that is
left, becomes a line feed. -/
theorem normalizeBreaks_eq_replaceAll (s : Text) :
    normalizeBreaks s = replaceAll ['\r'] ['\n'] (replaceAll ['\r', '\n'] ['\n'] s) := by
  rw [replaceAll_singleton]
  fun_induction normalizeBreaks s with
  | case1 => rw [replaceAll]; rfl
  | case2 s ih =>
    rw [replaceAll, if_pos (by rfl), ih]
    rfl
  | case3 c s hs ih =>
    have hpair : ¬ List.isPrefixOf ['\r', '\n'] (c :: s) := by
      intro h
      obtain ⟨t, ht⟩ := List.isPrefixOf_iff_prefix.mp h
      obtain ⟨hc, hn⟩ := List.cons.inj ht
      exact hs t hc.symm hn.symm
    rw [replaceAll, if_neg hpair, List.map_cons, ih]

end ChordSheet
