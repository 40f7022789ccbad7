import ChordSheet.Lexeme
import ChordSheet.Proofs.Text.Breaks

/-! What the lexemes of a text are, told without the way in which they are found.

* `Lexeme.Formed`, `Lexeme.Splits`: lexemes that spell a text, each as long as it can be.
* `Lexeme.exists_split`, `Lexeme.Splits.split_eq`: a text has one such list, and splitting finds it.
* `Lexeme.scan_iff`: so does scanning, once the line breaks of the text are all of one kind. -/
namespace ChordSheet.Lexeme
set_option autoImplicit false

/-- The mark that the text is at its end. -/
def atEnd : Lexeme := ⟨.eof, []⟩

/-- A delimiter is a lexeme of its own; any other has something in it, and no delimiter. -/
inductive Formed : Lexeme → Prop
  | delimiter {c : Char} {k : Kind} (hc : Kind.ofDelimiter? c = some k) : Formed ⟨k, [c]⟩
  | literal {l : Text} (hne : l ≠ []) (hl : ∀ c ∈ l, Kind.ofDelimiter? c = none) :
      Formed ⟨.literal, l⟩

/-- The lexemes of a text but for its end. -/
structure Splits (s : Text) (xs : List Lexeme) : Prop where
  spelled : xs.flatMap (·.text) = s
  formed : ∀ x ∈ xs, Formed x
  maximal : xs.IsChain fun x y => x.kind = .literal → y.kind ≠ .literal

theorem kind_of_ofDelimiter? {c : Char} {k : Kind} (h : Kind.ofDelimiter? c = some k) :
    k ≠ .eof ∧ k ≠ .literal := by
  unfold Kind.ofDelimiter? at h
  split at h <;> cases h <;> decide

theorem Formed.kind_ne_eof {x : Lexeme} (h : Formed x) : x.kind ≠ .eof := by
  cases h with
  | delimiter hc => exact (kind_of_ofDelimiter? hc).1
  | literal => exact Kind.noConfusion

/-! ## Lexemes that are found -/

theorem join_of_ne_literal (c : Char) {x : Lexeme} (hx : x.kind ≠ .literal) (xs : List Lexeme) :
    join c (x :: xs) = ⟨.literal, [c]⟩ :: x :: xs :=
  join.eq_2 c (x :: xs) fun l ys h => hx (by rw [(List.cons.inj h).1])

section Splits
variable {s : Text} {xs : List Lexeme}

theorem Splits.cons (h : Splits s xs) {x : Lexeme} (hx : Formed x)
    (hm : x.kind = .literal → ∀ y ∈ xs.head?, y.kind ≠ .literal) :
    Splits (x.text ++ s) (x :: xs) where
  spelled := by rw [List.flatMap_cons, h.spelled]
  formed := List.forall_mem_cons.mpr ⟨hx, h.formed⟩
  maximal := h.maximal.cons fun y hy hk => hm hk y hy

theorem Splits.tail {x : Lexeme} (h : Splits s (x :: xs)) :
    Splits (xs.flatMap (·.text)) xs :=
  ⟨rfl, fun y hy => h.formed y (List.mem_cons_of_mem x hy), h.maximal.tail⟩

/-- One more character at the start, which is no delimiter. -/
theorem Splits.join (h : Splits s xs) {c : Char} (hc : Kind.ofDelimiter? c = none) :
    ∃ ys, Lexeme.join c (xs ++ [atEnd]) = ys ++ [atEnd] ∧ Splits (c :: s) ys := by
  have hone : Formed ⟨.literal, [c]⟩ := .literal (by simp) (by simpa using hc)
  cases xs with
  | nil => exact ⟨_, rfl, h.cons hone (by simp)⟩
  | cons x xs =>
    have hs := h.spelled
    rw [List.flatMap_cons] at hs
    cases h.formed x List.mem_cons_self with
    | @delimiter d k hd =>
      have hk := (kind_of_ofDelimiter? hd).2
      have hjoin : Lexeme.join c (⟨k, [d]⟩ :: (xs ++ [atEnd])) =
          ⟨.literal, [c]⟩ :: ⟨k, [d]⟩ :: (xs ++ [atEnd]) := join_of_ne_literal c hk _
      refine ⟨⟨.literal, [c]⟩ :: ⟨k, [d]⟩ :: xs, hjoin, h.cons hone ?_⟩
      rintro - y ⟨⟩
      exact hk
    | @literal l hne hl =>
      have hlong : Formed ⟨.literal, c :: l⟩ :=
        .literal (by simp) (List.forall_mem_cons.mpr ⟨hc, hl⟩)
      have hnext := List.isChain_cons.mp h.maximal
      refine ⟨⟨.literal, c :: l⟩ :: xs, rfl, ?_⟩
      rw [← hs]
      exact h.tail.cons hlong fun hk y hy => hnext.1 y hy hk

end Splits

theorem exists_split (s : Text) : ∃ xs, split s = xs ++ [atEnd] ∧ Splits s xs := by
  fun_induction split s with
  | case1 => exact ⟨[], rfl, rfl, nofun, .nil⟩
  | case2 c s k hc ih =>
    obtain ⟨xs, hxs, hs⟩ := ih
    have hk := (kind_of_ofDelimiter? hc).2
    exact ⟨⟨k, [c]⟩ :: xs, by rw [hxs, List.cons_append], hs.cons (.delimiter hc) fun h => absurd h hk⟩
  | case3 c s hc ih =>
    obtain ⟨xs, hxs, hs⟩ := ih
    rw [hxs]
    exact hs.join hc

/-! ## There are no others -/

/-- A literal ends where the next lexeme is none. -/
theorem split_literal {l s : Text} (hne : l ≠ []) (hl : ∀ c ∈ l, Kind.ofDelimiter? c = none)
    {x : Lexeme} {xs : List Lexeme} (hs : split s = x :: xs) (hx : x.kind ≠ .literal) :
    split (l ++ s) = ⟨.literal, l⟩ :: x :: xs := by
  induction l with
  | nil => exact absurd rfl hne
  | cons c l ih =>
    obtain ⟨hc, hl⟩ := List.forall_mem_cons.mp hl
    rw [List.cons_append, split, hc]
    cases l with
    | nil => rw [List.nil_append, hs]; exact join_of_ne_literal c hx xs
    | cons d l => rw [ih (by simp) hl]; rfl

theorem Splits.split_eq {s : Text} {xs : List Lexeme} (h : Splits s xs) :
    split s = xs ++ [atEnd] := by
  induction xs generalizing s with
  | nil =>
    rw [← h.spelled]
    rfl
  | cons x xs ih =>
    have hrest := ih h.tail
    rw [← h.spelled, List.flatMap_cons]
    cases h.formed x List.mem_cons_self with
    | delimiter hc => rw [List.singleton_append, split, hc, hrest, List.cons_append]
    | literal hne hl =>
      cases xs with
      | nil => exact split_literal hne hl hrest (by decide)
      | cons y xs =>
        have hy := (List.isChain_cons_cons.mp h.maximal).1 rfl
        exact split_literal hne hl hrest hy

/-- Lexemes are those of a text if and only if they spell the text with its line breaks made line
feeds, have the end of the text last and nowhere else, and are each as long as they can be. The line
breaks are found in one reading: each one becomes a line feed, a carriage return with the line feed
behind it being one, which is what replacing first the pairs and then the carriage returns does too.
After that there are no others. -/
theorem scan_iff (s : Text) :
    (∀ xs, xs = scan s ↔ ∃ ys, xs = ys ++ [atEnd] ∧ (∀ y ∈ ys, y.kind ≠ .eof) ∧
      Splits (normalizeBreaks s) ys) ∧
    (∃ ps, (∀ qs, Pieces s qs ↔ qs = ps) ∧ normalizeBreaks s = ps.map Piece.normal) ∧
    normalizeBreaks s = replaceAll ['\r'] ['\n'] (replaceAll ['\r', '\n'] ['\n'] s) ∧
    '\r' ∉ normalizeBreaks s ∧ normalizeBreaks (normalizeBreaks s) = normalizeBreaks s := by
  refine ⟨fun xs => ⟨?_, ?_⟩, ⟨piecesOf s, pieces_iff s, normalizeBreaks_eq_map s⟩,
    normalizeBreaks_eq_replaceAll s, normalizeBreaks_ne_return,
    normalizeBreaks_of_not_mem normalizeBreaks_ne_return⟩
  · rintro rfl
    obtain ⟨ys, hys, hs⟩ := exists_split (normalizeBreaks s)
    exact ⟨ys, hys, fun y hy => (hs.formed y hy).kind_ne_eof, hs⟩
  · rintro ⟨ys, rfl, -, hs⟩
    exact hs.split_eq.symm

example : scan "# A\r\n\r[D".toList =
    [⟨.headerStart, ['#']⟩, ⟨.literal, " A".toList⟩, ⟨.newline, ['\n']⟩, ⟨.newline, ['\n']⟩,
      ⟨.chordStart, ['[']⟩, ⟨.literal, ['D']⟩, atEnd] := by decide

end ChordSheet.Lexeme
