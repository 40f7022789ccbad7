import ChordSheet.Reader

/-! The grammar of lines, told line by line and without a machine.

* `Segment`, `Line.segments`: a body line is lyrics and chords in turn.
* `Line.tokens`, `Line.problems`, `Line.endProblem?`: what a line holds and what is wrong with it.
* `Line.transcript`: the tokens and the diagnostics of lines that follow each other.
* `Line.report`: the diagnostics of lines, told from their numbers alone. -/
namespace ChordSheet
set_option autoImplicit false

/-! ## Segments of a body line -/

/-- Lyrics as they are written, stray brackets and all, or a chord that may lack its end. -/
inductive Segment
  | lyrics (raw : Text)
  | chord (text : Text) (closed : Bool)
  deriving DecidableEq, Repr

namespace Segment

/-- Stray brackets are dropped, and lyrics of nothing else are no token. -/
def tokens : Segment → List Token
  | lyrics raw => match raw.filter (· != ']') with
    | [] => []
    | c :: s => [.literal (c :: s)]
  | chord text _ => [.chord text]

def lyricsProblem? : Char → Option Problem
  | ']' => some .unexpectedChordEnd
  | '#' => some .unexpectedHeaderStart
  | _ => none

/-- A sharp is welcome in a chord. -/
def chordProblem? : Char → Option Problem
  | '[' => some .nestedChord
  | '>' => some .invalidChordCharacter
  | ':' => some .invalidChordCharacter
  | '!' => some .invalidChordCharacter
  | '$' => some .invalidChordCharacter
  | _ => none

def problems : Segment → List Problem
  | lyrics raw => raw.filterMap lyricsProblem?
  | chord text _ => text.filterMap chordProblem?

def isOpen : Segment → Bool
  | lyrics _ => false
  | chord _ closed => !closed

end Segment

namespace Line

/-- What stands before the first `c`, and what stands behind it if there is one. -/
def cut (c : Char) : Text → Text × Option Text
  | [] => ([], none)
  | d :: s => if d = c then ([], some s) else (d :: (cut c s).1, (cut c s).2)

theorem cut_of_not_mem {c : Char} {s : Text} (hs : c ∉ s) : cut c s = (s, none) := by
  induction s with
  | nil => rfl
  | cons d s ih =>
    rw [List.mem_cons, not_or] at hs
    rw [cut, if_neg (Ne.symm hs.1), ih hs.2]

theorem cut_append_cons {c : Char} {s : Text} (hs : c ∉ s) (t : Text) :
    cut c (s ++ c :: t) = (s, some t) := by
  induction s with
  | nil => simp [cut]
  | cons d s ih =>
    rw [List.mem_cons, not_or] at hs
    rw [List.cons_append, cut, if_neg (Ne.symm hs.1), ih hs.2]

theorem length_of_cut {c : Char} {s a t : Text} (h : cut c s = (a, some t)) :
    t.length < s.length := by
  by_cases hc : c ∈ s
  · obtain ⟨b, u, rfl, hb⟩ := List.eq_append_cons_of_mem hc
    rw [cut_append_cons hb] at h
    cases h
    simp
    omega
  · rw [cut_of_not_mem hc] at h
    cases h

/-- Lyrics go on to an opening bracket, a chord to the first closing bracket or the end. -/
def segments (l : Text) : List Segment :=
  match _hl : cut '[' l with
  | (s, none) => [.lyrics s]
  | (s, some r) => match _hr : cut ']' r with
    | (x, none) => [.lyrics s, .chord x false]
    | (x, some rest) => .lyrics s :: .chord x true :: segments rest
termination_by l.length
decreasing_by
  have h₁ := length_of_cut _hl
  have h₂ := length_of_cut _hr
  omega

section Forms
variable {s x : Text}

theorem segments_lyrics (hs : '[' ∉ s) : segments s = [.lyrics s] := by
  unfold segments
  split <;> rename_i h <;> rw [cut_of_not_mem hs] at h <;> cases h
  rfl

theorem segments_unclosed (hs : '[' ∉ s) (hx : ']' ∉ x) :
    segments (s ++ '[' :: x) = [.lyrics s, .chord x false] := by
  unfold segments
  split <;> rename_i h <;> rw [cut_append_cons hs] at h <;> cases h
  split <;> rename_i h <;> rw [cut_of_not_mem hx] at h <;> cases h
  rfl

theorem segments_closed (hs : '[' ∉ s) (hx : ']' ∉ x) (r : Text) :
    segments (s ++ '[' :: (x ++ ']' :: r)) = .lyrics s :: .chord x true :: segments r := by
  rw [segments.eq_def]
  split <;> rename_i h <;> rw [cut_append_cons hs] at h <;> cases h
  split <;> rename_i h <;> rw [cut_append_cons hx] at h <;> cases h
  rfl

/-- A line has no chord, an unclosed one alone, or a closed one and more behind it. -/
theorem segments_cases (l : Text) : '[' ∉ l ∨
    (∃ s x, '[' ∉ s ∧ ']' ∉ x ∧ l = s ++ '[' :: x) ∨
    ∃ s x r, '[' ∉ s ∧ ']' ∉ x ∧ l = s ++ '[' :: (x ++ ']' :: r) := by
  by_cases hl : '[' ∈ l
  · obtain ⟨s, t, rfl, hs⟩ := List.eq_append_cons_of_mem hl
    by_cases ht : ']' ∈ t
    · obtain ⟨x, r, rfl, hx⟩ := List.eq_append_cons_of_mem ht
      exact .inr (.inr ⟨s, x, r, hs, hx, rfl⟩)
    · exact .inr (.inl ⟨s, t, hs, ht, rfl⟩)
  · exact .inl hl

theorem segments_induction {P : Text → Prop} (lyrics : ∀ s, '[' ∉ s → P s)
    (unclosed : ∀ s x, '[' ∉ s → ']' ∉ x → P (s ++ '[' :: x))
    (closed : ∀ s x r, '[' ∉ s → ']' ∉ x → P r → P (s ++ '[' :: (x ++ ']' :: r))) (l : Text) :
    P l := by
  induction hn : l.length using Nat.strongRecOn generalizing l with
  | _ n ih =>
    rcases segments_cases l with hs | ⟨s, x, hs, hx, rfl⟩ | ⟨s, x, r, hs, hx, rfl⟩
    · exact lyrics l hs
    · exact unclosed s x hs hx
    · refine closed s x r hs hx (ih r.length ?_ r rfl)
      subst hn
      simp
      omega

end Forms

/-! ## Tokens of a line -/

/-- A line without its stray brackets in front. -/
def content (l : Text) : Text := l.dropWhile (· == ']')

/-- The mark directly behind the hashes tells the modifier. -/
def headline (l : Text) : Headline :=
  let level := (l.takeWhile (· == '#')).length
  match l.dropWhile (· == '#') with
  | '!' :: r => ⟨level, stripLeft r, .chorus⟩
  | '$' :: r => ⟨level, stripLeft r, .bridge⟩
  | r => ⟨level, stripLeft r, .none⟩

theorem headline_hash (l : Text) :
    headline ('#' :: l) = { headline l with level := (headline l).level + 1 } := by
  rw [headline, headline, List.takeWhile_cons_of_pos (by decide),
    List.dropWhile_cons_of_pos (by decide), List.length_cons]
  split <;> rfl

theorem headline_chorus (l : Text) : headline ('!' :: l) = ⟨0, stripLeft l, .chorus⟩ := rfl

theorem headline_bridge (l : Text) : headline ('$' :: l) = ⟨0, stripLeft l, .bridge⟩ := rfl

theorem headline_other {c : Char} (hh : c ≠ '#') (hc : c ≠ '!') (hb : c ≠ '$') (l : Text) :
    headline (c :: l) = ⟨0, stripLeft (c :: l), .none⟩ := by
  rw [headline, List.takeWhile_cons_of_neg (by simpa using hh),
    List.dropWhile_cons_of_neg (by simpa using hh)]
  split
  · next h => cases h; exact absurd rfl hc
  · next h => cases h; exact absurd rfl hb
  · rfl

/-- Lyrics that read as a metadata line are one. -/
def recognize : Token → Token
  | .literal s => match Entry.read? s with
    | some e => .entry e
    | none => .literal s
  | t => t

/-- Only lyrics that are the whole line can be a metadata line. -/
def bodyTokens (whole : Bool) (l : Text) : List Token :=
  let ts := (segments l).flatMap Segment.tokens
  if whole && !l.contains '[' then ts.map recognize else ts

theorem bodyTokens_lyrics {s : Text} (hs : '[' ∉ s) (whole : Bool) :
    bodyTokens whole s =
      if whole then (Segment.lyrics s).tokens.map recognize else (Segment.lyrics s).tokens := by
  simp [bodyTokens, segments_lyrics hs, hs]

theorem bodyTokens_unclosed {s x : Text} (hs : '[' ∉ s) (hx : ']' ∉ x) (whole : Bool) :
    bodyTokens whole (s ++ '[' :: x) = (Segment.lyrics s).tokens ++ [.chord x] := by
  simp [bodyTokens, segments_unclosed hs hx, Segment.tokens]

theorem bodyTokens_closed {s x : Text} (hs : '[' ∉ s) (hx : ']' ∉ x) (r : Text) (whole : Bool) :
    bodyTokens whole (s ++ '[' :: (x ++ ']' :: r)) =
      (Segment.lyrics s).tokens ++ .chord x :: bodyTokens false r := by
  simp [bodyTokens, segments_closed hs hx, Segment.tokens]

def contentTokens : Text → List Token
  | [] => []
  | '#' :: r => [.headline (headline ('#' :: r))]
  | '>' :: r => [.quote (stripLeft r)]
  | c :: r => bodyTokens true (c :: r)

def tokens (l : Text) : List Token := contentTokens (content l)

/-! ## Problems of a line -/

def contentProblems : Text → List Problem
  | [] => []
  | '#' :: _ => []
  | '>' :: _ => []
  | c :: r => (segments (c :: r)).flatMap Segment.problems

def problems (l : Text) : List Problem :=
  (l.takeWhile (· == ']')).map (fun _ => .unexpectedChordEnd) ++ contentProblems (content l)

def endsInChord : Text → Bool
  | [] => false
  | '#' :: _ => false
  | '>' :: _ => false
  | c :: r => (segments (c :: r)).any Segment.isOpen

/-- The last line must be empty, and no other may end inside a chord. -/
def endProblem? (last : Bool) (l : Text) : Option Problem :=
  if last then (if (content l).isEmpty then none else some .unexpectedEndOfFile)
  else if endsInChord (content l) then some .unclosedChord else none

section Body
variable {c : Char} (hh : c ≠ '#') (hq : c ≠ '>') (r : Text)
include hh hq

theorem contentTokens_body : contentTokens (c :: r) = bodyTokens true (c :: r) := by
  simp [contentTokens]

theorem contentProblems_body :
    contentProblems (c :: r) = (segments (c :: r)).flatMap Segment.problems := by
  simp [contentProblems]

theorem endsInChord_body :
    endsInChord (c :: r) = (segments (c :: r)).any Segment.isOpen := by
  simp [endsInChord]

end Body

theorem content_bracket (l : Text) : content (']' :: l) = content l := rfl

theorem content_of_head {l : Text} (hl : l.head? ≠ some ']') : content l = l := by
  cases l with
  | nil => rfl
  | cons c l => exact List.dropWhile_cons_of_neg (by simpa using hl)

theorem problems_of_head {l : Text} (hl : l.head? ≠ some ']') : problems l = contentProblems l := by
  rw [problems, content_of_head hl]
  cases l with
  | nil => rfl
  | cons c l => rw [List.takeWhile_cons_of_neg (by simpa using hl)]; rfl

/-! ## Transcripts -/

def diagnostics (number : Nat) (last : Bool) (l : Text) : List Diagnostic :=
  (problems l ++ (endProblem? last l).toList).map (⟨·, number⟩)

/-- The lines from a number on; a line break stands between any two of them. -/
def transcript (number : Nat) : List Text → Transcript
  | [] => {}
  | [l] => ⟨tokens l, diagnostics number true l⟩
  | l :: ls =>
    let t := transcript (number + 1) ls
    ⟨tokens l ++ .newline :: t.tokens, diagnostics number false l ++ t.diagnostics⟩

theorem transcript_tokens (number : Nat) (ls : List Text) :
    (transcript number ls).tokens = [.newline].intercalate (ls.map tokens) := by
  induction ls generalizing number with
  | nil => rfl
  | cons l ls ih =>
    cases ls with
    | nil => simp [transcript]
    | cons l' ls =>
      rw [List.map_cons, List.map_cons, List.intercalate_cons_cons, ← List.map_cons,
        ← ih (number + 1)]
      simp [transcript]

/-! ## Reports -/

/-- What is wrong with lines, each with the number of its line; only the last ends the input. -/
def report (ls : List Text) : List Diagnostic :=
  (ls.zipIdx 1).flatMap fun x => diagnostics x.2 (x.2 == ls.length) x.1

/-- Lines from a number on are reported under that number, and the last one is known by it. -/
theorem transcript_diagnostics_from (number : Nat) (ls : List Text) :
    (transcript number ls).diagnostics = (ls.zipIdx number).flatMap fun x =>
      diagnostics x.2 (x.2 + 1 == number + ls.length) x.1 := by
  induction ls generalizing number with
  | nil => rfl
  | cons l ls ih =>
    cases ls with
    | nil => simp [transcript]
    | cons l' ls =>
      -- the number of the last line stays the same while the first number moves on
      have hlast : (number + 1 == number + (l :: l' :: ls).length) = false := by
        rw [beq_eq_false_iff_ne]
        simp only [List.length_cons]
        omega
      have hlength : number + (l :: l' :: ls).length = number + 1 + (l' :: ls).length := by
        simp only [List.length_cons]
        omega
      rw [List.zipIdx_cons, List.flatMap_cons]
      dsimp only
      rw [hlast, hlength, ← ih (number + 1)]
      rfl

theorem transcript_diagnostics (ls : List Text) : (transcript 1 ls).diagnostics = report ls := by
  rw [transcript_diagnostics_from, report]
  congr 1
  funext x
  have hlast : (x.2 + 1 == 1 + ls.length) = (x.2 == ls.length) := by
    rw [Bool.eq_iff_iff, beq_iff_eq, beq_iff_eq]
    omega
  rw [hlast]

end Line
end ChordSheet
