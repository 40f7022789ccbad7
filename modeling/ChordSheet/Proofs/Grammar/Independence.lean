import Mathlib.Data.List.Basic
import ChordSheet.Reader

/-! Lines are read independently of each other.

* `Reader.answer`, `Reader.answers`, `Reader.after`: lexemes of any kind, one after the other, also
  past the end of the input.
* `Mode.react_open`: the input ends at a mark of the end alone, and a line at every line break.
* `Reader.after_lines`: behind whole lines no construct is open.
* `Reader.answers_alike`: readers in the same mode answer alike, but for the numbers of lines.
* `Reader.lines_independent`: what stands in whole lines does not matter to what follows them. -/
namespace ChordSheet
set_option autoImplicit false

/-! ## Answers -/

/-- What comes of one lexeme. -/
structure Answer where
  result : Except Fault (Option Token)
  reader : Reader
  diagnostic : Option Diagnostic

namespace Reader

/-- A reader that cannot be fed stays as it is. -/
def answer (r : Reader) (x : Lexeme) : Answer :=
  match r.feed x with
  | .ok s => ⟨.ok s.token, s.reader, s.diagnostic⟩
  | .error fault => ⟨.error fault, r, none⟩

def answers (r : Reader) : List Lexeme → List Answer
  | [] => []
  | x :: xs => r.answer x :: (r.answer x).reader.answers xs

/-- The reader that has been fed with some lexemes. -/
def after (r : Reader) (xs : List Lexeme) : Reader := xs.foldl (fun r x => (r.answer x).reader) r

end Reader

/-! ## Whole lines -/

/-- Lexemes up to a line break, without a mark of the end. -/
structure WholeLines (xs : List Lexeme) : Prop where
  endless : ∀ x ∈ xs, x.kind ≠ .eof
  last : ∃ x, xs.getLast? = some x ∧ x.kind = .newline

namespace Mode

def Move.mode : Move → Mode
  | stay m => m
  | turn m => m

/-- The input goes on, and a line break ends the line. -/
def GoesOn (x : Lexeme) (reaction : Reaction) : Prop :=
  reaction.1.mode ≠ .done ∧ (x.kind = .newline → reaction.1.mode = .lineEnd)

section Constructs
variable {x : Lexeme} (hx : x.kind ≠ .eof)
include hx

theorem goesOn_atLineStart {m : Mode} (hm : m ≠ .done) : GoesOn x (atLineStart m x) := by
  obtain ⟨kind, s⟩ := x
  cases kind with
  | eof => exact absurd rfl hx
  | chordEnd =>
    -- a stray bracket leaves the mode as it is
    exact ⟨hm, nofun⟩
  | newline => exact ⟨nofun, fun _ => rfl⟩
  | _ => exact ⟨nofun, nofun⟩

theorem goesOn_inHeader (level : Nat) (modifier : Modifier) (text : Option Text) :
    GoesOn x (inHeader level modifier text x) := by
  obtain ⟨kind, s⟩ := x
  cases kind with
  | eof => exact absurd rfl hx
  | newline => exact ⟨nofun, fun _ => rfl⟩
  | headerStart | chorusMark | bridgeMark =>
    -- marks count or are text, and the headline goes on either way
    simp only [inHeader]
    split_ifs <;> exact ⟨nofun, nofun⟩
  | _ => exact ⟨nofun, nofun⟩

theorem goesOn_inChord (text : Text) : GoesOn x (inChord text x) := by
  obtain ⟨kind, s⟩ := x
  cases kind with
  | eof => exact absurd rfl hx
  | newline => exact ⟨nofun, fun _ => rfl⟩
  | _ => exact ⟨nofun, nofun⟩

theorem goesOn_inQuote (text : Text) : GoesOn x (inQuote text x) := by
  obtain ⟨kind, s⟩ := x
  cases kind with
  | eof => exact absurd rfl hx
  | newline => exact ⟨nofun, fun _ => rfl⟩
  | _ => exact ⟨nofun, nofun⟩

theorem goesOn_inLiteral (opensLine : Bool) (text : Text) :
    GoesOn x (inLiteral opensLine text x) := by
  obtain ⟨kind, s⟩ := x
  cases kind with
  | eof => exact absurd rfl hx
  | newline => exact ⟨nofun, fun _ => rfl⟩
  | _ => exact ⟨nofun, nofun⟩

theorem react_open {m : Mode} (hm : m ≠ .done) :
    ∃ reaction, m.react x = .ok reaction ∧ GoesOn x reaction := by
  cases m with
  | start => exact ⟨_, rfl, goesOn_atLineStart hx hm⟩
  | lineEnd => exact ⟨_, rfl, goesOn_atLineStart hx hm⟩
  | header level modifier text => exact ⟨_, rfl, goesOn_inHeader hx level modifier text⟩
  | chord text => exact ⟨_, rfl, goesOn_inChord hx text⟩
  | quote text => exact ⟨_, rfl, goesOn_inQuote hx text⟩
  | literal opensLine text => exact ⟨_, rfl, goesOn_inLiteral hx opensLine text⟩
  | done => exact absurd rfl hm

end Constructs
end Mode

namespace Reader

theorem answer_open {r : Reader} (hr : r.mode ≠ .done) {x : Lexeme} (hx : x.kind ≠ .eof) :
    (∃ token, (r.answer x).result = .ok token) ∧ (r.answer x).reader.mode ≠ .done ∧
      (x.kind = .newline → (r.answer x).reader.mode = .lineEnd) := by
  obtain ⟨⟨move, p⟩, hreact, hopen, hend⟩ := Mode.react_open hx hr
  rw [answer, feed, hreact]
  cases move with
  | stay m => exact ⟨⟨_, rfl⟩, hopen, hend⟩
  | turn m => exact ⟨⟨_, rfl⟩, hopen, hend⟩

/-- Without a mark of the end every lexeme is taken. -/
theorem after_open {r : Reader} (hr : r.mode ≠ .done) {xs : List Lexeme}
    (hxs : ∀ x ∈ xs, x.kind ≠ .eof) :
    (∀ a ∈ r.answers xs, ∃ token, a.result = .ok token) ∧ (r.after xs).mode ≠ .done := by
  induction xs generalizing r with
  | nil => exact ⟨List.forall_mem_nil _, hr⟩
  | cons x xs ih =>
    obtain ⟨hx, hrest⟩ := List.forall_mem_cons.mp hxs
    obtain ⟨hok, hopen, -⟩ := answer_open hr hx
    obtain ⟨hoks, hopens⟩ := ih hopen hrest
    exact ⟨List.forall_mem_cons.mpr ⟨hok, hoks⟩, hopens⟩

/-- Behind whole lines no construct is open. -/
theorem after_lines {r : Reader} (hr : r.mode ≠ .done) {xs : List Lexeme} (hxs : WholeLines xs) :
    (r.after xs).mode = .lineEnd := by
  obtain ⟨x, hlast, hx⟩ := hxs.last
  obtain ⟨ys, rfl⟩ := List.getLast?_eq_some_iff.mp hlast
  have hys : ∀ y ∈ ys, y.kind ≠ .eof := fun y hy => hxs.endless y (List.mem_append_left _ hy)
  obtain ⟨-, hopen⟩ := after_open hr hys
  obtain ⟨-, -, hend⟩ := answer_open hopen (hxs.endless x (by simp))
  have hafter : r.after (ys ++ [x]) = ((r.after ys).answer x).reader := List.foldl_append
  rw [hafter, hend hx]

end Reader

/-! ## Two readers -/

/-- The same problem, some lines further down. -/
def Diagnostic.Alike (n : Int) (d e : Diagnostic) : Prop :=
  e.problem = d.problem ∧ (e.line : Int) = d.line + n

/-- Readers in the same mode, the one some lines further down. -/
def Reader.Alike (n : Int) (r s : Reader) : Prop := s.mode = r.mode ∧ (s.line : Int) = r.line + n

/-- The same token or fault, and the same problem some lines further down. -/
structure Answer.Alike (n : Int) (a b : Answer) : Prop where
  result : b.result = a.result
  reader : a.reader.Alike n b.reader
  diagnostic : Option.Rel (Diagnostic.Alike n) a.diagnostic b.diagnostic

namespace Reader

theorem Alike.lineAfter {n : Int} {r s : Reader} (h : r.Alike n s) (x : Lexeme) :
    (s.lineAfter x : Int) = r.lineAfter x + n := by
  obtain ⟨-, hline⟩ := h
  rw [Reader.lineAfter, Reader.lineAfter]
  split_ifs
  · push_cast
    omega
  · exact hline

theorem answer_alike {n : Int} {r s : Reader} (h : r.Alike n s) (x : Lexeme) :
    Answer.Alike n (r.answer x) (s.answer x) := by
  have hafter := h.lineAfter x
  have hproblem : ∀ p : Option Problem,
      Option.Rel (Diagnostic.Alike n) (p.map (⟨·, r.line⟩)) (p.map (⟨·, s.line⟩)) := by
    intro p
    cases p with
    | none => exact .none
    | some p => exact .some ⟨rfl, h.2⟩
  rw [answer, answer, feed, feed, h.1]
  cases r.mode.react x with
  | error fault => exact ⟨rfl, h, .none⟩
  | ok reaction =>
    obtain ⟨move, p⟩ := reaction
    cases move with
    | stay m => exact ⟨rfl, ⟨rfl, hafter⟩, hproblem p⟩
    | turn m =>
      have htoken : s.mode.token? m = r.mode.token? m := by rw [h.1]
      exact ⟨congrArg Except.ok htoken, ⟨rfl, hafter⟩, hproblem p⟩

/-- Readers in the same mode answer alike, as long as they are fed. -/
theorem answers_alike {n : Int} {r s : Reader} (h : r.Alike n s) (xs : List Lexeme) :
    List.Forall₂ (Answer.Alike n) (r.answers xs) (s.answers xs) := by
  induction xs generalizing r s with
  | nil => exact .nil
  | cons x xs ih =>
    have hx := answer_alike h x
    exact .cons hx (ih hx.reader)

theorem after_alike {n : Int} {r s : Reader} (h : r.Alike n s) (xs : List Lexeme) :
    (r.after xs).Alike n (s.after xs) := by
  induction xs generalizing r s with
  | nil => exact h
  | cons x xs ih => exact ih (answer_alike h x).reader

theorem alike_after_lines {g h : List Lexeme} (hg : WholeLines g) (hh : WholeLines h) :
    (after {} g).Alike ((after {} h).line - (after {} g).line) (after {} h) := by
  have hstart : ({} : Reader).mode ≠ .done := nofun
  refine ⟨?_, ?_⟩
  · rw [after_lines hstart hg, after_lines hstart hh]
  · omega

/-- Whole lines are taken without a fault, and all that is left of them is their number: what
follows is answered alike behind any of them. -/
theorem lines_independent {g h : List Lexeme} (hg : WholeLines g) (hh : WholeLines h)
    (k : List Lexeme) :
    (∀ a ∈ answers {} g ++ answers {} h, ∃ token, a.result = .ok token) ∧
      List.Forall₂ (Answer.Alike ((after {} h).line - (after {} g).line))
        ((after {} g).answers k) ((after {} h).answers k) := by
  have hstart : ({} : Reader).mode ≠ .done := nofun
  refine ⟨List.forall_mem_append.mpr
    ⟨(after_open hstart hg.endless).1, (after_open hstart hh.endless).1⟩, ?_⟩
  exact answers_alike (alike_after_lines hg hh) k

/-- A headline with a mark and no text. -/
def bareHeadline : List Lexeme := [⟨.headerStart, ['#']⟩, ⟨.bridgeMark, ['$']⟩, ⟨.newline, []⟩]

/-- A text, and below it a chord that is not closed. -/
def unclosedChord : List Lexeme :=
  [⟨.literal, ['a']⟩, ⟨.newline, ['\n']⟩, ⟨.chordStart, ['[']⟩, ⟨.literal, []⟩, ⟨.newline, ['\n']⟩]

/-- A stray bracket, a headline, the end of the input, and a text that comes too late. -/
def lateText : List Lexeme :=
  [⟨.chordEnd, [']']⟩, ⟨.headerStart, ['#']⟩, ⟨.eof, []⟩, ⟨.literal, ['x']⟩]

theorem lines_independent_unclosed :
    WholeLines bareHeadline ∧ WholeLines unclosedChord ∧
      ((after {} unclosedChord).line : Int) - (after {} bareHeadline).line = 1 ∧
      List.Forall₂ (Answer.Alike 1) ((after {} bareHeadline).answers lateText)
        ((after {} unclosedChord).answers lateText) := by
  have hg : WholeLines bareHeadline := ⟨by decide, _, rfl, rfl⟩
  have hh : WholeLines unclosedChord := ⟨by decide, _, rfl, rfl⟩
  have hshift : ((after {} unclosedChord).line : Int) - (after {} bareHeadline).line = 1 := rfl
  obtain ⟨-, halike⟩ := lines_independent hg hh lateText
  rw [hshift] at halike
  exact ⟨hg, hh, hshift, halike⟩

end Reader
end ChordSheet
