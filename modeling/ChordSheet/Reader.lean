import ChordSheet.Diagnostic
import ChordSheet.Fault
import ChordSheet.Lexeme
import ChordSheet.Token

/-! The reader follows the lexemes of a sheet and gives a token whenever a construct ends.

* `Mode`: the construct being read, with what has been read of it.
* `Mode.react`: what a lexeme does to it: the construct goes on or another one begins.
* `Mode.token?`: the token of a construct that ends.
* `Reader.feed`: one lexeme; `Reader.readAll`: lexemes up to the end of the input.
* `tokenize`: the tokens and the diagnostics of a text. -/
namespace ChordSheet
set_option autoImplicit false

inductive Mode
  | start
  | lineEnd
  | header (level : Nat) (modifier : Modifier) (text : Option Text)
  | chord (text : Text)
  | quote (text : Text)
  | literal (opensLine : Bool) (text : Text)
  | done
  deriving DecidableEq, Repr

namespace Mode

def name : Mode → Text
  | start => "bof".toList
  | lineEnd => "newline".toList
  | header .. => "header".toList
  | chord _ => "chord".toList
  | quote _ => "quote".toList
  | literal .. => "literal".toList
  | done => "eof".toList

def endsLine : Mode → Bool
  | lineEnd => true
  | done => true
  | _ => false

/-! ## Transitions -/

inductive Move
  | stay (m : Mode)
  | turn (m : Mode)
  deriving DecidableEq, Repr

abbrev Reaction := Move × Option Problem

/-- A stray bracket leaves the line at its start. -/
def atLineStart (m : Mode) (x : Lexeme) : Reaction :=
  match x.kind with
  | .headerStart => (.turn (.header 1 .none none), none)
  | .newline => (.turn .lineEnd, none)
  | .chordStart => (.turn (.chord []), none)
  | .quoteStart => (.turn (.quote []), none)
  | .chordEnd => (.stay m, some .unexpectedChordEnd)
  | .eof => (.turn .done, none)
  | _ => (.turn (.literal true x.text), none)

/-- Marks count until a text or a modifier has come. -/
def inHeader (level : Nat) (modifier : Modifier) (text : Option Text) (x : Lexeme) : Reaction :=
  let more : Reaction := (.stay (.header level modifier (some (text.getD [] ++ x.text))), none)
  match x.kind with
  | .newline => (.turn .lineEnd, none)
  | .eof => (.turn .done, some .unexpectedEndOfFile)
  | .headerStart =>
    if text = none ∧ modifier = .none then (.stay (.header (level + 1) modifier none), none)
    else more
  | .chorusMark =>
    if text = none ∧ modifier = .none then (.stay (.header level .chorus none), none) else more
  | .bridgeMark =>
    if text = none ∧ modifier = .none then (.stay (.header level .bridge none), none) else more
  | _ => more

def inChord (text : Text) (x : Lexeme) : Reaction :=
  let more : Move := .stay (.chord (text ++ x.text))
  match x.kind with
  | .headerStart => (more, none)
  | .newline => (.turn .lineEnd, some .unclosedChord)
  | .chordStart => (more, some .nestedChord)
  | .chordEnd => (.turn (.literal false []), none)
  | .eof => (.turn .done, some .unexpectedEndOfFile)
  | .literal => (more, none)
  | _ => (more, some .invalidChordCharacter)

def inQuote (text : Text) (x : Lexeme) : Reaction :=
  match x.kind with
  | .newline => (.turn .lineEnd, none)
  | .eof => (.turn .done, some .unexpectedEndOfFile)
  | _ => (.stay (.quote (text ++ x.text)), none)

def inLiteral (opensLine : Bool) (text : Text) (x : Lexeme) : Reaction :=
  let more : Move := .stay (.literal opensLine (text ++ x.text))
  match x.kind with
  | .newline => (.turn .lineEnd, none)
  | .chordStart => (.turn (.chord []), none)
  | .chordEnd => (.stay (.literal opensLine text), some .unexpectedChordEnd)
  | .eof => (.turn .done, some .unexpectedEndOfFile)
  | .headerStart => (more, some .unexpectedHeaderStart)
  | _ => (more, none)

def react (m : Mode) (x : Lexeme) : Except Fault Reaction :=
  match m with
  | start => .ok (atLineStart start x)
  | lineEnd => .ok (atLineStart lineEnd x)
  | header level modifier text => .ok (inHeader level modifier text x)
  | chord text => .ok (inChord text x)
  | quote text => .ok (inQuote text x)
  | literal opensLine text => .ok (inLiteral opensLine text x)
  | done => .error .pastEnd

/-! ## Tokens -/

/-- A literal that is a line of its own may be a metadata line. -/
def literalToken? (wholeLine : Bool) (text : Text) : Option Token :=
  if text.isEmpty then none
  else match if wholeLine then Entry.read? text else none with
    | some e => some (.entry e)
    | none => some (.literal text)

def token? (m next : Mode) : Option Token :=
  match m with
  | start => none
  | lineEnd => some .newline
  | header level modifier text =>
    some (.headline ⟨level, stripLeft (text.getD []), modifier⟩)
  | chord text => some (.chord text)
  | quote text => some (.quote (stripLeft text))
  | literal opensLine text => literalToken? (opensLine && next.endsLine) text
  | done => none

end Mode

/-! ## Reading -/

structure Reader where
  mode : Mode := .start
  line : Nat := 1
  deriving DecidableEq, Repr

structure Step where
  reader : Reader
  token : Option Token
  diagnostic : Option Diagnostic
  deriving DecidableEq, Repr

structure Transcript where
  tokens : List Token := []
  diagnostics : List Diagnostic := []
  deriving DecidableEq, Repr

namespace Reader

def lineAfter (r : Reader) (x : Lexeme) : Nat :=
  if x.kind = .newline then r.line + 1 else r.line

def follow (r : Reader) (x : Lexeme) : Mode.Reaction → Step
  | (.stay m, p) => ⟨⟨m, r.lineAfter x⟩, none, p.map (⟨·, r.line⟩)⟩
  | (.turn m, p) => ⟨⟨m, r.lineAfter x⟩, r.mode.token? m, p.map (⟨·, r.line⟩)⟩

/-- Nothing can be fed after the end of the input. -/
def feed (r : Reader) (x : Lexeme) : Except Fault Step := (r.mode.react x).map (r.follow x)

end Reader

def Transcript.add (token : Option Token) (found : Option Diagnostic) (t : Transcript) :
    Transcript :=
  ⟨token.toList ++ t.tokens, found.toList ++ t.diagnostics⟩

/-- Reading stops at the first mark of the end. -/
def Reader.readAll (r : Reader) : List Lexeme → Except Fault Transcript
  | [] => .ok {}
  | x :: xs => match r.feed x with
    | .error fault => .error fault
    | .ok ⟨next, token, found⟩ =>
      if next.mode = .done then .ok (Transcript.add token found {})
      else (next.readAll xs).map (Transcript.add token found)

def tokenize (s : Text) : Except Fault Transcript := Reader.readAll {} (Lexeme.scan s)

end ChordSheet
