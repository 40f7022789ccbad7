import ChordSheet.Text.Lines

/-! Lexemes: the delimiters of a text, one by one, and the runs of other characters between them.

* `Lexeme.Kind.ofDelimiter?`: the eight delimiters.
* `Lexeme.scan`: the lexemes of a text; a mark of its end comes last. -/
namespace ChordSheet
set_option autoImplicit false

namespace Lexeme

inductive Kind
  | headerStart
  | newline
  | chordStart
  | chordEnd
  | quoteStart
  | colon
  | chorusMark
  | bridgeMark
  | literal
  | eof
  deriving DecidableEq, Repr

namespace Kind

def name : Kind → Text
  | headerStart => "header_start".toList
  | newline => "newline".toList
  | chordStart => "chord_start".toList
  | chordEnd => "chord_end".toList
  | quoteStart => "quote_start".toList
  | colon => "colon".toList
  | chorusMark => "chorus_mark".toList
  | bridgeMark => "bridge_mark".toList
  | literal => "literal".toList
  | eof => "eof".toList

def all : List Kind :=
  [headerStart, newline, chordStart, chordEnd, quoteStart, colon, chorusMark, bridgeMark, literal,
    eof]

def ofName? (s : Text) : Option Kind := all.find? (fun k => k.name == s)

def ofDelimiter? : Char → Option Kind
  | '#' => some headerStart
  | '\n' => some newline
  | '[' => some chordStart
  | ']' => some chordEnd
  | '>' => some quoteStart
  | ':' => some colon
  | '!' => some chorusMark
  | '$' => some bridgeMark
  | _ => none

end Kind
end Lexeme

structure Lexeme where
  kind : Lexeme.Kind
  text : Text
  deriving DecidableEq, Repr

namespace Lexeme

/-- A character that is no delimiter joins the literal that follows it. -/
def join (c : Char) : List Lexeme → List Lexeme
  | ⟨.literal, s⟩ :: xs => ⟨.literal, c :: s⟩ :: xs
  | xs => ⟨.literal, [c]⟩ :: xs

def split : Text → List Lexeme
  | [] => [⟨.eof, []⟩]
  | c :: s => match Kind.ofDelimiter? c with
    | some kind => ⟨kind, [c]⟩ :: split s
    | none => join c (split s)

def scan (s : Text) : List Lexeme := split (normalizeBreaks s)

end Lexeme
end ChordSheet
