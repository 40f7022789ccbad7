import ChordSheet.Text.Blank

/-! Diagnostics: problems that reading goes on after, each with the number of its line. -/
namespace ChordSheet
set_option autoImplicit false

inductive Problem
  | unclosedChord
  | nestedChord
  | invalidChordCharacter
  | unexpectedChordEnd
  | unexpectedHeaderStart
  | unexpectedEndOfFile
  deriving DecidableEq, Repr

namespace Problem

def words : Problem → List Text
  | unclosedChord => ["unclosed".toList, "chord".toList]
  | nestedChord => ["nested".toList, "chord".toList]
  | invalidChordCharacter => ["invalid".toList, "chord".toList, "character".toList]
  | unexpectedChordEnd => ["unexpected".toList, "chord".toList, "end".toList]
  | unexpectedHeaderStart => ["unexpected".toList, "header".toList, "start".toList]
  | unexpectedEndOfFile => ["unexpected".toList, "end".toList, "of".toList, "file".toList]

def name (p : Problem) : Text := ['_'].intercalate p.words

end Problem

structure Diagnostic where
  problem : Problem
  line : Nat
  deriving DecidableEq, Repr

def Diagnostic.message (d : Diagnostic) : Text :=
  "line ".toList ++ Nat.toDigits 10 d.line ++ ": ".toList ++ [' '].intercalate d.problem.words

end ChordSheet
