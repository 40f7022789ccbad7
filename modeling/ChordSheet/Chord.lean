import ChordSheet.Note

/-! Chords: a root, a free quality text and perhaps a bass note.

* `Chord.shift`: transposition; the spelling keeps to flats if the chord has one.
* `Chord.write`: the chord symbol in a naming.
* `Chord.read`: the chord that a symbol stands for; a text without a root is all quality. -/
namespace ChordSheet
set_option autoImplicit false

structure Chord where
  root : Option Note
  quality : Text := []
  bass : Option Note := none
  deriving DecidableEq, Repr

namespace Chord

def usesFlats (c : Chord) : Bool := c.root.any Note.isFlat || c.bass.any Note.isFlat

/-! ## Transposition -/

/-- A chord without a root, and any chord moved by whole octaves, stays as it is. -/
def shift (n : Int) (c : Chord) : Except Fault Chord :=
  match c.root with
  | none => .ok c
  | some root =>
    if n % 12 = 0 then .ok c
    else do
      let bass ← match c.bass with
        | none => .ok none
        | some b => (b.shift c.usesFlats n).map some
      let root ← root.shift c.usesFlats n
      .ok { c with root := some root, bass }

/-! ## Writing -/

def write (naming : Naming) (c : Chord) : Text :=
  match c.root with
  | none => c.quality
  | some root => root.write naming ++ c.quality ++ match c.bass with
    | none => []
    | some b => '/' :: b.write naming

/-! ## Reading -/

def isNoteLetter (c : Char) : Bool := 'A' ≤ c && c ≤ 'H'

def isAccidental (c : Char) : Bool := c == '#' || c == 'b'

/-- A whole text that is a bass: a slash, a letter and perhaps an accidental. -/
def bass? : Text → Option (Char × Text)
  | ['/', c] => if isNoteLetter c then some (c, []) else none
  | ['/', c, a] => if isNoteLetter c && isAccidental a then some (c, [a]) else none
  | _ => none

/-- The bass is what ends the text, and all before it is the quality. -/
def splitBass : Text → Text × Option (Char × Text)
  | [] => ([], none)
  | c :: s => match bass? (c :: s) with
    | some b => ([], some b)
    | none =>
      let r := splitBass s
      (c :: r.1, r.2)

/-- The accidental that stands directly after a letter, and the rest. -/
def splitAccidental : Text → Text × Text
  | [] => ([], [])
  | a :: s => if isAccidental a then ([a], s) else ([], a :: s)

def ofParts (naming : Naming) (letter : Char) (rest : Text) : Chord :=
  let a := splitAccidental rest
  let q := splitBass a.2
  { root := some (Note.read naming letter a.1), quality := q.1,
    bass := q.2.map fun b => Note.read naming b.1 b.2 }

def read (naming : Naming) (s : Text) : Chord :=
  match strip s with
  | [] => { root := none }
  | c :: rest =>
    if isNoteLetter c then ofParts naming c rest else { root := none, quality := c :: rest }

end Chord
end ChordSheet
