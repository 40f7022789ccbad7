import ChordSheet.Naming
import ChordSheet.Pitch

/-! Notes: a letter with an accidental, freely spelled.

* `Note.pitch`: the pitch class that the spelling names.
* `PitchClass.spell`: a pitch class as a note, its black keys as sharps or as flats.
* `Note.shift`: a note moved by semitones and spelled anew.
* `Note.write`, `Note.read`: a note in one of the two namings. -/
namespace ChordSheet
set_option autoImplicit false

structure Note where
  letter : Text
  accidental : Text := []
  deriving DecidableEq, Repr

/-- A black key is the lower neighbour raised or the upper neighbour lowered. -/
def blackKey (flats : Bool) (lower upper : Char) : Note :=
  if flats then ⟨[upper], ['b']⟩ else ⟨[lower], ['#']⟩

def PitchClass.spell (flats : Bool) (p : PitchClass) : Note :=
  match p with
  | 0 => ⟨['C'], []⟩
  | 1 => blackKey flats 'C' 'D'
  | 2 => ⟨['D'], []⟩
  | 3 => blackKey flats 'D' 'E'
  | 4 => ⟨['E'], []⟩
  | 5 => ⟨['F'], []⟩
  | 6 => blackKey flats 'F' 'G'
  | 7 => ⟨['G'], []⟩
  | 8 => blackKey flats 'G' 'A'
  | 9 => ⟨['A'], []⟩
  | 10 => blackKey flats 'A' 'B'
  | 11 => ⟨['B'], []⟩

namespace Note

def name (x : Note) : Text := x.letter ++ x.accidental

def isFlat (x : Note) : Bool := x.accidental == ['b']

def pitch (x : Note) : Except Fault PitchClass := PitchClass.ofName x.name

def shift (flats : Bool) (n : Int) (x : Note) : Except Fault Note :=
  match x.pitch with
  | .ok p => .ok ((p.shift n).spell flats)
  | .error e => .error e

/-! ## Namings -/

/-- With the naming `H`, B flat is written `B` and every other B has the letter `H`. -/
def write (naming : Naming) (x : Note) : Text :=
  if naming = .h ∧ x.letter = ['B'] then
    if x.accidental = ['b'] then ['B'] else 'H' :: x.accidental
  else x.name

/-- `H` reads as B in both namings; a bare `B` reads as B flat with the naming `H`. -/
def read (naming : Naming) (letter : Char) (accidental : Text) : Note :=
  if letter = 'H' then ⟨['B'], accidental⟩
  else if naming = .h ∧ letter = 'B' ∧ accidental = [] then ⟨['B'], ['b']⟩
  else ⟨[letter], accidental⟩

end Note
end ChordSheet
