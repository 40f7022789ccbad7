import ChordSheet.Chord.Quality
import ChordSheet.Chord.Sounding
import ChordSheet.Text.Integer

/-! The standard ear, which goes by a table of qualities.

A symbol is taken apart anew, with roots of up to two accidentals and with inversion numbers.

* `splitTone`, `dropInversions`, `splitSlash`: the parts of a symbol.
* `sounding?`: the tones of a symbol whose quality is in the table.
* `Ear.standard`: the ear that hears them. -/
namespace ChordSheet
set_option autoImplicit false

/-! ## Parts of a symbol -/

/-- A doubled accidental wins over a single one. -/
def splitTone : Text → Text × Text
  | [] => ([], [])
  | [c] => ([c], [])
  | [c, a] => if Chord.isAccidental a then ([c, a], []) else ([c], [a])
  | c :: a :: b :: s =>
    if Chord.isAccidental a then
      if a = b then ([c, a, b], s) else ([c, a], b :: s)
    else ([c], a :: b :: s)

/-- A white key with at most two flats or two sharps. -/
def tone? : Text → Option PitchClass
  | [c, a, b] =>
    if a = '#' ∧ b = '#' then (PitchClass.natural? c).map (PitchClass.shift · 2)
    else if a = 'b' ∧ b = 'b' then (PitchClass.natural? c).map (PitchClass.shift · (-2))
    else none
  | name => PitchClass.ofName? name

def isDigit (c : Char) : Bool := '0' ≤ c && c ≤ '9'

/-- Takes out every slash that has digits behind it, together with them all; `inside` says that
the digits of such a number are being read. -/
def dropInversions (inside : Bool) : Text → Text
  | [] => []
  | c :: s =>
    if inside && isDigit c then dropInversions true s
    else if c = '/' ∧ s.head?.any isDigit then dropInversions true s
    else c :: dropInversions false s

/-- The digits of the number that stands behind the first such slash. -/
def inversion : Text → Text
  | [] => []
  | c :: s =>
    if c = '/' ∧ s.head?.any isDigit then s.takeWhile isDigit else inversion s

/-- The quality, and the text behind the first slash if there is one. -/
def splitSlash (s : Text) : Text × Option Text :=
  (s.takeWhile (· != '/'), (s.dropWhile (· != '/')).tail?)

/-! ## Tones -/

/-- A line feed that ends the name of a bass raises it as a sharp does. -/
def bassTone? (name : Text) : Option PitchClass :=
  if name.getLast? = some '\n' then (tone? name.dropLast).map (PitchClass.shift · 1)
  else tone? name

def bassTones? : Option Text → Option (List PitchClass)
  | none => some []
  | some name => (bassTone? name).map ([·])

/-- The first inversion has to be a number that can be read. -/
def sounding? (symbol : Text) : Option (List PitchClass) := do
  let split := splitTone symbol
  let root ← tone? split.1
  let parts := splitSlash (dropInversions false split.2)
  let bass ← bassTones? parts.2
  let steps ← intervals? parts.1
  if maxDigits < (inversion split.2).length then none
  else some (steps.map (fun (i : Nat) => root.shift i) ++ bass)

def Ear.standard : Ear := ⟨fun symbol => (sounding? symbol).map (·.map fun p => (p.val : Int))⟩

end ChordSheet
