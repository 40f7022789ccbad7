import ChordSheet.Text.Blank

/-! The two namings of the note below C: `B` and `Bb`, or `H` and `B`. -/
namespace ChordSheet
set_option autoImplicit false

inductive Naming
  | b
  | h
  deriving DecidableEq, Repr

namespace Naming

def name : Naming → Text
  | b => ['B']
  | h => ['H']

def all : List Naming := [b, h]

def ofName? (s : Text) : Option Naming := all.find? (fun k => k.name == s)

end Naming
end ChordSheet
