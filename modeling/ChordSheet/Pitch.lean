import ChordSheet.Fault

/-! Pitch classes: the twelve tones of the octave, counted upwards from C.

* `PitchClass.shift`: moving by any number of semitones, up or down.
* `PitchClass.ofName?`: the pitch of a letter with at most one accidental. -/
namespace ChordSheet
set_option autoImplicit false

abbrev PitchClass := Fin 12

namespace PitchClass

def ofInt (n : Int) : PitchClass := ⟨(n % 12).toNat, by omega⟩

def shift (p : PitchClass) (n : Int) : PitchClass := ofInt (p.val + n)

/-- The white keys. -/
def natural? : Char → Option PitchClass
  | 'C' => some 0
  | 'D' => some 2
  | 'E' => some 4
  | 'F' => some 5
  | 'G' => some 7
  | 'A' => some 9
  | 'B' => some 11
  | _ => none

/-- A sharp raises a white key by one semitone and a flat lowers it by one. -/
def ofName? : Text → Option PitchClass
  | [c] => natural? c
  | [c, a] =>
    if a = '#' then (natural? c).map (shift · 1)
    else if a = 'b' then (natural? c).map (shift · (-1))
    else none
  | _ => none

def ofName (name : Text) : Except Fault PitchClass :=
  match ofName? name with
  | some p => .ok p
  | none => .error (.unknownNote name)

end PitchClass
end ChordSheet
