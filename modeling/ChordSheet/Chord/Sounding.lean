import ChordSheet.Chord

/-! What a chord sounds like: the pitch classes of its tones.

Which tones belong to a symbol is not told here: an ear is asked, and any may be given.

* `Ear`: what is heard of a symbol, if it is known.
* `Chord.outer`: the root and the bass of a chord alone.
* `Chord.pitchClasses`: the tones that an ear hears, or else those two, in ascending order. -/
namespace ChordSheet
set_option autoImplicit false

/-- An ear for chords. It knows some symbols, and hears their tones in semitones above a C, in any
octave; of other symbols it hears nothing. -/
structure Ear where
  hear? : Text → Option (List Int)

/-- Each pitch class of a list once, in ascending order. -/
def ascending (ps : List PitchClass) : List PitchClass :=
  (List.finRange 12).filter (fun p => ps.contains p)

/-- Tones that are octaves apart are one pitch class. -/
def Ear.tones? (ear : Ear) (symbol : Text) : Option (List PitchClass) :=
  (ear.hear? symbol).map fun ts => ascending (ts.map PitchClass.ofInt)

namespace Chord

/-- Root and bass alone; an unknown root is reported first. -/
def outerTones (root : Note) : Option Note → Except Fault (List PitchClass)
  | none => root.pitch.map ([·])
  | some bass => do
    let p ← root.pitch
    let q ← bass.pitch
    .ok [p, q]

def outer (c : Chord) : Except Fault (List PitchClass) :=
  match c.root with
  | none => .ok []
  | some root => (outerTones root c.bass).map ascending

/-- A chord without a root is silent, whatever the ear knows. -/
def pitchClasses (ear : Ear) (c : Chord) : Except Fault (List PitchClass) :=
  match c.root, ear.tones? (c.write .b) with
  | none, _ => .ok []
  | some _, some ps => .ok ps
  | some _, none => c.outer

end Chord
end ChordSheet
