import ChordSheet.Text.Blank

/-! The known chord qualities, each with its tones in semitones above the root.

* `qualities`: the table; one row may have several names.
* `intervals?`: the tones of a quality, if it is known. -/
namespace ChordSheet
set_option autoImplicit false

def qualities : List (List Nat × List String) :=
  [([0, 7], ["5"]),
   ([0, 4], ["no5", "omit5"]),
   ([0, 3], ["m(no5)", "m(omit5)"]),
   ([0, 4, 7], ["", "maj"]),
   ([0, 3, 7], ["m", "min", "-"]),
   ([0, 3, 6], ["dim"]),
   ([0, 4, 6], ["(b5)"]),
   ([0, 4, 8], ["aug"]),
   ([0, 2, 7], ["sus2"]),
   ([0, 5, 7], ["sus4", "sus"]),
   ([0, 4, 7, 9], ["6"]),
   ([0, 4, 6, 9], ["6b5", "6-5"]),
   ([0, 4, 7, 10], ["7"]),
   ([0, 4, 6, 10], ["7-5", "7b5"]),
   ([0, 4, 8, 10], ["7+5", "7#5"]),
   ([0, 5, 7, 10], ["7sus4"]),
   ([0, 3, 7, 9], ["m6"]),
   ([0, 3, 7, 10], ["m7"]),
   ([0, 3, 6, 10], ["m7-5", "m7b5"]),
   ([0, 3, 8, 10], ["m7+5", "m7#5"]),
   ([0, 3, 6, 9], ["dim7"]),
   ([0, 4, 7, 11], ["M7", "maj7"]),
   ([0, 4, 8, 11], ["maj7+5", "M7+5"]),
   ([0, 3, 7, 11], ["mmaj7", "mM7"]),
   ([0, 4, 5, 7], ["add4", "majadd4", "Madd4"]),
   ([0, 3, 5, 7], ["madd4"]),
   ([0, 4, 7, 14], ["add9", "majadd9", "Madd9", "2"]),
   ([0, 3, 7, 14], ["madd9"]),
   ([0, 5, 7, 14], ["sus4add9"]),
   ([0, 2, 5, 7], ["sus4add2"]),
   ([0, 4, 7, 17], ["add11", "4"]),
   ([0, 3, 7, 9, 14], ["m69"]),
   ([0, 4, 7, 9, 14], ["69"]),
   ([0, 4, 7, 10, 14], ["9"]),
   ([0, 3, 7, 10, 14], ["m9"]),
   ([0, 4, 7, 11, 14], ["M9", "maj9"]),
   ([0, 5, 7, 10, 14], ["9sus4"]),
   ([0, 4, 7, 10, 13], ["7-9", "7b9", "7(b9)"]),
   ([0, 4, 7, 10, 15], ["7+9", "7#9"]),
   ([0, 4, 6, 10, 14], ["9-5", "9b5"]),
   ([0, 4, 8, 10, 14], ["9+5", "9#5"]),
   ([0, 4, 6, 10, 15], ["7#9b5"]),
   ([0, 4, 8, 10, 15], ["7#9#5"]),
   ([0, 3, 6, 10, 13], ["m7b9b5"]),
   ([0, 4, 6, 10, 13], ["7b9b5"]),
   ([0, 4, 8, 10, 13], ["7b9#5"]),
   ([0, 4, 7, 10, 18], ["7+11", "7#11"]),
   ([0, 4, 7, 11, 18], ["maj7+11", "M7+11", "maj7#11", "M7#11"]),
   ([0, 4, 7, 10, 20], ["7-13", "7b13"]),
   ([0, 3, 7, 10, 17], ["m7add11"]),
   ([0, 4, 7, 11, 17], ["maj7add11", "M7add11"]),
   ([0, 3, 7, 11, 17], ["mmaj7add11", "mM7add11"]),
   ([0, 4, 7, 11, 21], ["maj7add13", "M7add13"]),
   ([0, 4, 7, 10, 13, 15], ["7b9#9"]),
   ([0, 4, 7, 10, 13, 18], ["7b9#11"]),
   ([0, 4, 7, 10, 15, 18], ["7#9#11"]),
   ([0, 4, 7, 10, 14, 18], ["9+11", "9#11"]),
   ([0, 4, 7, 10, 14, 17], ["11"]),
   ([0, 3, 7, 10, 14, 17], ["m11"]),
   ([0, 4, 7, 10, 13, 17, 20], ["7b9b13"]),
   ([0, 4, 7, 10, 14, 17, 21], ["13"]),
   ([0, 4, 7, 10, 13, 17, 21], ["13-9", "13b9"]),
   ([0, 4, 7, 10, 15, 17, 21], ["13+9", "13#9"]),
   ([0, 4, 7, 10, 14, 18, 21], ["13+11", "13#11"]),
   ([0, 4, 7, 11, 14, 17, 21], ["maj13", "M13"])]

/-- Names are matched as they are written, capitals and all. -/
def intervals? (quality : Text) : Option (List Nat) :=
  (qualities.find? (fun row => row.2.any (fun name => name.toList == quality))).map (·.1)

end ChordSheet
