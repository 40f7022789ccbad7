/-! Texts as lists of characters, and what counts as blank in them.

* `isBlank`: the white-space characters of Unicode together with the four information separators.
* `stripLeft`, `stripRight`, `strip`: a text without its blanks at one end or at both. -/
namespace ChordSheet
set_option autoImplicit false

abbrev Text := List Char

/-- Blanks are white space and the separators U+001C to U+001F; a zero-width space is none. -/
def isBlank (c : Char) : Bool :=
  let n := c.toNat
  (0x09 ≤ n && n ≤ 0x0D) || (0x1C ≤ n && n ≤ 0x20) || n == 0x85 || n == 0xA0 || n == 0x1680 ||
    (0x2000 ≤ n && n ≤ 0x200A) || n == 0x2028 || n == 0x2029 || n == 0x202F || n == 0x205F ||
    n == 0x3000

def stripLeft (s : Text) : Text := s.dropWhile isBlank

def stripRight : Text → Text
  | [] => []
  | c :: s => match stripRight s with
    | [] => if isBlank c then [] else [c]
    | d :: r => c :: d :: r

def strip (s : Text) : Text := stripRight (stripLeft s)

end ChordSheet
