import ChordSheet.Text.Blank
import ChordSheet.Text.Hidden

/-! Texts in quotes, as messages show the names of files.

* `quotedChar`: a character as it is, or an escape for a hidden one.
* `quoted`: the text between quotes. -/
namespace ChordSheet
set_option autoImplicit false

/-- The last `width` hexadecimal digits of a number. -/
def hexDigits : Nat → Nat → Text
  | 0, _ => []
  | width + 1, n => hexDigits width (n / 16) ++ [Nat.digitChar (n % 16)]

def hexForm (n : Nat) : Text :=
  if n < 0x100 then '\\' :: 'x' :: hexDigits 2 n
  else if n < 0x10000 then '\\' :: 'u' :: hexDigits 4 n
  else '\\' :: 'U' :: hexDigits 8 n

def quotedChar (mark c : Char) : Text :=
  if c = mark ∨ c = '\\' then ['\\', c]
  else if c = '\n' then ['\\', 'n']
  else if c = '\r' then ['\\', 'r']
  else if c = '\t' then ['\\', 't']
  else if isHidden c then hexForm c.toNat
  else [c]

/-- Single quotes, unless the text has one and has no double quote. -/
def quoteMark (s : Text) : Char :=
  if s.contains '\x27' && !s.contains '\x22' then '\x22' else '\x27'

def quoted (s : Text) : Text :=
  quoteMark s :: s.flatMap (quotedChar (quoteMark s)) ++ [quoteMark s]

end ChordSheet
