import ChordSheet.Text.Blank

/-! JSON values and their text.

* `Json`: the values, with the members of an object in order.
* `Json.quote`: a string in quotes; only quotes, backslashes and control characters are escaped.
* `Json.Layout`: all on one line, or one value a line.
* `Json.write`: the text of a value. -/
namespace ChordSheet
set_option autoImplicit false

inductive Json
  | null
  | number (n : Nat)
  | string (s : Text)
  | array (items : List Json)
  | object (members : List (Text × Json))

namespace Json

/-! ## Strings -/

/-- The code points below U+0020, in four digits. -/
def hexEscape (n : Nat) : Text :=
  ['\\', 'u', '0', '0', Nat.digitChar (n / 16), Nat.digitChar (n % 16)]

def escapeChar (c : Char) : Text :=
  match c with
  | '\x22' => ['\\', '\x22']
  | '\\' => ['\\', '\\']
  | '\n' => ['\\', 'n']
  | '\r' => ['\\', 'r']
  | '\t' => ['\\', 't']
  | '\x08' => ['\\', 'b']
  | '\x0c' => ['\\', 'f']
  | c => if c.toNat < 0x20 then hexEscape c.toNat else [c]

def quote (s : Text) : Text := '\x22' :: s.flatMap escapeChar ++ ['\x22']

/-! ## Layout -/

inductive Layout
  | oneLine
  | indented
  deriving DecidableEq, Repr

namespace Layout

/-- What stands between a bracket and the value beside it. -/
def gap : Layout → Nat → Text
  | oneLine, _ => []
  | indented, depth => '\n' :: List.replicate (2 * depth) ' '

def comma : Layout → Nat → Text
  | oneLine, _ => [',', ' ']
  | indented, depth => ',' :: '\n' :: List.replicate (2 * depth) ' '

end Layout

/-- Between the brackets, unless there is nothing. -/
def bracket (l : Layout) (depth : Nat) (first last : Char) (inner : Text) : Text :=
  first :: l.gap (depth + 1) ++ inner ++ l.gap depth ++ [last]

mutual

def write (l : Layout) (depth : Nat) : Json → Text
  | null => "null".toList
  | number n => Nat.toDigits 10 n
  | string s => quote s
  | array [] => ['[', ']']
  | array (x :: xs) =>
    bracket l depth '[' ']' (write l (depth + 1) x ++ writeItems l (depth + 1) xs)
  | object [] => ['\x7b', '\x7d']
  | object ((k, x) :: ms) =>
    bracket l depth '\x7b' '\x7d'
      (quote k ++ ':' :: ' ' :: write l (depth + 1) x ++ writeMembers l (depth + 1) ms)

/-- Every item with the comma before it. -/
def writeItems (l : Layout) (depth : Nat) : List Json → Text
  | [] => []
  | x :: xs => l.comma depth ++ write l depth x ++ writeItems l depth xs

def writeMembers (l : Layout) (depth : Nat) : List (Text × Json) → Text
  | [] => []
  | (k, x) :: ms =>
    l.comma depth ++ quote k ++ ':' :: ' ' :: write l depth x ++ writeMembers l depth ms

end

end Json
end ChordSheet
