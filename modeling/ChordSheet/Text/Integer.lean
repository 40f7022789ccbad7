import ChordSheet.Text.Blank

/-! Whole numbers in decimal digits of any script.

* `digit?`: the value of a decimal digit.
* `readInteger?`: an optional sign and digits, single underscores between them, blanks around. -/
namespace ChordSheet
set_option autoImplicit false

/-- The zeros of all scripts; the nine other digits follow each of them. -/
def zeros : List Nat :=
  [0x30, 0x660, 0x6F0, 0x7C0, 0x966, 0x9E6, 0xA66, 0xAE6, 0xB66, 0xBE6, 0xC66, 0xCE6, 0xD66, 0xDE6,
   0xE50, 0xED0, 0xF20, 0x1040, 0x1090, 0x17E0, 0x1810, 0x1946, 0x19D0, 0x1A80, 0x1A90, 0x1B50,
   0x1BB0, 0x1C40, 0x1C50, 0xA620, 0xA8D0, 0xA900, 0xA9D0, 0xA9F0, 0xAA50, 0xABF0, 0xFF10, 0x104A0,
   0x10D30, 0x11066, 0x110F0, 0x11136, 0x111D0, 0x112F0, 0x11450, 0x114D0, 0x11650, 0x116C0,
   0x11730, 0x118E0, 0x11950, 0x11C50, 0x11D50, 0x11DA0, 0x16A60, 0x16AC0, 0x16B50, 0x1D7CE,
   0x1D7D8, 0x1D7E2, 0x1D7EC, 0x1D7F6, 0x1E140, 0x1E2F0, 0x1E950, 0x1FBF0]

def digit? (c : Char) : Option Nat :=
  (zeros.find? (fun z => z ≤ c.toNat && c.toNat < z + 10)).map (c.toNat - ·)

def isDecimal (c : Char) : Bool := (digit? c).isSome

/-- Around a number the four information separators are no blanks. -/
def isPadding (c : Char) : Bool := isBlank c && !(0x1C ≤ c.toNat && c.toNat ≤ 0x1F)

def unpad (s : Text) : Text := ((s.dropWhile isPadding).reverse.dropWhile isPadding).reverse

/-- The digits of a number; `afterDigit` says that an underscore may come next. -/
def digits? (afterDigit : Bool) : Text → Option (List Nat)
  | [] => if afterDigit then some [] else none
  | c :: s =>
    if c = '_' then if afterDigit then digits? false s else none
    else match digit? c with
      | some d => (digits? true s).map (d :: ·)
      | none => none

/-- Numbers of more digits are refused. -/
def maxDigits : Nat := 4300

def readNatural? (s : Text) : Option Nat :=
  match digits? false s with
  | some ds => if ds.length ≤ maxDigits then some (ds.foldl (fun n d => 10 * n + d) 0) else none
  | none => none

def readInteger? (s : Text) : Option Int :=
  match unpad s with
  | '-' :: t => (readNatural? t).map fun n => -(n : Int)
  | '+' :: t => (readNatural? t).map Int.ofNat
  | t => (readNatural? t).map Int.ofNat

end ChordSheet
