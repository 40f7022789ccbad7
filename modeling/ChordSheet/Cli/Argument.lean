import ChordSheet.Text.Integer

/-! The words of a command line: switches, their values, and operands.

* `Switch`: a switch with a letter, a long word, or both; it may take a value.
* `Argument.read`: what one word is, given the switches that are known.
* `Arguments.read?`: all words of a command. -/
namespace ChordSheet.Cli
set_option autoImplicit false

structure Switch where
  letter : Option Char
  word : Text
  takesValue : Bool
  deriving DecidableEq, Repr

namespace Switch

def long (s : Switch) : Text := '-' :: '-' :: s.word

def isExactly (s : Switch) (arg : Text) : Bool :=
  arg == s.long || s.letter.any (fun c => arg == ['-', c])

end Switch

/-- What is written in one word with a switch: behind its letter, or behind an equals sign. -/
inductive Joined
  | behind (s : Text)
  | equals (s : Text)
  deriving DecidableEq, Repr

def Joined.text : Joined → Text
  | behind s => s
  | equals s => s

inductive Argument
  | operand
  | switch (s : Switch) (joined : Option Joined)
  | unknown
  deriving DecidableEq, Repr

namespace Argument

def splitEquals (arg : Text) : Text × Option Text :=
  (arg.takeWhile (· != '='), (arg.dropWhile (· != '=')).tail?)

/-- Digits with at most one point among them, after a minus sign; a last line break is no matter. -/
def isNegativeNumber (arg : Text) : Bool :=
  match arg with
  | '-' :: s =>
    match s.dropWhile isDecimal with
    | [] => !s.isEmpty
    | ['\n'] => s != ['\n']
    | '.' :: t => match t.dropWhile isDecimal with
      | [] => !t.isEmpty
      | ['\n'] => t != ['\n']
      | _ => false
    | _ => false
  | _ => false

/-- A word that looks like a switch and is none is an operand if it is a number or has a space. -/
def other (arg : Text) : Argument :=
  if isNegativeNumber arg || arg.contains ' ' then operand else unknown

/-- A long word may be cut short as long as it fits one switch alone; the dashes fit too many. -/
def abbreviated (known : List Switch) (arg : Text) : Argument :=
  let parts := splitEquals arg
  if parts.1 = ['-', '-'] then unknown
  else match known.filter (fun s => parts.1.isPrefixOf s.long) with
    | [] => other arg
    | [s] => switch s (parts.2.map .equals)
    | _ => unknown

def lettered (known : List Switch) (arg : Text) (c : Char) (rest : Text) : Argument :=
  match known.find? (fun s => s.letter == some c) with
  | some s => switch s (some (.behind rest))
  | none => other arg

/-- A double dash alone is no switch, and a single one is an operand. -/
def read (known : List Switch) (arg : Text) : Argument :=
  match arg with
  | ['-', '-'] => unknown
  | '-' :: c :: rest =>
    let parts := splitEquals arg
    match known.find? (·.isExactly arg), known.find? (·.isExactly parts.1), parts.2 with
    | some s, _, _ => switch s none
    | none, some s, some v => switch s (some (.equals v))
    | _, _, _ => if c = '-' then abbreviated known arg else lettered known arg c rest
  | _ => operand

end Argument

/-! ## All words -/

structure Arguments where
  values : List (Switch × Text) := []
  operands : List Text := []

namespace Arguments

def addValue (s : Switch) (v : Text) (a : Arguments) : Arguments :=
  { a with values := (s, v) :: a.values }

def addOperand (v : Text) (a : Arguments) : Arguments := { a with operands := v :: a.operands }

/-- A switch without a value may be repeated behind its own letter, and in no other way joined. -/
def flagFits (s : Switch) : Option Joined → Bool
  | none => true
  | some (.behind t) => t.all (fun c => s.letter == some c)
  | some (.equals _) => false

/-- Behind a double dash all words are operands. -/
def read? (known : List Switch) : List Text → Option Arguments
  | [] => some {}
  | arg :: args =>
    if arg = ['-', '-'] then some { operands := args }
    else match Argument.read known arg with
      | .unknown => none
      | .operand => (read? known args).map (addOperand arg)
      | .switch s joined =>
        if s.takesValue then
          match joined with
          | some j => (read? known args).map (addValue s j.text)
          | none => match args with
            | [] => none
            | v :: rest =>
              if Argument.read known v = .operand then (read? known rest).map (addValue s v)
              else none
        else if flagFits s joined then (read? known args).map (addValue s [])
        else none

def valuesOf (a : Arguments) (s : Switch) : List Text :=
  (a.values.filter (fun v => v.1 == s)).map (·.2)

def has (a : Arguments) (s : Switch) : Bool := !(a.valuesOf s).isEmpty

/-- The last value counts, and every one has to be right. -/
def value? {α : Type} (a : Arguments) (s : Switch) (default : α) (f : Text → Option α) :
    Option α :=
  ((a.valuesOf s).mapM f).map fun vs => vs.getLastD default

def operand? (a : Arguments) : Option Text :=
  match a.operands with
  | [v] => some v
  | _ => none

end Arguments
end ChordSheet.Cli
