import ChordSheet.Metadata.Entry

/-! Tokens: what the lines of a sheet are made of. -/
namespace ChordSheet
set_option autoImplicit false

inductive Modifier
  | none
  | chorus
  | bridge
  deriving DecidableEq, Repr

namespace Modifier

def name : Modifier → Text
  | none => "none".toList
  | chorus => "chorus".toList
  | bridge => "bridge".toList

def all : List Modifier := [none, chorus, bridge]

def ofName? (s : Text) : Option Modifier := all.find? (fun k => k.name == s)

/-- The mark that a headline carries for its modifier. -/
def mark : Modifier → Text
  | none => []
  | chorus => ['!']
  | bridge => ['$']

end Modifier

structure Headline where
  level : Nat
  text : Text
  modifier : Modifier := .none
  deriving DecidableEq, Repr

inductive Token
  | headline (h : Headline)
  | chord (text : Text)
  | literal (text : Text)
  | quote (text : Text)
  | entry (e : Entry)
  | newline
  deriving DecidableEq, Repr

def Token.entry? : Token → Option Entry
  | entry e => some e
  | _ => none

end ChordSheet
