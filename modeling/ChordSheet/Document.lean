import ChordSheet.Chord
import ChordSheet.Token

/-! Documents: a sheet as sections of items.

* `Item`: what stands inside a section, a chord together with the text that it sits above.
* `Section`: a headline, the items up to the next one that opens a section, and a kind.
* `Document`: the sections in their order. -/
namespace ChordSheet
set_option autoImplicit false

inductive Item
  | headline (h : Headline)
  | pair (chord : Chord) (text : Text)
  | chord (chord : Chord)
  | text (text : Text)
  | quote (text : Text)
  | entry (e : Entry)
  | newline
  deriving DecidableEq, Repr

inductive SectionKind
  | unknown
  | chorus
  | bridge
  deriving DecidableEq, Repr

structure Section where
  head : Option Headline
  items : List Item
  kind : SectionKind := .unknown
  deriving DecidableEq, Repr

structure Document where
  sections : List Section
  deriving DecidableEq, Repr

def Item.entry? : Item → Option Entry
  | entry e => some e
  | _ => none

def Item.kind : Item → NodeKind
  | headline _ => .headline
  | pair .. => .pair
  | chord _ => .chord
  | text _ => .text
  | quote _ => .quote
  | entry _ => .entry
  | newline => .newline

namespace SectionKind

def name : SectionKind → Text
  | unknown => "unknown".toList
  | chorus => "chorus".toList
  | bridge => "bridge".toList

def all : List SectionKind := [unknown, chorus, bridge]

def ofName? (s : Text) : Option SectionKind := all.find? (fun k => k.name == s)

def ofModifier : Modifier → SectionKind
  | .none => unknown
  | .chorus => chorus
  | .bridge => bridge

end SectionKind

namespace Document

def heads (d : Document) : List Headline := d.sections.filterMap (·.head)

def entries (d : Document) : List Entry := d.sections.flatMap (·.items.filterMap Item.entry?)

end Document
end ChordSheet
