import ChordSheet.Document.Extraction
import ChordSheet.Document.OfTokens
import ChordSheet.Document.Transposition
import ChordSheet.Render.Html
import ChordSheet.Render.Sheet

/-! Rendering: documents, trees and texts in a chosen format.

* `Format`, `Formatting`: what can be chosen.
* `Document.render`, `Node.render`: with the metadata given, or else with that of the document.
* `convert`, `transposeAndConvert`: from text to text. -/
namespace ChordSheet
set_option autoImplicit false

inductive Format
  | sheet
  | html
  deriving DecidableEq, Repr

namespace Format

def name : Format → Text
  | sheet => "chorddown".toList
  | html => "html".toList

def all : List Format := [sheet, html]

def ofName (s : Text) : Except Fault Format :=
  match all.find? (fun f => f.name == s) with
  | some f => .ok f
  | none => .error (.unknownFormat s)

def write : Format → Document → Metadata → Naming → Text
  | sheet => Sheet.write
  | html => Html.write

def writeTree : Format → Metadata → Naming → Node → Except Fault Text
  | sheet => Sheet.writeTree
  | html => Html.writeTree

def writeInside : Format → Naming → Node → Except Fault Text
  | sheet => Sheet.writeInside
  | html => Html.writeInside

end Format

/-- The format is given by its name, which may be unknown. -/
structure Formatting where
  format : Text := Format.html.name
  naming : Naming := .b
  deriving DecidableEq, Repr

/-! ## Documents and trees -/

/-- Metadata that is given replaces that of the document altogether. -/
def Document.render (d : Document) (given : Option Metadata) (f : Formatting) :
    Except Fault Text := do
  let m ← given.elim d.metadata .ok
  let format ← Format.ofName f.format
  .ok (format.write d m f.naming)

namespace Node

/-- A tree that is no document is refused last, after metadata and format. -/
def render (n : Node) (given : Option Metadata) (f : Formatting) : Except Fault Text := do
  let m ← given.elim n.metadata .ok
  let format ← Format.ofName f.format
  format.writeTree m f.naming n

/-- One node as it stands inside a section. -/
def renderInside (n : Node) (f : Formatting) : Except Fault Text := do
  let format ← Format.ofName f.format
  format.writeInside f.naming n

end Node

/-! ## Texts -/

def convert (s : Text) (given : Option Metadata) (f : Formatting) : Except Fault Text := do
  let d ← Document.ofText s
  d.render given f

def transposeAndConvert (s : Text) (n : Int) (given : Option Metadata) (f : Formatting) :
    Except Fault Text := do
  let d ← Document.ofText s
  let d ← d.shift n
  d.render given f

end ChordSheet
