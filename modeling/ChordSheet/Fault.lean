import ChordSheet.Text.Blank

/-! Why an operation can fail, and the text that reports it.

* `NodeKind`: the kinds of nodes of a document tree, as reports name them.
* `Fault`: the causes; `Fault.message`: their wording. -/
namespace ChordSheet
set_option autoImplicit false

inductive NodeKind
  | document
  | part
  | headline
  | pair
  | chord
  | text
  | quote
  | entry
  | newline
  deriving DecidableEq, Repr

def NodeKind.name : NodeKind → Text
  | document => "Document".toList
  | part => "Section".toList
  | headline => "Headline".toList
  | pair => "ChordTextPair".toList
  | chord => "ChordStandalone".toList
  | text => "Text".toList
  | quote => "Quote".toList
  | entry => "Meta".toList
  | newline => "Newline".toList

inductive Fault
  | unknownNote (name : Text)
  | unknownKeyword (keyword : Text)
  | unknownFormat (name : Text)
  | notDocument (kind : NodeKind)
  | notSection (kind : NodeKind)
  | misplaced (kind : NodeKind)
  | pastEnd
  deriving DecidableEq, Repr

def Fault.message : Fault → Text
  | unknownNote name => "Unknown note: ".toList ++ name
  | unknownKeyword keyword => "Unknown metadata keyword: ".toList ++ keyword
  | unknownFormat name => "Unknown output format: ".toList ++ name
  | notDocument kind => "Expected a Document, got ".toList ++ kind.name
  | notSection kind => "Expected a Section at document level, got ".toList ++ kind.name
  | misplaced kind => "Cannot render ".toList ++ kind.name ++ " inside a section".toList
  | pastEnd => "Cannot read past the end of the input".toList

end ChordSheet
