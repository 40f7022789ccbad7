import ChordSheet.Chord.Sounding
import ChordSheet.Document
import ChordSheet.Json
import ChordSheet.Metadata

/-! Dumps: documents and metadata as JSON values.

* `Chord.dump`: a chord with the pitch classes it sounds to an ear.
* `Document.dump`: the tree of sections and items.
* `Metadata.dump`: the fields that are there, and the naming. -/
namespace ChordSheet
set_option autoImplicit false

namespace Json

def ofOption (s : Option Text) : Json := (s.map string).getD null

/-- An object whose member `type` tells what it describes. -/
def typed (type : String) (members : List (Text × Json)) : Json :=
  object (("type".toList, string type.toList) :: members)

end Json

open Json

def Chord.dump (ear : Ear) (c : Chord) : Except Fault Json :=
  (c.pitchClasses ear).map fun ps => object [
    ("text".toList, string (c.write .b)),
    ("root".toList, ofOption (c.root.map (·.write .b))),
    ("quality".toList, string c.quality),
    ("bass".toList, ofOption (c.bass.map (·.write .b))),
    ("pitch_classes".toList, array (ps.map fun p => number p.val))]

def Headline.dump (h : Headline) : Json :=
  typed "headline" [("level".toList, number h.level), ("text".toList, string h.text),
    ("modifier".toList, string h.modifier.name)]

def Item.dump (ear : Ear) : Item → Except Fault Json
  | headline h => .ok h.dump
  | pair c s => (c.dump ear).map fun j =>
    typed "chord_text_pair" [("chord".toList, j), ("text".toList, string s)]
  | chord c => (c.dump ear).map fun j => typed "chord" [("chord".toList, j)]
  | text s => .ok (typed "text" [("text".toList, string s)])
  | quote s => .ok (typed "quote" [("text".toList, string s)])
  | entry e => .ok (typed "meta" [("keyword".toList, string e.keyword),
    ("content".toList, string e.content)])
  | newline => .ok (typed "newline" [])

def Section.dump (ear : Ear) (s : Section) : Except Fault Json :=
  (s.items.mapM (Item.dump ear)).map fun js =>
    typed "section" [("section_type".toList, string s.kind.name),
      ("head".toList, (s.head.map Headline.dump).getD null), ("children".toList, array js)]

def Document.dump (ear : Ear) (d : Document) : Except Fault Json :=
  (d.sections.mapM (Section.dump ear)).map fun js =>
    typed "document" [("children".toList, array js)]

/-! ## Metadata -/

/-- The name of a field as a member of an object. -/
def Field.label (f : Field) : Text := Keyword.lower f.name

def Metadata.dump (m : Metadata) : Json :=
  object ((m.title.map fun s => ("title".toList, string s)).toList ++
    Field.all.filterMap (fun f => (m.value f).map fun s => (f.label, string s)) ++
    [("b_notation".toList, string m.naming.name)])

end ChordSheet
