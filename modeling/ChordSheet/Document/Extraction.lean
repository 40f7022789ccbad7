import ChordSheet.Document.Tree
import ChordSheet.Metadata

/-! The metadata that a document carries: its first title and the entries among its items. -/
namespace ChordSheet
set_option autoImplicit false

/-- The title is the text of the first head of level 1. -/
def titleOf (heads : List Headline) : Option Text :=
  (heads.find? (fun h => h.level == 1)).map (·.text)

def Document.metadata (d : Document) : Except Fault Metadata :=
  Metadata.ofEntries (titleOf d.heads) d.entries

/-- Total on every tree: a node that stands in the place of a section and has no head or no children
counts as one without, although a lookup of either breaks off there. In a tree that is a document
nothing but sections stands there. -/
def Node.metadata (n : Node) : Except Fault Metadata :=
  Metadata.ofEntries (titleOf n.heads) n.entries

end ChordSheet
