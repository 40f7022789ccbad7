import ChordSheet.Document

/-! Free trees of nodes, in which any node may stand at any place.

* `Node`: items, sections and documents without a rule of nesting.
* `Document.ofNode`: the document that a tree is, or its first node that is out of place.
* `Document.toNode`: a document as a tree. -/
namespace ChordSheet
set_option autoImplicit false

inductive Node
  | item (i : Item)
  | part (head : Option Headline) (children : List Node) (kind : SectionKind)
  | document (children : List Node)

namespace Node

def kind : Node → NodeKind
  | item i => i.kind
  | part .. => .part
  | document _ => .document

/-! ## The shape of a document -/

def toItem : Node → Except Fault Item
  | item i => .ok i
  | n => .error (.misplaced n.kind)

def toSection : Node → Except Fault Section
  | part head children kind => (children.mapM toItem).map fun items => { head, items, kind }
  | n => .error (.notSection n.kind)

end Node

namespace Document

def ofNode : Node → Except Fault Document
  | .document children => (children.mapM Node.toSection).map Document.mk
  | n => .error (.notDocument n.kind)

def toNode (d : Document) : Node :=
  .document (d.sections.map fun s => .part s.head (s.items.map .item) s.kind)

end Document

/-! ## Sections of a tree -/

namespace Node

/-- An item has no children to look up; it counts here as a node with none. -/
def children : Node → List Node
  | item _ => []
  | part _ ns _ => ns
  | document ns => ns

/-- Sections alone have a head to look up; other nodes count here as sections without one. -/
def head? : Node → Option Headline
  | part head _ _ => head
  | _ => none

def entry? : Node → Option Entry
  | item i => i.entry?
  | _ => none

def heads (n : Node) : List Headline := n.children.filterMap head?

/-- Entries stand two levels down, whatever kind of node is between. -/
def entries (n : Node) : List Entry := n.children.flatMap (·.children.filterMap entry?)

end Node
end ChordSheet
