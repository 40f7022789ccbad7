import ChordSheet.Document.Tree

/-! Transposition of documents and of free trees: every chord is moved and all else stays. -/
namespace ChordSheet
set_option autoImplicit false

def Item.shift (n : Int) : Item → Except Fault Item
  | pair c s => (c.shift n).map (pair · s)
  | chord c => (c.shift n).map chord
  | i => .ok i

def Section.shift (n : Int) (s : Section) : Except Fault Section :=
  (s.items.mapM (Item.shift n)).map fun items => { s with items }

def Document.shift (n : Int) (d : Document) : Except Fault Document :=
  (d.sections.mapM (Section.shift n)).map Document.mk

namespace Node

mutual

def shift (n : Int) : Node → Except Fault Node
  | item i => (i.shift n).map item
  | part head children kind => (shiftAll n children).map (part head · kind)
  | document children => (shiftAll n children).map document

def shiftAll (n : Int) : List Node → Except Fault (List Node)
  | [] => .ok []
  | x :: xs => match shift n x with
    | .error fault => .error fault
    | .ok y => (shiftAll n xs).map (y :: ·)

end

end Node
end ChordSheet
