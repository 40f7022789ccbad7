import ChordSheet.Document.Tree
import ChordSheet.Metadata
import ChordSheet.Text.Lines

/-! Documents as sheets in normal form, which read back as the same song.

* `Sheet.header`: the title and the metadata, which stand first.
* `Sheet.body`: the sections, without titles and metadata lines.
* `Sheet.tidy`: no blank lines at the ends and never two in a row.
* `Sheet.write`: the whole sheet.
* `Sheet.writeTree`: the sheet of a free tree, or its first node that is out of place. -/
namespace ChordSheet.Sheet
set_option autoImplicit false

def joinLines (lines : List Text) : Text := ['\n'].intercalate lines

/-! ## Header -/

def title : Option Text → Text
  | none => []
  | some [] => ['#']
  | some (c :: s) => '#' :: ' ' :: c :: s

/-- The naming is told only where it is not the usual one. -/
def namingEntry : Naming → List Entry
  | .b => []
  | .h => [⟨Keyword.naming.name, Naming.h.name⟩]

def metaLines (m : Metadata) (naming : Naming) : List Text :=
  (m.present ++ namingEntry naming).map Entry.write

def header (m : Metadata) (naming : Naming) : Text :=
  joinLines ((title m.title :: metaLines m naming).filter (fun line => !line.isEmpty))

/-! ## Body -/

/-- The title stands in the header, so a headline of level 1 leaves nothing here. -/
def headline (h : Headline) : Text :=
  if h.level = 1 then []
  else List.replicate h.level '#' ++ h.modifier.mark ++ ' ' :: h.text ++ ['\n']

def chord (naming : Naming) (c : Chord) : Text := '[' :: c.write naming ++ [']']

/-- Entries stand in the header as well. -/
def item (naming : Naming) : Item → Text
  | .headline h => headline h
  | .pair c s => chord naming c ++ s
  | .chord c => chord naming c
  | .text s => s
  | .quote s => '>' :: ' ' :: s
  | .entry _ => []
  | .newline => ['\n']

def part (naming : Naming) (s : Section) : Text :=
  (s.head.map headline).getD [] ++ s.items.flatMap (item naming) ++ ['\n']

def body (naming : Naming) (d : Document) : Text := d.sections.flatMap (part naming)

/-! ## Whole sheets -/

def tidy (s : Text) : Text := stripRight (dropBreaks (capBreaks 0 s)) ++ ['\n']

def write (d : Document) (m : Metadata) (naming : Naming) : Text :=
  let top := header m naming
  tidy (if top.isEmpty then body naming d else top ++ '\n' :: '\n' :: body naming d)

/-! ## Free trees -/

/-- A node as it stands inside a section. -/
def writeInside (naming : Naming) : Node → Except Fault Text
  | .item i => .ok (item naming i)
  | n => .error (.misplaced n.kind)

def writeSection (naming : Naming) : Node → Except Fault Text
  | .part head children _ => do
    let start := (head.map headline).getD []
    let inner ← children.mapM (writeInside naming)
    .ok (start ++ inner.flatten ++ ['\n'])
  | n => .error (.notSection n.kind)

/-- The nodes are written one after the other, up to the first that is out of place. -/
def writeTree (m : Metadata) (naming : Naming) : Node → Except Fault Text
  | .document children => do
    let top := header m naming
    let parts ← children.mapM (writeSection naming)
    .ok (tidy (if top.isEmpty then parts.flatten else top ++ '\n' :: '\n' :: parts.flatten))
  | n => .error (.notDocument n.kind)

end ChordSheet.Sheet
