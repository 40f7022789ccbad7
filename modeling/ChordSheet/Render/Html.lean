import ChordSheet.Document.Tree
import ChordSheet.Metadata

/-! Documents as HTML fragments. Chords and text stand in columns, a chord row above a text row, so
that a chord keeps to the syllable it belongs to.

* `Html.escape`: a text as character data or as the value of an attribute.
* `Html.tag`: an element around content that is escaped already.
* `Html.write`: the whole fragment.
* `Html.writeTree`: the fragment of a free tree, or its first node that is out of place. -/
namespace ChordSheet.Html
set_option autoImplicit false

def escapeChar : Char → Text
  | '&' => "&amp;".toList
  | '<' => "&lt;".toList
  | '>' => "&gt;".toList
  | '\x22' => "&quot;".toList
  | '\x27' => "&#x27;".toList
  | c => [c]

def escape (s : Text) : Text := s.flatMap escapeChar

/-! ## Elements -/

/-- Keys are written with dashes. -/
def assign (key value : Text) : Text :=
  ' ' :: key.map (fun c => if c = '_' then '-' else c) ++
    '=' :: '\x22' :: escape value ++ ['\x22']

def tagWith (name attributes content : Text) : Text :=
  '<' :: name ++ attributes ++ '>' :: content ++ '<' :: '/' :: name ++ ['>']

/-- The class comes before all other attributes. -/
def tag (name content : Text) (className : Option Text) (attributes : List (Text × Text)) : Text :=
  tagWith name
    ((className.map (assign "class".toList)).getD [] ++
      attributes.flatMap (fun a => assign a.1 a.2))
    content

def plain (name content : Text) : Text := tag name content none []

def classed (name className content : Text) : Text := tag name content (some className) []

def div (className content : Text) : Text := classed "div".toList className content

def span (content : Text) : Text := plain "span".toList content

/-- A blank keeps an empty row as tall as a filled one. -/
def orBlank (row : Option Text) : Text :=
  match row with
  | some (c :: s) => c :: s
  | _ => "&nbsp;".toList

def column (chord text : Option Text) : Text :=
  div "col".toList
    (div "chord-row".toList (orBlank chord) ++ div "text-row".toList (orBlank text))

/-! ## Items -/

/-- There is no heading below the sixth. -/
def headline (h : Headline) : Text :=
  plain ['h', Nat.digitChar (min h.level 6)] (escape h.text)

/-- The attribute holds the chord in the naming `B`, whatever is shown. -/
def chord (naming : Naming) (c : Chord) : Text :=
  tag "span".toList (escape (c.write naming)) (some "chorddown-chord".toList)
    [("data_chord".toList, c.write .b)]

def lyric (s : Text) : Text := span (escape s)

def entry (e : Entry) : Text :=
  div "meta".toList
    (classed "span".toList "meta-keyword".toList (escape (e.keyword ++ [':'])) ++
      ' ' :: classed "span".toList "meta-value".toList (escape e.content))

def item (naming : Naming) : Item → Text
  | .headline h => headline h
  | .pair c s => column (some (chord naming c)) (some (lyric s))
  | .chord c => column (some (chord naming c)) none
  | .text s => column none (some (lyric s))
  | .quote s => plain "blockquote".toList (escape s)
  | .entry e => entry e
  | .newline => "<hr/>\n".toList

/-! ## Documents -/

def className : SectionKind → Option Text
  | .unknown => none
  | .chorus => some "chorus".toList
  | .bridge => some "bridge".toList

/-- A head of level 1 is a title, which is shown once for the whole song. -/
def sectionHead : Option Headline → Text
  | some h => if 1 < h.level then headline h else []
  | none => []

def part (naming : Naming) (s : Section) : Text :=
  tag "section".toList (sectionHead s.head ++ s.items.flatMap (item naming)) (className s.kind) []

def title : Option Text → Text
  | some (c :: s) => plain "h1".toList (escape (c :: s))
  | _ => []

def write (d : Document) (m : Metadata) (naming : Naming) : Text :=
  tag "div".toList (title m.title ++ d.sections.flatMap (part naming)) none
    [("id".toList, "chorddown-song".toList)]

/-! ## Free trees -/

/-- A node as it stands inside a section. -/
def writeInside (naming : Naming) : Node → Except Fault Text
  | .item i => .ok (item naming i)
  | n => .error (.misplaced n.kind)

def writeSection (naming : Naming) : Node → Except Fault Text
  | .part head children kind => do
    let inner ← children.mapM (writeInside naming)
    .ok (tag "section".toList (sectionHead head ++ inner.flatten) (className kind) [])
  | n => .error (.notSection n.kind)

/-- The nodes are written one after the other, up to the first that is out of place. -/
def writeTree (m : Metadata) (naming : Naming) : Node → Except Fault Text
  | .document children => do
    let parts ← children.mapM (writeSection naming)
    .ok (tag "div".toList (title m.title ++ parts.flatten) none
      [("id".toList, "chorddown-song".toList)])
  | n => .error (.notDocument n.kind)

end ChordSheet.Html
