import ChordSheet.Proofs.Document.Total
import ChordSheet.Proofs.Markup.Reader

/-! The tree that the markup of a document stands for. Every text and every value is in it as it is
in the document, whatever characters it has.

* `Markup.item`, `Markup.part`, `Markup.song`: the tree that a document dictates.
* `Markup.reads_item`, `Markup.reads_part`: pieces of the markup are read alike wherever they occur.
* `Markup.read_render`: a rendered document is read as its tree. -/
namespace ChordSheet.Markup
set_option autoImplicit false

/-! ## Trees -/

def plain (name : Text) (ms : List Markup) : Markup := .element name [] ms

def classed (name className : Text) (ms : List Markup) : Markup :=
  .element name [("class".toList, className)] ms

def blank : List Markup := [.char '\xA0']

def column (chord lyric : List Markup) : Markup :=
  classed "div".toList "col".toList
    [classed "div".toList "chord-row".toList chord, classed "div".toList "text-row".toList lyric]

/-- Headings have the levels from 1 to 6. -/
def headline (h : Headline) : Markup :=
  plain ('h' :: Nat.toDigits 10 (min h.level 6)) (text h.text)

def chord (naming : Naming) (c : Chord) : Markup :=
  .element "span".toList
    [("class".toList, "chorddown-chord".toList), ("data-chord".toList, c.write .b)]
    (text (c.write naming))

def lyric (s : Text) : Markup := plain "span".toList (text s)

def entry (e : Entry) : Markup :=
  classed "div".toList "meta".toList
    [classed "span".toList "meta-keyword".toList (text (e.keyword ++ [':'])), .char ' ',
      classed "span".toList "meta-value".toList (text e.content)]

def item (naming : Naming) : Item → List Markup
  | .headline h => [headline h]
  | .pair c s => [column [chord naming c] [lyric s]]
  | .chord c => [column [chord naming c] blank]
  | .text s => [column blank [lyric s]]
  | .quote s => [plain "blockquote".toList (text s)]
  | .entry e => [entry e]
  | .newline => [plain "hr".toList [], .char '\n']

def sectionClass : SectionKind → List (Text × Text)
  | .unknown => []
  | kind => [("class".toList, kind.name)]

def part (naming : Naming) (s : Section) : Markup :=
  .element "section".toList (sectionClass s.kind)
    ((s.head.filter fun h => 1 < h.level).toList.map headline ++ s.items.flatMap (item naming))

def title (s : Text) : Markup := plain "h1".toList (text s)

def song (d : Document) (m : Metadata) (naming : Naming) : Markup :=
  .element "div".toList [("id".toList, "chorddown-song".toList)]
    ((m.title.filter fun s => s ≠ []).toList.map title ++ d.sections.map (part naming))

/-! ## Elements -/

theorem isName_div : isName "div".toList := by decide

theorem isName_span : isName "span".toList := by decide

section Elements
variable {name content : Text} {ms : List Markup}

/-- A tag as it is written, with its class as the first attribute. -/
theorem tag_eq_tagWith (name content : Text) (className : Option Text) (as : List (Text × Text)) :
    Html.tag name content className as =
      Html.tagWith name (assigned ((className.map ("class".toList, ·)).toList ++ as)) content := by
  cases className <;> rfl

theorem isName_class_append (className : Option Text) {as : List (Text × Text)}
    (ha : ∀ a ∈ as, isName (dashed a.1)) :
    ∀ a ∈ (className.map ("class".toList, ·)).toList ++ as, isName (dashed a.1) := by
  intro a h
  rcases List.mem_append.mp h with h | h
  · have hclass : isName (dashed "class".toList) := by decide
    obtain ⟨s, -, rfl⟩ := Option.map_eq_some_iff.mp (Option.mem_toList.mp h)
    exact hclass
  · exact ha a h

theorem reads_tag (hn : isName name) (className : Option Text) {as : List (Text × Text)}
    (ha : ∀ a ∈ as, isName (dashed a.1)) (hc : Reads content ms) :
    Reads (Html.tag name content className as)
      [.element name (shown ((className.map ("class".toList, ·)).toList ++ as)) ms] := by
  rw [tag_eq_tagWith]
  exact reads_tagWith hn (isName_class_append className ha) hc

theorem reads_plain (hn : isName name) (hc : Reads content ms) :
    Reads (Html.plain name content) [plain name ms] :=
  reads_tag hn none nofun hc

theorem reads_classed (hn : isName name) (className : Text) (hc : Reads content ms) :
    Reads (Html.classed name className content) [classed name className ms] :=
  reads_tag hn (some className) nofun hc

theorem reads_column {upper lower : Option Text} {ns : List Markup}
    (hu : Reads (Html.orBlank upper) ms) (hl : Reads (Html.orBlank lower) ns) :
    Reads (Html.column upper lower) [column ms ns] := by
  have hrows := (reads_classed isName_div "chord-row".toList hu).append
    (reads_classed isName_div "text-row".toList hl)
  exact reads_classed isName_div "col".toList hrows

end Elements

/-! ## Items -/

theorem isName_heading {n : Nat} (hn : n < 7) : isName ['h', Nat.digitChar n] := by
  have hall : ∀ n < 7, isName ['h', Nat.digitChar n] := by decide
  exact hall n hn

theorem reads_headline (h : Headline) : Reads (Html.headline h) [headline h] := by
  have hlevel : min h.level 6 < 7 := by omega
  have hdigits : Nat.toDigits 10 (min h.level 6) = [Nat.digitChar (min h.level 6)] :=
    Nat.toDigits_of_lt_base (by omega)
  rw [headline, hdigits]
  exact reads_plain (isName_heading hlevel) (reads_escape h.text)

theorem reads_chord (naming : Naming) (c : Chord) :
    Reads (Html.chord naming c) [chord naming c] := by
  have hkey : isName (dashed "data_chord".toList) := by decide
  exact reads_tag isName_span (some "chorddown-chord".toList) (List.forall_mem_singleton.mpr hkey)
    (reads_escape (c.write naming))

theorem reads_lyric (s : Text) : Reads (Html.lyric s) [lyric s] :=
  reads_plain isName_span (reads_escape s)

theorem reads_entry (e : Entry) : Reads (Html.entry e) [entry e] := by
  have hkeyword := reads_classed isName_span "meta-keyword".toList
    (reads_escape (e.keyword ++ [':']))
  have hvalue := reads_classed isName_span "meta-value".toList (reads_escape e.content)
  have hgap : Reads [' '] [.char ' '] := reads_escape [' ']
  have hcontent := hkeyword.append (hgap.append hvalue)
  exact reads_classed isName_div "meta".toList hcontent

theorem reads_rule : Reads "<hr/>\n".toList [plain "hr".toList [], .char '\n'] := by
  have hname : isName "hr".toList := by decide
  have hbreak : Reads ['\n'] [.char '\n'] := reads_escape ['\n']
  exact (reads_void hname).append hbreak

theorem reads_item (naming : Naming) (i : Item) : Reads (Html.item naming i) (item naming i) := by
  cases i with
  | headline h => exact reads_headline h
  | pair c s => exact reads_column (reads_chord naming c) (reads_lyric s)
  | chord c => exact reads_column (reads_chord naming c) reads_blank
  | text s => exact reads_column reads_blank (reads_lyric s)
  | quote s =>
    have hquote : isName "blockquote".toList := by decide
    exact reads_plain hquote (reads_escape s)
  | entry e => exact reads_entry e
  | newline => exact reads_rule

/-! ## Documents -/

theorem reads_sectionHead (head : Option Headline) :
    Reads (Html.sectionHead head) ((head.filter fun h => 1 < h.level).toList.map headline) := by
  cases head with
  | none => exact reads_nil
  | some h =>
    rw [Html.sectionHead, Option.filter_some]
    by_cases hl : 1 < h.level
    · rw [if_pos hl, if_pos (decide_eq_true hl)]
      exact reads_headline h
    · rw [if_neg hl, if_neg (by simpa using hl)]
      exact reads_nil

theorem reads_part (naming : Naming) (s : Section) :
    Reads (Html.part naming s) [part naming s] := by
  have hsection : isName "section".toList := by decide
  have hclass : shown (((Html.className s.kind).map ("class".toList, ·)).toList ++ []) =
      sectionClass s.kind := by
    cases s.kind <;> rfl
  have hitems := reads_flatMap s.items fun i _ => reads_item naming i
  have hcontent := (reads_sectionHead s.head).append hitems
  rw [part, ← hclass]
  exact reads_tag hsection (Html.className s.kind) nofun hcontent

theorem reads_title (given : Option Text) :
    Reads (Html.title given) ((given.filter fun s => s ≠ []).toList.map title) := by
  cases given with
  | none => exact reads_nil
  | some s =>
    cases s with
    | nil => exact reads_nil
    | cons c s =>
      have hname : isName "h1".toList := by decide
      exact reads_plain hname (reads_escape (c :: s))

theorem reads_write (d : Document) (m : Metadata) (naming : Naming) :
    Reads (Html.write d m naming) [song d m naming] := by
  have hkey : isName (dashed "id".toList) := by decide
  have hsections := reads_flatMap d.sections fun s _ => reads_part naming s
  have hcontent := (reads_title m.title).append hsections
  have hparts : d.sections.map (part naming) = d.sections.flatMap fun s => [part naming s] :=
    List.map_eq_flatMap
  rw [song, hparts]
  exact reads_tag isName_div none (List.forall_mem_singleton.mpr hkey) hcontent

/-- Whatever texts a document has, its markup is well nested and is read as the tree that the
document dictates: no text ends its element or value early, and none is changed or lost. -/
theorem read_render (d : Document) (m : Metadata) (naming : Naming) :
    (d.toNode.render (some m) ⟨Format.html.name, naming⟩).map read =
      .ok (some [song d m naming]) := by
  have hrender : d.toNode.render (some m) ⟨Format.html.name, naming⟩ =
      .ok (Html.write d m naming) := by
    rw [Document.render_toNode]
    rfl
  rw [hrender, ← (reads_write d m naming).read_eq]
  rfl

end ChordSheet.Markup
