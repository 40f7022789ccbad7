import ChordSheet.Document
import ChordSheet.Metadata
import ChordSheet.Reader

/-! From tokens to a document.

* `Item.ofTokens`: pairs each chord with the literal behind it; the line break that ends a
  headline belongs to it.
* `Section.gather`: groups items at the headlines that open a section.
* `Document.parse`: the document of a token list, `Document.ofText` that of a text. -/
namespace ChordSheet
set_option autoImplicit false

/-! ## Items -/

def Item.ofTokens (naming : Naming) : List Token → List Item
  | [] => []
  | .headline h :: .newline :: ts => .headline h :: ofTokens naming ts
  | .headline h :: ts => .headline h :: ofTokens naming ts
  | .chord c :: .literal s :: ts => .pair (Chord.read naming c) s :: ofTokens naming ts
  | .chord c :: ts => .chord (Chord.read naming c) :: ofTokens naming ts
  | .literal s :: ts => .text s :: ofTokens naming ts
  | .quote s :: ts => .quote s :: ofTokens naming ts
  | .entry e :: ts => .entry e :: ofTokens naming ts
  | .newline :: ts => .newline :: ofTokens naming ts

/-! ## Sections -/

/-- A headline closes the open section unless it is deeper than the section's own head; a title
closes at any headline, and so does what stands before the first one. -/
def opensSection (head : Option Headline) (h : Headline) : Bool :=
  match head with
  | none => true
  | some own => own.level == 1 || h.level ≤ own.level

namespace Section

def ofHead (h : Headline) (items : List Item) : Section :=
  { head := some h, items, kind := .ofModifier h.modifier }

/-- The items of the open section, and the sections after it. -/
def gather (head : Option Headline) : List Item → List Item × List Section
  | [] => ([], [])
  | .headline h :: xs =>
    if opensSection head h then
      let r := gather (some h) xs
      ([], ofHead h r.1 :: r.2)
    else
      let r := gather head xs
      (.headline h :: r.1, r.2)
  | x :: xs =>
    let r := gather head xs
    (x :: r.1, r.2)

/-- What stands before the first headline is a section of its own, if there is anything. -/
def ofItems (xs : List Item) : List Section :=
  let r := gather none xs
  if r.1.isEmpty then r.2 else { head := none, items := r.1 } :: r.2

end Section

/-! ## Documents -/

namespace Document

def ofTokens (naming : Naming) (ts : List Token) : Document :=
  ⟨Section.ofItems (Item.ofTokens naming ts)⟩

/-- The naming that the metadata lines among the tokens ask for. -/
def declaredNaming (ts : List Token) : Except Fault Naming :=
  (Metadata.ofEntries none (ts.filterMap Token.entry?)).map (·.naming)

/-- Without a given naming the tokens decide themselves. -/
def parse (naming : Option Naming) (ts : List Token) : Except Fault Document :=
  match naming with
  | some n => .ok (ofTokens n ts)
  | none => (declaredNaming ts).map (ofTokens · ts)

def ofText (s : Text) : Except Fault Document :=
  match tokenize s with
  | .ok t => parse none t.tokens
  | .error fault => .error fault

end Document
end ChordSheet
