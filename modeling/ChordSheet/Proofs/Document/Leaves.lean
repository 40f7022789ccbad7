import ChordSheet.Proofs.Document.Items

/-! What a document holds, read from left to right, told from its tokens alone.

* `Leaf`, `Document.leaves`: heads and items in their order, a pair as a chord and its text.
* `Place`, `places`: a token together with its two neighbours.
* `Place.leaf?`: the leaf of a token, which depends on nothing but its neighbours.
* `Item.leaves_ofTokens`: pairing keeps every token but the line breaks behind headlines.
* `Section.leaves_ofItems`: grouping keeps every item.
* `Document.leaves_parse`: the leaves of a parsed document, for any tokens. -/
namespace ChordSheet
set_option autoImplicit false

/-! ## Leaves -/

/-- A chord tells whether it sits above a text, which is then the next leaf. -/
inductive Leaf
  | headline (h : Headline)
  | chord (c : Chord) (above : Bool)
  | text (s : Text)
  | quote (s : Text)
  | entry (e : Entry)
  | newline
  deriving DecidableEq, Repr

def Item.leaves : Item → List Leaf
  | headline h => [.headline h]
  | pair c s => [.chord c true, .text s]
  | chord c => [.chord c false]
  | text s => [.text s]
  | quote s => [.quote s]
  | entry e => [.entry e]
  | newline => [.newline]

def Section.leaves (s : Section) : List Leaf :=
  (s.head.map Leaf.headline).toList ++ s.items.flatMap Item.leaves

def Document.leaves (d : Document) : List Leaf := d.sections.flatMap Section.leaves

/-! ## Tokens in their places -/

structure Place where
  before : Option Token
  token : Token
  behind : Option Token
  deriving DecidableEq, Repr

/-- The places of tokens that come behind another token or behind none. -/
def places (before : Option Token) : List Token → List Place
  | [] => []
  | t :: ts => ⟨before, t, ts.head?⟩ :: places (some t) ts

namespace Token

def isHeadline : Token → Bool
  | headline _ => true
  | _ => false

def isLiteral : Token → Bool
  | literal _ => true
  | _ => false

end Token

/-- Every token has a leaf, except for a line break directly behind a headline; a chord sits above
a text just when a literal stands directly behind it. -/
def Place.leaf? (naming : Naming) (p : Place) : Option Leaf :=
  match p.token with
  | .headline h => some (.headline h)
  | .chord x => some (.chord (Chord.read naming x) (p.behind.any Token.isLiteral))
  | .literal s => some (.text s)
  | .quote s => some (.quote s)
  | .entry e => some (.entry e)
  | .newline => if p.before.any Token.isHeadline then none else some .newline

def leavesOf (naming : Naming) (before : Option Token) (ts : List Token) : List Leaf :=
  (places before ts).filterMap (Place.leaf? naming)

section Steps
variable (naming : Naming) (before : Option Token) (ts : List Token)

theorem leavesOf_cons (t : Token) :
    leavesOf naming before (t :: ts) =
      (Place.leaf? naming ⟨before, t, ts.head?⟩).toList ++ leavesOf naming (some t) ts := by
  rw [leavesOf, places, List.filterMap_cons]
  cases Place.leaf? naming ⟨before, t, ts.head?⟩ <;> rfl

/-- What stands before matters to nothing but a line break behind a headline. -/
theorem leavesOf_before
    (h : before.any Token.isHeadline = false ∨ ts.head? ≠ some .newline) :
    leavesOf naming before ts = leavesOf naming none ts := by
  cases ts with
  | nil => rfl
  | cons t ts =>
    rw [leavesOf_cons, leavesOf_cons]
    cases t with
    | newline =>
      have hb : before.any Token.isHeadline = false := h.resolve_right (fun hn => hn rfl)
      rw [Place.leaf?, if_neg (by simp [hb])]
      rfl
    | _ => rfl

theorem leavesOf_cons_other {t : Token} (ht : t.isHeadline = false) :
    leavesOf naming none (t :: ts) =
      (Place.leaf? naming ⟨none, t, ts.head?⟩).toList ++ leavesOf naming none ts := by
  rw [leavesOf_cons, leavesOf_before naming (some t) ts (.inl ht)]

end Steps

/-! ## Pairing -/

/-- A line break is dropped behind a headline, and nothing else is. -/
theorem Item.leaves_ofTokens (naming : Naming) (ts : List Token) :
    (ofTokens naming ts).flatMap leaves = leavesOf naming none ts := by
  fun_induction ofTokens naming ts with
  | case1 => rfl
  | case2 h ts ih =>
    rw [List.flatMap_cons, ih, leavesOf_cons, leavesOf_cons,
      leavesOf_before naming (some .newline) ts (.inl rfl)]
    rfl
  | case3 h ts hts ih =>
    have hn : ts.head? ≠ some .newline := by
      intro hn
      obtain ⟨us, rfl⟩ := List.head?_eq_some_iff.mp hn
      exact hts us rfl
    rw [List.flatMap_cons, ih, leavesOf_cons,
      leavesOf_before naming (some (.headline h)) ts (.inr hn)]
    rfl
  | case4 x s ts ih =>
    rw [List.flatMap_cons, ih, leavesOf_cons_other naming _ rfl, leavesOf_cons_other naming _ rfl]
    rfl
  | case5 x ts hts ih =>
    -- no text stands behind the chord, so it stays alone
    have hl : ts.head?.any Token.isLiteral = false := by
      cases ts with
      | nil => rfl
      | cons t ts =>
        cases t with
        | literal s => exact absurd rfl (hts s ts)
        | _ => rfl
    rw [List.flatMap_cons, ih, leavesOf_cons_other naming _ rfl, Place.leaf?, hl]
    rfl
  | case6 s ts ih => rw [List.flatMap_cons, ih, leavesOf_cons_other naming _ rfl]; rfl
  | case7 s ts ih => rw [List.flatMap_cons, ih, leavesOf_cons_other naming _ rfl]; rfl
  | case8 e ts ih => rw [List.flatMap_cons, ih, leavesOf_cons_other naming _ rfl]; rfl
  | case9 ts ih => rw [List.flatMap_cons, ih, leavesOf_cons_other naming _ rfl]; rfl

/-! ## Grouping -/

namespace Section

theorem leaves_eq (s : Section) : s.leaves = s.contents.flatMap Item.leaves := by
  rw [leaves, contents, List.flatMap_append]
  cases s.head <;> rfl

theorem leaves_ofItems (xs : List Item) :
    (ofItems xs).flatMap leaves = xs.flatMap Item.leaves := by
  have hleaves : leaves = fun s => s.contents.flatMap Item.leaves := funext leaves_eq
  rw [hleaves, ← List.flatMap_assoc, contents_ofItems]

/-- Whatever follows the open section has a head. -/
theorem head_of_mem_gather {head : Option Headline} {xs : List Item} {s : Section}
    (h : s ∈ (gather head xs).2) : s.head ≠ none := by
  fun_induction gather head xs with
  | case1 => cases h
  | case2 head h' xs ho r ih =>
    rcases List.mem_cons.mp h with rfl | hr
    · exact Option.some_ne_none h'
    · exact ih hr
  | case3 head h' xs ho r ih => exact ih h
  | case4 head x xs hx r ih => exact ih h

/-- Only what stands before all headlines lacks a head, and it is something. -/
theorem headless_ofItems {xs : List Item} {i : Nat} {s : Section}
    (h : (ofItems xs)[i]? = some s) (hs : s.head = none) : i = 0 ∧ s.items ≠ [] := by
  have hlater : ∀ t ∈ (gather none xs).2, t.head ≠ none := fun t ht => head_of_mem_gather ht
  rw [ofItems] at h
  cases hx : (gather none xs).1 with
  | nil =>
    rw [hx] at h
    exact absurd hs (hlater s (List.mem_of_getElem? h))
  | cons x ys =>
    rw [hx] at h
    cases i with
    | zero =>
      cases h
      exact ⟨rfl, List.cons_ne_nil x ys⟩
    | succ i => exact absurd hs (hlater s (List.mem_of_getElem? h))

end Section

/-! ## Documents -/

namespace Document

/-- A parsed document holds the tokens that it was parsed from, each in its place, and nothing but
its first section can lack a head. -/
theorem leaves_parse (given : Option Naming) (ts : List Token)
    (h : given.isSome ∨ ∀ e ∈ ts.filterMap Token.entry?, ∃ k : Keyword, e.keyword = k.name) :
    ∃ d, parse given ts = .ok d ∧ d.leaves = leavesOf (namingFor given ts) none ts ∧
      ∀ i s, d.sections[i]? = some s → s.head = none → i = 0 ∧ s.items ≠ [] := by
  refine ⟨_, parse_eq_ofTokens h, ?_, ?_⟩
  · rw [leaves, ofTokens, Section.leaves_ofItems, Item.leaves_ofTokens]
  · intro i s hi hs
    exact Section.headless_ofItems hi hs

/-- The naming is declared in front, a break behind the headline is dropped and a second one is not,
a chord pairs with the first of two texts, and a chord ends the tokens. -/
theorem leaves_parse_declared :
    ∃ d, parse none
        [.entry ⟨"B-Notation".toList, ['h']⟩, .newline, .headline ⟨2, "Verse".toList, .chorus⟩,
          .newline, .newline, .chord ['B'], .literal ['l', 'a'], .literal ['l', 'o'],
          .chord ['H', '7'], .headline ⟨3, "Tag".toList, .none⟩, .newline, .chord ['A']] = .ok d ∧
      d.leaves =
        [.entry ⟨"B-Notation".toList, ['h']⟩, .newline, .headline ⟨2, "Verse".toList, .chorus⟩,
          .newline, .chord ⟨some ⟨['B'], ['b']⟩, [], none⟩ true, .text ['l', 'a'], .text ['l', 'o'],
          .chord ⟨some ⟨['B'], []⟩, ['7'], none⟩ false, .headline ⟨3, "Tag".toList, .none⟩,
          .chord ⟨some ⟨['A'], []⟩, [], none⟩ false] ∧
      ∀ i s, d.sections[i]? = some s → s.head = none → i = 0 ∧ s.items ≠ [] := by
  obtain ⟨d, hd, hl, hs⟩ := leaves_parse none
    [.entry ⟨"B-Notation".toList, ['h']⟩, .newline, .headline ⟨2, "Verse".toList, .chorus⟩,
      .newline, .newline, .chord ['B'], .literal ['l', 'a'], .literal ['l', 'o'],
      .chord ['H', '7'], .headline ⟨3, "Tag".toList, .none⟩, .newline, .chord ['A']]
    (.inr fun e he => ⟨.naming, by rw [List.mem_singleton.mp he]; rfl⟩)
  refine ⟨d, hd, ?_, hs⟩
  rw [hl]
  decide

end Document
end ChordSheet
