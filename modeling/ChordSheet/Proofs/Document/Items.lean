import ChordSheet.Document.Extraction
import ChordSheet.Document.OfTokens
import ChordSheet.Document.Transposition
import ChordSheet.Proofs.Chord.Symbol
import ChordSheet.Proofs.Metadata.First

/-! The items of a document, from its tokens to its sections.

* `Document.chords`: the chords in their order, above a text or alone.
* `Section.contents_ofItems`: grouping keeps the items in their order.
* `Section.find_heads`: the first title of the tokens is that of the document.
* `Document.shift_formed`: transposition changes the chords, each in its place.
* `Document.parse_eq_ofTokens`: known keywords are all that parsing needs. -/
namespace ChordSheet
set_option autoImplicit false

def Token.headline? : Token → Option Headline
  | headline h => some h
  | _ => none

def Token.chord? : Token → Option Text
  | chord x => some x
  | _ => none

namespace Item

def headline? : Item → Option Headline
  | headline h => some h
  | _ => none

def chord? : Item → Option Chord
  | pair c _ => some c
  | chord c => some c
  | _ => none

def mapChord (f : Chord → Chord) : Item → Item
  | pair c s => pair (f c) s
  | chord c => chord (f c)
  | i => i

end Item

def Section.mapChord (f : Chord → Chord) (s : Section) : Section :=
  { s with items := s.items.map (Item.mapChord f) }

namespace Document

/-- The chords in their order, above a text or alone. -/
def chords (d : Document) : List Chord := d.sections.flatMap (·.items.filterMap Item.chord?)

def mapChord (f : Chord → Chord) (d : Document) : Document := ⟨d.sections.map (Section.mapChord f)⟩

end Document

/-! ## Items of tokens -/

namespace Item

theorem headlines_ofTokens (naming : Naming) (ts : List Token) :
    (ofTokens naming ts).filterMap headline? = ts.filterMap Token.headline? := by
  fun_induction ofTokens naming ts <;>
    simp_all [List.filterMap_cons, headline?, Token.headline?]

theorem entries_ofTokens (naming : Naming) (ts : List Token) :
    (ofTokens naming ts).filterMap entry? = ts.filterMap Token.entry? := by
  fun_induction ofTokens naming ts <;>
    simp_all [List.filterMap_cons, entry?, Token.entry?]

theorem chords_ofTokens (naming : Naming) (ts : List Token) :
    (ofTokens naming ts).filterMap chord? =
      (ts.filterMap Token.chord?).map (Chord.read naming) := by
  fun_induction ofTokens naming ts <;>
    simp_all [List.filterMap_cons, chord?, Token.chord?]

end Item

/-! ## Sections of items -/

namespace Section

/-- The head is an item that has been set apart. -/
def contents (s : Section) : List Item := (s.head.map Item.headline).toList ++ s.items

theorem contents_gather (head : Option Headline) (xs : List Item) :
    (gather head xs).1 ++ (gather head xs).2.flatMap contents = xs := by
  fun_induction gather head xs with
  | case1 => rfl
  | case2 head h xs ho r ih => simpa [contents, ofHead, r] using ih
  | case3 head h xs ho r ih => simpa [r] using ih
  | case4 head x xs hx r ih => simpa [r] using ih

/-- Grouping keeps all items, and their order with them. -/
theorem contents_ofItems (xs : List Item) : (ofItems xs).flatMap contents = xs := by
  have h := contents_gather none xs
  rw [ofItems]
  cases hx : (gather none xs).1 with
  | nil => rwa [hx] at h
  | cons x ys => rwa [hx] at h

theorem filterMap_ofItems {α : Type} {g : Item → Option α} (hg : ∀ h, g (.headline h) = none)
    (xs : List Item) : (ofItems xs).flatMap (·.items.filterMap g) = xs.filterMap g := by
  have hcontents : ∀ s : Section, s.items.filterMap g = s.contents.filterMap g := by
    intro s
    rw [contents]
    cases s.head with
    | none => rfl
    | some h => exact (List.filterMap_cons_none (hg h)).symm
  simp only [hcontents]
  rw [← List.filterMap_flatMap, contents_ofItems]

/-- Every headline of level 1 opens a section, as no section has a head of level 0. -/
theorem find_gather {xs : List Item} (hxs : ∀ h ∈ xs.filterMap Item.headline?, 1 ≤ h.level)
    {head : Option Headline} (hh : ∀ own, head = some own → 1 ≤ own.level) :
    ((gather head xs).2.filterMap (·.head)).find? (fun h => h.level == 1) =
      (xs.filterMap Item.headline?).find? (fun h => h.level == 1) := by
  fun_induction gather head xs with
  | case1 => rfl
  | case2 head h xs ho r ih =>
    have hr := ih (fun x hx => hxs x (by simp [Item.headline?, hx]))
      (fun own he => by cases he; exact hxs h (by simp [Item.headline?]))
    simp [ofHead, Item.headline?, List.find?_cons, hr, r]
  | case3 head h xs ho r ih =>
    have hl : (h.level == 1) = false := by
      cases head with
      | none => exact absurd rfl ho
      | some own =>
        have h1 := hh own rfl
        simp only [opensSection, Bool.or_eq_true, decide_eq_true_eq, not_or] at ho
        rw [beq_eq_false_iff_ne]
        omega
    have hr := ih (fun x hx => hxs x (by simp [Item.headline?, hx])) hh
    simp [Item.headline?, hl, hr, r]
  | case4 head x xs hx r ih =>
    have hn : Item.headline? x = none := by
      cases x with
      | headline h => exact absurd rfl (hx h)
      | _ => rfl
    rw [List.filterMap_cons, hn] at hxs ⊢
    exact ih hxs hh

theorem find_heads {xs : List Item} (hxs : ∀ h ∈ xs.filterMap Item.headline?, 1 ≤ h.level) :
    ((ofItems xs).filterMap (·.head)).find? (fun h => h.level == 1) =
      (xs.filterMap Item.headline?).find? (fun h => h.level == 1) := by
  have hnone : ∀ own : Headline, none = some own → 1 ≤ own.level := nofun
  rw [← find_gather hxs hnone, ofItems]
  cases (gather none xs).1 <;> simp

/-! ## Other chords -/

theorem gather_mapChord (f : Chord → Chord) (head : Option Headline) (xs : List Item) :
    gather head (xs.map (Item.mapChord f)) =
      ((gather head xs).1.map (Item.mapChord f), (gather head xs).2.map (mapChord f)) := by
  fun_induction gather head xs with
  | case1 => rfl
  | case2 head h xs ho r ih => simp [Item.mapChord, gather, ho, ih, ofHead, mapChord, r]
  | case3 head h xs ho r ih => simp [Item.mapChord, gather, ho, ih, r]
  | case4 head x xs hx r ih =>
    cases x with
    | headline h => exact absurd rfl (hx h)
    | _ => simp [Item.mapChord, gather, ih, r]

theorem ofItems_mapChord (f : Chord → Chord) (xs : List Item) :
    ofItems (xs.map (Item.mapChord f)) = (ofItems xs).map (mapChord f) := by
  rw [ofItems, ofItems, gather_mapChord]
  cases (gather none xs).1 <;> simp [mapChord]

end Section

/-! ## Transposition -/

theorem mapM_ok {α β ε : Type} {f : α → Except ε β} {g : α → β} {xs : List α}
    (h : ∀ x ∈ xs, f x = .ok (g x)) : xs.mapM f = .ok (xs.map g) := by
  induction xs with
  | nil => rfl
  | cons x xs ih =>
    obtain ⟨hx, hxs⟩ := List.forall_mem_cons.mp h
    rw [List.mapM_cons, hx, ih hxs]
    rfl

theorem Item.shift_formed {n : Int} {i : Item} (h : ∀ c, i.chord? = some c → c.Formed) :
    i.shift n = .ok (i.mapChord (Chord.moved n)) := by
  cases i with
  | pair c s => rw [shift, Chord.shift_formed (h c rfl)]; rfl
  | chord c => rw [shift, Chord.shift_formed (h c rfl)]; rfl
  | _ => rfl

namespace Document

/-- Transposition changes the chords, each in its place, and there is no fault. -/
theorem shift_formed {d : Document} (h : ∀ c ∈ d.chords, c.Formed) (n : Int) :
    d.shift n = .ok (d.mapChord (Chord.moved n)) := by
  have hs : ∀ s ∈ d.sections, s.shift n = .ok (s.mapChord (Chord.moved n)) := by
    intro s hs
    have hi : ∀ i ∈ s.items, i.shift n = .ok (i.mapChord (Chord.moved n)) := by
      intro i hi
      refine Item.shift_formed fun c hc => h c ?_
      rw [chords, List.mem_flatMap]
      exact ⟨s, hs, List.mem_filterMap.mpr ⟨i, hi, hc⟩⟩
    rw [Section.shift, mapM_ok hi]
    rfl
  rw [shift, mapM_ok hs]
  rfl

theorem mapChord_moved_zero (d : Document) : d.mapChord (Chord.moved 0) = d := by
  have hi : Item.mapChord (Chord.moved 0) = id := by
    funext i
    cases i <;> simp [Item.mapChord, Chord.moved_zero]
  have hs : Section.mapChord (Chord.moved 0) = id := by
    funext s
    rw [Section.mapChord, hi, List.map_id]
    rfl
  rw [mapChord, hs, List.map_id]

theorem chords_ofTokens (naming : Naming) (ts : List Token) :
    (ofTokens naming ts).chords = (ts.filterMap Token.chord?).map (Chord.read naming) := by
  rw [chords, ofTokens, Section.filterMap_ofItems (fun _ => rfl), Item.chords_ofTokens]

theorem entries_ofTokens (naming : Naming) (ts : List Token) :
    (ofTokens naming ts).entries = ts.filterMap Token.entry? := by
  rw [entries, ofTokens, Section.filterMap_ofItems (fun _ => rfl), Item.entries_ofTokens]

theorem titleOf_ofTokens (naming : Naming) {ts : List Token}
    (h : ∀ h ∈ ts.filterMap Token.headline?, 1 ≤ h.level) :
    titleOf (ofTokens naming ts).heads = titleOf (ts.filterMap Token.headline?) := by
  rw [← Item.headlines_ofTokens naming] at h ⊢
  rw [titleOf, titleOf, heads, ofTokens, Section.find_heads h]

theorem formed_ofTokens (naming : Naming) (ts : List Token) :
    ∀ c ∈ (ofTokens naming ts).chords, c.Formed := by
  intro c hc
  rw [chords_ofTokens] at hc
  obtain ⟨x, -, rfl⟩ := List.mem_map.mp hc
  exact Chord.formed_read naming x

/-! ## Parsing -/

/-- A naming that is given counts, or else the one that the first entry for it asks for. -/
def namingFor (given : Option Naming) (ts : List Token) : Naming :=
  given.getD (Metadata.namingIn (ts.filterMap Token.entry?))

theorem parse_eq_ofTokens {given : Option Naming} {ts : List Token}
    (h : given.isSome ∨ ∀ e ∈ ts.filterMap Token.entry?, ∃ k : Keyword, e.keyword = k.name) :
    parse given ts = .ok (ofTokens (namingFor given ts) ts) := by
  cases given with
  | some naming => rfl
  | none =>
    have hk := h.resolve_left (by simp)
    rw [parse, declaredNaming, Metadata.ofEntries_eq none hk]
    rfl

end Document
end ChordSheet
