import Mathlib.Data.List.DropRight
import ChordSheet.Proofs.Document.Items

/-! Which headlines open a section, told from their levels alone.

* `Heading`, `Document.headings`: the headlines of a document, heads and others, in their order.
* `sinceTitle`, `headingsOf`: a headline opens a section if none since the last title is higher up.
* `Tracks`: the open head is the highest of the headlines since the last title.
* `Section.headings_ofItems`: grouping follows that rule.
* `Section.Nested`, `Section.nested_ofItems`: where headlines inside a section can stand.
* `Document.headings_parse`: both, for all tokens that have levels. -/
namespace ChordSheet
set_option autoImplicit false

/-! ## Headings -/

/-- A headline, and whether it opens a section. -/
structure Heading where
  headline : Headline
  opens : Bool
  deriving DecidableEq, Repr

namespace Section

/-- The headlines among the items, which open no section. -/
def subheads (s : Section) : List Headline := s.items.filterMap Item.headline?

def headings (s : Section) : List Heading :=
  (s.head.map (Heading.mk · true)).toList ++ s.subheads.map (Heading.mk · false)

end Section

def Document.headings (d : Document) : List Heading := d.sections.flatMap Section.headings

/-- The headlines behind the last title, or all if there is none. -/
def sinceTitle (hs : List Headline) : List Headline := hs.rtakeWhile (·.level != 1)

def noneAbove (hs : List Headline) (h : Headline) : Bool := hs.all (h.level ≤ ·.level)

/-- A headline at some position opens a section just when no headline since the last title before it
has a smaller level. -/
def headingsOf (ts : List Token) : List Heading :=
  ts.zipIdx.filterMap fun (t, j) => t.headline?.map fun h =>
    ⟨h, noneAbove (sinceTitle ((ts.take j).filterMap Token.headline?)) h⟩

/-! ## Headlines one after the other -/

/-- The headlines since the last title, behind one more headline. -/
def behind (since : List Headline) (h : Headline) : List Headline :=
  if h.level = 1 then [] else since ++ [h]

theorem sinceTitle_concat (hs : List Headline) (h : Headline) :
    sinceTitle (hs ++ [h]) = behind (sinceTitle hs) h := by
  unfold sinceTitle behind
  rw [List.rtakeWhile_concat]
  by_cases hl : h.level = 1
  · rw [if_neg (by simp [hl]), if_pos hl]
  · rw [if_pos (by simp [hl]), if_neg hl]

def marks (since : List Headline) : List Headline → List Heading
  | [] => []
  | h :: hs => ⟨h, noneAbove since h⟩ :: marks (behind since h) hs

/-- The tokens `us` have been passed. -/
theorem headingsOf_from (us ts : List Token) :
    ((ts.zipIdx us.length).filterMap fun (t, j) => t.headline?.map fun h =>
        Heading.mk h (noneAbove (sinceTitle (((us ++ ts).take j).filterMap Token.headline?)) h)) =
      marks (sinceTitle (us.filterMap Token.headline?)) (ts.filterMap Token.headline?) := by
  induction ts generalizing us with
  | nil => rfl
  | cons t ts ih =>
    have hrest := ih (us ++ [t])
    rw [List.length_append, List.length_singleton, List.append_assoc, List.singleton_append] at hrest
    rw [List.zipIdx_cons, List.filterMap_cons, List.filterMap_cons, hrest]
    have htake : (us ++ t :: ts).take us.length = us := List.take_left
    cases ht : t.headline? with
    | none => simp [ht, List.filterMap_append]
    | some h =>
      simp only [ht, Option.map_some, htake, List.filterMap_append, marks]
      rw [← sinceTitle_concat]
      simp [ht]

theorem headingsOf_eq (ts : List Token) :
    headingsOf ts = marks [] (ts.filterMap Token.headline?) := headingsOf_from [] ts

/-! ## The open head -/

/-- The open head is the highest headline since the last title; behind a title, or at the start,
there are none. -/
inductive Tracks : Option Headline → List Headline → Prop
  | start : Tracks none []
  | title {own : Headline} (hl : own.level = 1) : Tracks (some own) []
  | highest {own : Headline} {since : List Headline} (hl : 1 < own.level) (hm : own ∈ since)
      (hle : ∀ k ∈ since, own.level ≤ k.level) : Tracks (some own) since

namespace Tracks
variable {head : Option Headline} {since : List Headline}

theorem opensSection_eq (ht : Tracks head since) (h : Headline) :
    opensSection head h = noneAbove since h := by
  unfold opensSection noneAbove
  cases ht with
  | start => rfl
  | title hl => simp [hl]
  | @highest own since hl hm hle =>
    rw [Bool.eq_iff_iff, List.all_eq_true]
    simp only [Bool.or_eq_true, beq_iff_eq, hl.ne', false_or, decide_eq_true_eq]
    constructor
    · intro h' k hk
      exact h'.trans (hle k hk)
    · intro h'
      exact h' own hm

/-- One more headline, which opens a section or does not. -/
theorem step (ht : Tracks head since) {h : Headline} (hl : 1 ≤ h.level) :
    Tracks (if opensSection head h then some h else head) (behind since h) := by
  have hopens := ht.opensSection_eq h
  unfold behind
  by_cases ho : opensSection head h
  · rw [if_pos ho]
    by_cases h1 : h.level = 1
    · rw [if_pos h1]
      exact .title h1
    · rw [if_neg h1]
      rw [ho] at hopens
      have hall := List.all_eq_true.mp hopens.symm
      refine .highest (by omega) (by simp) ?_
      intro k hk
      rcases List.mem_append.mp hk with hk | hk
      · exact of_decide_eq_true (hall k hk)
      · rw [List.mem_singleton.mp hk]
  · rw [if_neg ho]
    cases ht with
    | start => exact absurd rfl ho
    | title h1 => simp [opensSection, h1] at ho
    | @highest own since h1 hm hle =>
      have hdeep : own.level < h.level := by simpa [opensSection, h1.ne'] using ho
      have hne : h.level ≠ 1 := by omega
      rw [if_neg hne]
      refine .highest h1 (List.mem_append_left _ hm) ?_
      intro k hk
      rcases List.mem_append.mp hk with hk | hk
      · exact hle k hk
      · rw [List.mem_singleton.mp hk]
        exact hdeep.le

end Tracks

/-! ## Grouping -/

/-- Items whose headlines have levels. -/
def Leveled (xs : List Item) : Prop := ∀ h ∈ xs.filterMap Item.headline?, 1 ≤ h.level

theorem leveled_cons {x : Item} {xs : List Item} (h : Leveled (x :: xs)) : Leveled xs := by
  intro k hk
  refine h k ?_
  rw [List.filterMap_cons]
  cases x.headline? with
  | none => exact hk
  | some _ => exact List.mem_cons_of_mem _ hk

theorem leveled_head {h : Headline} {xs : List Item} (hx : Leveled (.headline h :: xs)) :
    1 ≤ h.level := hx h (by simp [Item.headline?])

namespace Section

theorem headings_ofHead (h : Headline) (items : List Item) :
    (ofHead h items).headings =
      ⟨h, true⟩ :: (items.filterMap Item.headline?).map (Heading.mk · false) := rfl

/-- The headlines of the open section and of those that follow it. -/
theorem headings_gather {head : Option Headline} {xs : List Item} (hxs : Leveled xs) :
    ∀ {since : List Headline}, Tracks head since →
      ((gather head xs).1.filterMap Item.headline?).map (Heading.mk · false) ++
          (gather head xs).2.flatMap headings =
        marks since (xs.filterMap Item.headline?) := by
  fun_induction gather head xs with
  | case1 => exact fun _ => rfl
  | case2 head h xs ho r ih =>
    intro since ht
    have hstep := ht.step (leveled_head hxs)
    rw [if_pos ho] at hstep
    have hrest := ih (leveled_cons hxs) hstep
    have hmark : noneAbove since h = true := by rw [← ht.opensSection_eq, ho]
    rw [List.filterMap_nil, List.map_nil, List.nil_append, List.flatMap_cons, headings_ofHead,
      List.cons_append, hrest, List.filterMap_cons, Item.headline?, marks, hmark]
  | case3 head h xs ho r ih =>
    intro since ht
    have hstep := ht.step (leveled_head hxs)
    rw [if_neg ho] at hstep
    have hrest := ih (leveled_cons hxs) hstep
    have hmark : noneAbove since h = false := by
      rw [← ht.opensSection_eq]
      simpa using ho
    rw [List.filterMap_cons, List.filterMap_cons, Item.headline?, List.map_cons, List.cons_append,
      hrest, marks, hmark]
  | case4 head x xs hx r ih =>
    intro since ht
    have hn : Item.headline? x = none := by
      cases x with
      | headline h => exact absurd rfl (hx h)
      | _ => rfl
    rw [List.filterMap_cons, List.filterMap_cons, hn]
    exact ih (leveled_cons hxs) ht

theorem headings_ofItems {xs : List Item} (hxs : Leveled xs) :
    (ofItems xs).flatMap headings = marks [] (xs.filterMap Item.headline?) := by
  rw [← headings_gather hxs .start, ofItems]
  cases (gather none xs).1 <;> simp [headings, subheads]

/-! ## Headlines inside a section -/

/-- What a section can have inside, and of which kind it is. -/
structure Nested (s : Section) : Prop where
  titles : ∀ h ∈ s.subheads, h.level ≠ 1
  bare : s.head = none ∨ (∃ own, s.head = some own ∧ own.level = 1) → s.subheads = []
  deeper : ∀ own, s.head = some own → ∀ h ∈ s.subheads, own.level < h.level
  kind : s.kind = (s.head.map (SectionKind.ofModifier ·.modifier)).getD .unknown

/-- Items that stand below a head and open no section. -/
def Below (head : Option Headline) (items : List Item) : Prop :=
  ∀ h ∈ items.filterMap Item.headline?, opensSection head h = false

theorem below_nil {head : Option Headline} : Below head [] := by
  intro k hk
  cases hk

theorem Below.nested {head : Option Headline} {items : List Item} (h : Below head items)
    (hl : ∀ own, head = some own → 1 ≤ own.level) :
    Nested ⟨head, items, (head.map (SectionKind.ofModifier ·.modifier)).getD .unknown⟩ := by
  have hdeep : ∀ k ∈ items.filterMap Item.headline?,
      ∃ own, head = some own ∧ own.level ≠ 1 ∧ own.level < k.level := by
    intro k hk
    have ho := h k hk
    cases head with
    | none => cases ho
    | some own =>
      simp only [opensSection, Bool.or_eq_false_iff, beq_eq_false_iff_ne, decide_eq_false_iff_not,
        Nat.not_le] at ho
      exact ⟨own, rfl, ho⟩
  constructor
  · intro k hk
    obtain ⟨own, ho, -, hlt⟩ := hdeep k hk
    have := hl own ho
    omega
  · intro hhead
    refine List.eq_nil_iff_forall_not_mem.mpr fun k hk => ?_
    obtain ⟨own, ho, h1, -⟩ := hdeep k hk
    rcases hhead with hn | ⟨own', ho', h1'⟩
    · exact Option.some_ne_none own (ho.symm.trans hn)
    · obtain rfl : own = own' := Option.some.inj (ho.symm.trans ho')
      exact h1 h1'
  · intro own ho k hk
    obtain ⟨own', ho', -, hlt⟩ := hdeep k hk
    obtain rfl : own' = own := Option.some.inj (ho'.symm.trans ho)
    exact hlt
  · rfl

theorem Nested.opens_of_title {s : Section} (hs : s.Nested) {x : Heading} (hx : x ∈ s.headings)
    (h1 : x.headline.level = 1) : x.opens = true := by
  rw [headings, List.mem_append] at hx
  rcases hx with hx | hx
  · obtain ⟨own, -, rfl⟩ := Option.map_eq_some_iff.mp (Option.mem_toList.mp hx)
    rfl
  · obtain ⟨k, hk, rfl⟩ := List.mem_map.mp hx
    exact absurd h1 (hs.titles k hk)

theorem nested_gather (head : Option Headline) {xs : List Item} (hxs : Leveled xs) :
    Below head (gather head xs).1 ∧ ∀ s ∈ (gather head xs).2, s.Nested := by
  fun_induction gather head xs with
  | case1 => exact ⟨below_nil, fun s hs => by cases hs⟩
  | case2 head h xs ho r ih =>
    obtain ⟨hbelow, hnested⟩ := ih (leveled_cons hxs)
    refine ⟨below_nil, ?_⟩
    intro s hs
    rcases List.mem_cons.mp hs with rfl | hs
    · refine hbelow.nested ?_
      rintro _ ⟨⟩
      exact leveled_head hxs
    · exact hnested s hs
  | case3 head h xs ho r ih =>
    obtain ⟨hbelow, hnested⟩ := ih (leveled_cons hxs)
    refine ⟨?_, hnested⟩
    intro k hk
    rcases List.mem_cons.mp hk with rfl | hk
    · simpa using ho
    · exact hbelow k hk
  | case4 head x xs hx r ih =>
    obtain ⟨hbelow, hnested⟩ := ih (leveled_cons hxs)
    refine ⟨?_, hnested⟩
    have hn : Item.headline? x = none := by
      cases x with
      | headline h => exact absurd rfl (hx h)
      | _ => rfl
    intro k hk
    rw [List.filterMap_cons, hn] at hk
    exact hbelow k hk

theorem nested_ofItems {xs : List Item} (hxs : Leveled xs) : ∀ s ∈ ofItems xs, s.Nested := by
  obtain ⟨hbelow, hnested⟩ := nested_gather none hxs
  intro s hs
  rw [ofItems] at hs
  by_cases hn : (gather none xs).1.isEmpty
  · rw [if_pos hn] at hs
    exact hnested s hs
  · rw [if_neg hn] at hs
    rcases List.mem_cons.mp hs with rfl | hs
    · refine hbelow.nested fun own hown => ?_
      cases hown
    · exact hnested s hs

end Section

/-! ## Documents -/

namespace Document

/-- The headlines of a parsed document are those of its tokens, and each opens a section just when
none since the last title is above it; inside a section there are only deeper ones, and none inside
a title or before all heads. -/
theorem headings_parse (naming : Naming) (ts : List Token)
    (h : ∀ k ∈ ts.filterMap Token.headline?, 1 ≤ k.level) :
    ∃ d, parse (some naming) ts = .ok d ∧ d.headings = headingsOf ts ∧
      (∀ x ∈ d.headings, x.headline.level = 1 → x.opens = true) ∧ ∀ s ∈ d.sections, s.Nested := by
  have hlevels : Leveled (Item.ofTokens naming ts) := by
    rw [Leveled, Item.headlines_ofTokens]
    exact h
  have hnested := Section.nested_ofItems hlevels
  refine ⟨ofTokens naming ts, rfl, ?_, ?_, hnested⟩
  · rw [headings, ofTokens, Section.headings_ofItems hlevels, Item.headlines_ofTokens,
      headingsOf_eq]
  · intro x hx h1
    obtain ⟨s, hs, hxs⟩ := List.mem_flatMap.mp hx
    exact (hnested s hs).opens_of_title hxs h1

/-- Behind a text, sections of level 3 and 2 with deeper headlines in one of them, then a title with
sections of its own. -/
theorem headings_parse_two_songs :
    ∃ d, parse (some .h)
        [.literal ['x'], .headline ⟨3, ['a'], .none⟩, .newline, .headline ⟨2, ['b'], .chorus⟩,
          .headline ⟨4, ['c'], .bridge⟩, .chord ['B'], .headline ⟨3, ['d'], .none⟩,
          .headline ⟨2, ['e'], .bridge⟩, .headline ⟨1, ['f'], .none⟩, .newline, .newline,
          .headline ⟨6, ['g'], .none⟩, .headline ⟨7, ['h'], .none⟩,
          .headline ⟨5, ['i'], .none⟩] = .ok d ∧
      d.headings =
        [⟨⟨3, ['a'], .none⟩, true⟩, ⟨⟨2, ['b'], .chorus⟩, true⟩, ⟨⟨4, ['c'], .bridge⟩, false⟩,
          ⟨⟨3, ['d'], .none⟩, false⟩, ⟨⟨2, ['e'], .bridge⟩, true⟩, ⟨⟨1, ['f'], .none⟩, true⟩,
          ⟨⟨6, ['g'], .none⟩, true⟩, ⟨⟨7, ['h'], .none⟩, false⟩, ⟨⟨5, ['i'], .none⟩, true⟩] ∧
      (∀ x ∈ d.headings, x.headline.level = 1 → x.opens = true) ∧ ∀ s ∈ d.sections, s.Nested := by
  obtain ⟨d, hd, hh, hs⟩ := headings_parse .h
    [.literal ['x'], .headline ⟨3, ['a'], .none⟩, .newline, .headline ⟨2, ['b'], .chorus⟩,
      .headline ⟨4, ['c'], .bridge⟩, .chord ['B'], .headline ⟨3, ['d'], .none⟩,
      .headline ⟨2, ['e'], .bridge⟩, .headline ⟨1, ['f'], .none⟩, .newline, .newline,
      .headline ⟨6, ['g'], .none⟩, .headline ⟨7, ['h'], .none⟩, .headline ⟨5, ['i'], .none⟩]
    (by decide)
  refine ⟨d, hd, ?_, hs⟩
  rw [hh]
  decide

end Document
end ChordSheet
