import Mathlib.Data.List.Destutter
import ChordSheet.Proofs.Document.Headings
import ChordSheet.Proofs.Sheet.NormalForm

/-! The outline of a song, in its text and in the sheet that has been written of it.

* `Document.outline`: the sections with a head below the titles, without their items.
* `opened`: the headlines that open a section; `Section.heads_ofItems`.
* `destutter_opened`, `opened_eq_destutter`: what is left of the headlines below the titles.
* `Sheet.outline_normalized`: a sheet has the sections that no earlier one takes in. -/
namespace ChordSheet
set_option autoImplicit false

/-! ## Outlines -/

namespace Headline

def trim (h : Headline) : Headline := { h with text := stripRight h.text }

def belowTitle (h : Headline) : Bool := 2 ≤ h.level

theorem belowTitle_iff {h : Headline} : h.belowTitle ↔ 2 ≤ h.level := by
  rw [belowTitle, decide_eq_true_iff]

theorem title_or_below {h : Headline} (h1 : 1 ≤ h.level) :
    h.level = 1 ∧ ¬ h.belowTitle ∨ h.level ≠ 1 ∧ h.belowTitle := by
  rw [belowTitle_iff]
  omega

/-- A headline closes the section of another one unless it is deeper. -/
def ClosedBy (own h : Headline) : Prop := h.level ≤ own.level

instance : DecidableRel ClosedBy := fun own h => Nat.decLe h.level own.level

end Headline

/-- A section with a head, without its items. -/
structure Headed where
  kind : SectionKind
  head : Headline
  deriving DecidableEq, Repr

namespace Headed

def ofHeadline (h : Headline) : Headed := ⟨.ofModifier h.modifier, h.trim⟩

def ClosedBy (own x : Headed) : Prop := own.head.ClosedBy x.head

instance : DecidableRel ClosedBy := fun own x => Nat.decLe x.head.level own.head.level

end Headed

/-- A section with a head, up to blanks behind it. -/
def Section.headed? (s : Section) : Option Headed := s.head.map fun h => ⟨s.kind, h.trim⟩

/-- The sections below the titles. -/
def Document.outline (d : Document) : List Headed :=
  (d.sections.filterMap Section.headed?).filter (·.head.belowTitle)

/-! ## Headlines that open a section -/

def opened (since hs : List Headline) : List Headline :=
  ((marks since hs).filter (·.opens)).map (·.headline)

theorem opened_cons (since : List Headline) (h : Headline) (hs : List Headline) :
    opened since (h :: hs) =
      if noneAbove since h then h :: opened (behind since h) hs
      else opened (behind since h) hs := by
  unfold opened
  rw [marks, List.filter_cons]
  split_ifs <;> rfl

theorem headlines_marks (since hs : List Headline) : (marks since hs).map (·.headline) = hs := by
  induction hs generalizing since with
  | nil => rfl
  | cons h hs ih => rw [marks, List.map_cons, ih]

/-- The first headline opens a section. -/
theorem opened_start (h : Headline) (hs : List Headline) :
    opened [] (h :: hs) = h :: opened (behind [] h) hs := rfl

namespace Section

theorem opens_headings (s : Section) :
    (s.headings.filter (·.opens)).map (·.headline) = s.head.toList := by
  have hsub : (s.subheads.map (Heading.mk · false)).filter (·.opens) = [] := by
    simp [List.filter_map, Function.comp_def]
  rw [headings, List.filter_append, hsub, List.append_nil]
  cases s.head <;> rfl

theorem heads_ofItems {xs : List Item} (hxs : Leveled xs) :
    (ofItems xs).filterMap (·.head) = opened [] (xs.filterMap Item.headline?) := by
  rw [opened, ← headings_ofItems hxs, List.filter_flatMap, List.map_flatMap,
    List.filterMap_eq_flatMap_toList]
  simp only [opens_headings]

end Section

theorem opened_trim (since hs : List Headline) :
    opened (since.map Headline.trim) (hs.map Headline.trim) =
      (opened since hs).map Headline.trim := by
  induction hs generalizing since with
  | nil => rfl
  | cons h hs ih =>
    have hnone : noneAbove (since.map Headline.trim) h.trim = noneAbove since h := by
      rw [noneAbove, List.all_map]
      rfl
    have hbehind : behind (since.map Headline.trim) h.trim =
        (behind since h).map Headline.trim := by
      rw [behind, behind]
      by_cases h1 : h.level = 1
      · rw [if_pos h1, if_pos (show h.trim.level = 1 from h1)]
        rfl
      · rw [if_neg h1, if_neg (show h.trim.level ≠ 1 from h1), List.map_append]
        rfl
    rw [List.map_cons, opened_cons, opened_cons, hnone, hbehind, ih]
    split_ifs <;> rfl

/-! ## Headlines below the titles -/

/-- Behind a head that is no deeper than the headlines since the last title, only what closes it
matters. -/
theorem destutter_opened_from {own : Headline} {since hs : List Headline}
    (hown : ∀ k ∈ since, own.level ≤ k.level) (hl : ∀ k ∈ hs, 1 ≤ k.level) :
    ((opened since hs).filter Headline.belowTitle).destutter' Headline.ClosedBy own =
      (hs.filter Headline.belowTitle).destutter' Headline.ClosedBy own := by
  induction hs generalizing own since with
  | nil => rfl
  | cons h hs ih =>
    obtain ⟨h1, hrest⟩ := List.forall_mem_cons.mp hl
    rw [opened_cons, behind]
    rcases Headline.title_or_below h1 with ⟨ht, hb⟩ | ⟨ht, hb⟩
    · -- behind a title there are no headlines yet
      rw [if_pos ht, List.filter_cons_of_neg hb]
      have hnext : ((opened [] hs).filter Headline.belowTitle).destutter' Headline.ClosedBy own =
          (hs.filter Headline.belowTitle).destutter' Headline.ClosedBy own := ih nofun hrest
      split_ifs
      · rw [List.filter_cons_of_neg hb, hnext]
      · exact hnext
    · rw [if_neg ht, List.filter_cons_of_pos hb]
      by_cases hc : own.ClosedBy h
      · have hopens : noneAbove since h := List.all_eq_true.mpr fun k hk =>
          decide_eq_true (hc.trans (hown k hk))
        have hnext : ∀ k ∈ since ++ [h], h.level ≤ k.level :=
          List.forall_mem_append.mpr ⟨fun k hk => hc.trans (hown k hk), by simp⟩
        rw [if_pos hopens, List.filter_cons_of_pos hb, List.destutter'_cons_pos _ hc,
          List.destutter'_cons_pos _ hc, ih hnext hrest]
      · have hdeep : own.level ≤ h.level := (Nat.lt_of_not_le hc).le
        have hnext : ∀ k ∈ since ++ [h], own.level ≤ k.level :=
          List.forall_mem_append.mpr ⟨hown, by simpa using hdeep⟩
        rw [List.destutter'_cons_neg _ hc]
        split_ifs
        · rw [List.filter_cons_of_pos hb, List.destutter'_cons_neg _ hc, ih hnext hrest]
        · exact ih hnext hrest

theorem destutter_opened {hs : List Headline} (hl : ∀ k ∈ hs, 1 ≤ k.level) :
    ((opened [] hs).filter Headline.belowTitle).destutter Headline.ClosedBy =
      (hs.filter Headline.belowTitle).destutter Headline.ClosedBy := by
  induction hs with
  | nil => rfl
  | cons h hs ih =>
    obtain ⟨h1, hrest⟩ := List.forall_mem_cons.mp hl
    rw [opened_start, behind]
    rcases Headline.title_or_below h1 with ⟨ht, hb⟩ | ⟨ht, hb⟩
    · rw [if_pos ht, List.filter_cons_of_neg hb, List.filter_cons_of_neg hb, ih hrest]
    · have hown : ∀ k ∈ [] ++ [h], h.level ≤ k.level := by simp
      rw [if_neg ht, List.filter_cons_of_pos hb, List.filter_cons_of_pos hb,
        List.destutter_cons', List.destutter_cons', destutter_opened_from hown hrest]

/-- Below a head that stands open, without titles. -/
theorem cons_opened {own : Headline} {since hs : List Headline} (ht : Tracks (some own) since)
    (hown : own.level ≠ 1) (hl : ∀ k ∈ hs, k.belowTitle) :
    own :: opened since hs = hs.destutter' Headline.ClosedBy own := by
  induction hs generalizing own since with
  | nil => rfl
  | cons h hs ih =>
    obtain ⟨hb, hrest⟩ := List.forall_mem_cons.mp hl
    rw [Headline.belowTitle_iff] at hb
    have hstep := ht.step (h := h) (by omega)
    have hopens : opensSection (some own) h = decide (own.ClosedBy h) := by
      simp [opensSection, hown, Headline.ClosedBy]
    rw [opened_cons, ← ht.opensSection_eq, hopens]
    rw [hopens] at hstep
    by_cases hc : own.ClosedBy h
    · rw [if_pos (decide_eq_true hc)] at hstep ⊢
      rw [List.destutter'_cons_pos _ hc, ih hstep (by omega) hrest]
    · rw [if_neg (by simp [hc])] at hstep ⊢
      rw [List.destutter'_cons_neg _ hc, ih hstep hown hrest]

theorem opened_eq_destutter {hs : List Headline} (hl : ∀ k ∈ hs, k.belowTitle) :
    opened [] hs = hs.destutter Headline.ClosedBy := by
  cases hs with
  | nil => rfl
  | cons h hs =>
    obtain ⟨hb, hrest⟩ := List.forall_mem_cons.mp hl
    rw [Headline.belowTitle_iff] at hb
    have ht : Tracks (some h) ([] ++ [h]) := .highest hb (by simp) (by simp)
    rw [opened_start, behind, if_neg (by omega), cons_opened ht (by omega) hrest,
      List.destutter_cons']

/-! ## Documents -/

/-- The outline of headlines that stand one after the other. -/
def outlineOf (hs : List Headline) : List Headed :=
  ((opened [] hs).filter Headline.belowTitle).map Headed.ofHeadline

theorem outlineOf_trim (hs : List Headline) : outlineOf (hs.map Headline.trim) = outlineOf hs := by
  have htrim : Headed.ofHeadline ∘ Headline.trim = Headed.ofHeadline := by
    funext h
    simp [Headed.ofHeadline, Headline.trim]
  have hopened := opened_trim [] hs
  rw [List.map_nil] at hopened
  rw [outlineOf, hopened, List.filter_map, List.map_map, htrim]
  rfl

theorem destutter_ofHeadline (hs : List Headline) :
    (hs.map Headed.ofHeadline).destutter Headed.ClosedBy =
      (hs.destutter Headline.ClosedBy).map Headed.ofHeadline := by
  have hclosed : ∀ h k, h.ClosedBy k ↔ (Headed.ofHeadline h).ClosedBy (.ofHeadline k) :=
    fun _ _ => Iff.rfl
  exact (List.map_destutter fun h _ k _ => hclosed h k).symm

/-- What no earlier section takes in, told from the headlines below the titles. -/
theorem destutter_outlineOf {hs : List Headline} (hl : ∀ k ∈ hs, 1 ≤ k.level) :
    (outlineOf hs).destutter Headed.ClosedBy =
      outlineOf (hs.filter Headline.belowTitle) := by
  have hbelow : ∀ k ∈ hs.filter Headline.belowTitle, k.belowTitle := fun k hk =>
    (List.mem_filter.mp hk).2
  have hall : (opened [] (hs.filter Headline.belowTitle)).filter Headline.belowTitle =
      opened [] (hs.filter Headline.belowTitle) := by
    rw [opened_eq_destutter hbelow]
    exact List.filter_eq_self.mpr fun k hk => hbelow k ((List.destutter_sublist _ _).subset hk)
  rw [outlineOf, destutter_ofHeadline, destutter_opened hl, outlineOf, hall,
    opened_eq_destutter hbelow]

theorem outlineOf_title {h : Headline} (h1 : h.level = 1) (hs : List Headline) :
    outlineOf (h :: hs) = outlineOf hs := by
  have hb : ¬ h.belowTitle := by simp [Headline.belowTitle_iff, h1]
  rw [outlineOf, opened_start, behind, if_pos h1, List.filter_cons_of_neg hb, outlineOf]

/-- Where no title stands behind other headlines, no section takes in another one. -/
theorem isChain_outlineOf {hs : List Headline} (hl : ∀ k ∈ hs, 1 ≤ k.level)
    (h : hs.Pairwise fun x y => y.level = 1 → x.level = 1) :
    (outlineOf hs).IsChain Headed.ClosedBy := by
  induction hs with
  | nil => exact .nil
  | cons k ks ih =>
    obtain ⟨hfirst, hrest⟩ := List.pairwise_cons.mp h
    by_cases h1 : k.level = 1
    · rw [outlineOf_title h1]
      exact ih (List.forall_mem_cons.mp hl).2 hrest
    · have hbelow : ∀ x ∈ k :: ks, x.belowTitle := by
        intro x hx
        have hx1 := hl x hx
        have hne : x.level ≠ 1 := by
          rcases List.mem_cons.mp hx with rfl | hx
          · exact h1
          · exact fun hx1 => h1 (hfirst x hx hx1)
        exact Headline.belowTitle_iff.mpr (by omega)
      have hself := destutter_outlineOf hl
      rw [List.filter_eq_self.mpr hbelow] at hself
      exact (List.destutter_eq_self_iff _ _).mp hself

namespace Document

theorem outline_ofTokens (naming : Naming) {ts : List Token}
    (h : ∀ k ∈ ts.filterMap Token.headline?, 1 ≤ k.level) :
    (ofTokens naming ts).outline = outlineOf (ts.filterMap Token.headline?) := by
  rw [← Item.headlines_ofTokens naming] at h ⊢
  have hheaded : (ofTokens naming ts).sections.filterMap Section.headed? =
      ((ofTokens naming ts).sections.filterMap (·.head)).map Headed.ofHeadline := by
    rw [List.map_filterMap]
    refine List.filterMap_congr fun s hs => ?_
    have hkind := (Section.nested_ofItems h s hs).kind
    rw [Section.headed?, hkind]
    cases s.head <;> rfl
  rw [outline, hheaded, ofTokens, Section.heads_ofItems h, List.filter_map]
  rfl

theorem headlines_ofTokens (naming : Naming) {ts : List Token}
    (h : ∀ k ∈ ts.filterMap Token.headline?, 1 ≤ k.level) :
    (ofTokens naming ts).headings.map (·.headline) = ts.filterMap Token.headline? := by
  rw [← Item.headlines_ofTokens naming] at h ⊢
  rw [headings, ofTokens, Section.headings_ofItems h, headlines_marks]

theorem exists_ofText_outline (s : Text) : ∃ d, ofText s = .ok d ∧
    d.headings.map (·.headline) = headlinesIn (linesOf s) ∧
    d.outline = outlineOf (headlinesIn (linesOf s)) := by
  have hh : ([.newline].intercalate (linesOf s)).filterMap Token.headline? =
      headlinesIn (linesOf s) := found_intercalate _ rfl _
  have hl := one_le_level (readable_linesOf s)
  refine ⟨_, ofText_eq s, ?_, ?_⟩
  · rw [headlines_ofTokens _ hl, hh]
  · rw [outline_ofTokens _ hl, hh]

end Document

/-! ## Sheets -/

theorem headlinesIn_lay {l : List Token} (hl : Readable l) (head : Option Headline) :
    headlinesIn (Line.lay head l) = (l.filterMap Token.headline?).filter Headline.belowTitle := by
  cases hl with
  | @headline h h1 =>
    have hgap : headlinesIn (if opensSection head h then [[]] else []) = [] := by
      split_ifs <;> rfl
    have hline : [Token.headline h].filterMap Token.headline? = [h] := rfl
    rw [Line.lay, headlinesIn, found_append, ← headlinesIn, ← headlinesIn, hgap, List.nil_append,
      hline]
    rcases Headline.title_or_below h1 with ⟨ht, hb⟩ | ⟨ht, hb⟩
    · rw [if_pos ht, List.filter_cons_of_neg hb]
      rfl
    · rw [if_neg ht, List.filter_cons_of_pos hb]
      rfl
  | quote => rfl
  | entry => rfl
  | body hp =>
    rw [lay_body hp, headlinesIn, found_cons, hp.not_special.1]
    rfl

/-- The body of a sheet has the headlines below the titles. -/
theorem headlinesIn_arrange {ls : List (List Token)} (h : ∀ l ∈ ls, Readable l)
    (head : Option Headline) :
    headlinesIn (arrange head ls) = (headlinesIn ls).filter Headline.belowTitle := by
  induction ls generalizing head with
  | nil => rfl
  | cons l ls ih =>
    obtain ⟨hl, hls⟩ := List.forall_mem_cons.mp h
    rw [arrange, headlinesIn, found_append, ← headlinesIn, ← headlinesIn, headlinesIn_lay hl,
      ih hls, ← List.filter_append]
    rfl

theorem headlinesIn_rewrite (w : Text → Text) (ls : List (List Token)) :
    headlinesIn (ls.map (Line.rewrite w)) = headlinesIn ls := by
  have hl : ∀ l : List Token,
      (Line.rewrite w l).filterMap Token.headline? = l.filterMap Token.headline? := by
    intro l
    rw [Line.rewrite, List.filterMap_map]
    congr 1
    funext t
    cases t <;> rfl
  rw [headlinesIn, headlinesIn, found, found, List.flatMap_map]
  simp only [hl]

namespace Sheet

/-- The outline of what is printed is that of the headlines below the titles. -/
theorem outlineOf_print {m : Metadata} (hm : m.Sound) (naming : Naming) {ls : List (List Token)}
    (h : ∀ l ∈ ls, Readable l) :
    outlineOf (headlinesIn (linesOf (print (page m naming ls)))) =
      outlineOf ((headlinesIn ls).filter Headline.belowTitle) := by
  have htrim := map_headlines_trimEnd (g := Headline.trim) (fun h => by simp [Headline.trim])
    (page m naming ls)
  rw [(found_print naming hm h).2.1, ← outlineOf_trim, htrim, outlineOf_trim, page, headerLines,
    headerOf, headlinesIn, found_append, found_append, ← headlinesIn, ← headlinesIn, ← headlinesIn,
    (entries_found _).2.1, List.append_nil]
  have hbody : headlinesIn ([] :: arrange none ls) = (headlinesIn ls).filter Headline.belowTitle :=
    headlinesIn_arrange h none
  rw [hbody]
  cases m.title with
  | none => rfl
  | some t => exact outlineOf_title rfl _

/-- The sections of a sheet are those of its text, without the ones that are deeper than the last
one kept; so they are the same just when none is deeper than the one before it, and always if no
title stands behind other headlines. -/
theorem outline_normalized (s : Text) (naming : Naming) :
    ∃ d u e, Document.ofText s = .ok d ∧ convert s none (sheetFormat naming) = .ok u ∧
      Document.ofText u = .ok e ∧ e.outline = d.outline.destutter Headed.ClosedBy ∧
      (e.outline = d.outline ↔ d.outline.IsChain Headed.ClosedBy) ∧
      ((d.headings.map (·.headline)).Pairwise (fun x y => y.level = 1 → x.level = 1) →
        e.outline = d.outline) := by
  obtain ⟨d, hd, hheadlines, hout⟩ := Document.exists_ofText_outline s
  obtain ⟨e, he, -, hagain⟩ := Document.exists_ofText_outline (transposed s 0 naming)
  have hread := readable_linesOf s
  have hlevels : ∀ k ∈ headlinesIn (linesOf s), 1 ≤ k.level := fun k hk =>
    (sound_of_mem hread k hk).1
  have heq : e.outline = d.outline.destutter Headed.ClosedBy := by
    rw [hagain, transposed, outlineOf_print (sound_metadataIn hread) naming
      (readable_rewritten s 0 naming), headlinesIn_rewrite, hout, destutter_outlineOf hlevels]
  have hiff : e.outline = d.outline ↔ d.outline.IsChain Headed.ClosedBy := by
    rw [heq]
    exact List.destutter_eq_self_iff _ _
  refine ⟨d, _, e, hd, convert_eq s naming, he, heq, hiff, fun htitles => hiff.mpr ?_⟩
  rw [hheadlines] at htitles
  rw [hout]
  exact isChain_outlineOf hlevels htitles

/-- A title that stood between two headlines does not keep them apart any more. -/
theorem outline_taken_in :
    (Document.ofText "## A\n# T\n### B".toList).map Document.outline =
        .ok [⟨.unknown, ⟨2, ['A'], .none⟩⟩, ⟨.unknown, ⟨3, ['B'], .none⟩⟩] ∧
      convert "## A\n# T\n### B".toList none (sheetFormat .b) =
        .ok "# T\n\n## A\n\n### B\n".toList ∧
      (Document.ofText "# T\n\n## A\n\n### B\n".toList).map Document.outline =
        .ok [⟨.unknown, ⟨2, ['A'], .none⟩⟩] := by
  refine ⟨?_, ?_, ?_⟩ <;> rfl

end Sheet
end ChordSheet
