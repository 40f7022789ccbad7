import ChordSheet.Proofs.Document.Headings
import ChordSheet.Proofs.Markup.Fragment

/-! Where the markup of a song has a heading of the first level: at its title, and nowhere else.

* `occurrences`: how often one text stands in another.
* `Markup.Adds`: a text adds to the occurrences of another one, wherever it stands.
* `Markup.adds_tag`: tags of other names add none; `Markup.adds_item`, `Markup.adds_part`.
* `Document.nested_ofText`: no headline of a text stands as a title inside a section.
* `Markup.title_once`: so the title is shown once, if there is one, and nothing else like it. -/
namespace ChordSheet
set_option autoImplicit false

/-- How often `p`, which is not empty, stands in a text. -/
def occurrences (p s : Text) : Nat := s.tails.countP (p.isPrefixOf ·)

theorem occurrences_cons (p : Text) (c : Char) (s : Text) :
    occurrences p (c :: s) = (if p.isPrefixOf (c :: s) then 1 else 0) + occurrences p s := by
  rw [occurrences, List.tails, List.countP_cons, Nat.add_comm]
  rfl

namespace Markup

/-- Wherever the text stands, there are `n` occurrences of `p` that begin in it. -/
def Adds (p s : Text) (n : Nat) : Prop :=
  ∀ rest, occurrences p (s ++ rest) = n + occurrences p rest

theorem adds_nil (p : Text) : Adds p [] 0 := fun _ => (Nat.zero_add _).symm

section Adds
variable {p s t : Text} {m n : Nat}

theorem Adds.append (hs : Adds p s m) (ht : Adds p t n) : Adds p (s ++ t) (m + n) := by
  intro rest
  rw [List.append_assoc, hs, ht, Nat.add_assoc]

theorem adds_flatMap {α : Type} {f : α → Text} {xs : List α} (h : ∀ x ∈ xs, Adds p (f x) 0) :
    Adds p (xs.flatMap f) 0 := by
  induction xs with
  | nil => exact adds_nil p
  | cons x xs ih =>
    obtain ⟨hx, hxs⟩ := List.forall_mem_cons.mp h
    exact hx.append (ih hxs)

theorem Adds.occurrences_eq (h : Adds p s n) (hp : p ≠ []) : occurrences p s = n := by
  have hs := h []
  rw [List.append_nil] at hs
  rw [hs]
  cases p with
  | nil => exact absurd rfl hp
  | cons c p => rfl

end Adds

/-! ## Tags -/

/-- The start of a heading of the first level, with or without attributes, and the tag without. -/
def titleTags : List Text := ["<h1".toList, "<h1>".toList]

theorem between_titleTags {p : Text} (hp : p ∈ titleTags) :
    "<h1".toList <+: p ∧ p <+: "<h1>".toList := by
  have hall : ∀ p ∈ titleTags, "<h1".toList <+: p ∧ p <+: "<h1>".toList := by decide
  exact hall p hp

theorem not_isPrefixOf_of_name {p t : Text} (hp : p ∈ titleTags) (ht : ¬ ['h', '1'] <+: t) :
    ¬ p.isPrefixOf ('<' :: t) := by
  intro h
  have hstart := (between_titleTags hp).1.trans (List.isPrefixOf_iff_prefix.mp h)
  exact ht (List.cons_prefix_cons.mp hstart).2

section Tags
variable {p : Text} (hp : p ∈ titleTags)
include hp

/-- Without an angle there is no tag. -/
theorem adds_plain {s : Text} (hs : '<' ∉ s) : Adds p s 0 := by
  obtain ⟨q, rfl⟩ := (between_titleTags hp).1
  induction s with
  | nil => exact adds_nil _
  | cons c s ih =>
    rw [List.mem_cons, not_or] at hs
    intro rest
    have hc : ¬ List.isPrefixOf ("<h1".toList ++ q) (c :: (s ++ rest)) := by simp [hs.1]
    rw [List.cons_append, occurrences_cons, if_neg hc, ih hs.2, Nat.zero_add]

theorem adds_escape (s : Text) : Adds p (Html.escape s) 0 :=
  adds_plain hp (not_mem_escape (by decide) s)

/-- A tag of another name, from angle to angle. -/
theorem adds_angles {t : Text} (ht : '<' ∉ t) (hn : ∀ u, ¬ ['h', '1'] <+: t ++ u) :
    Adds p ('<' :: t) 0 := by
  intro rest
  rw [List.cons_append, occurrences_cons, if_neg (not_isPrefixOf_of_name hp (hn rest)), Nat.zero_add]
  exact adds_plain hp ht rest

variable {name : Text} (hname : isName name)
include hname

theorem adds_tagWith (hn : ∀ u, ¬ ['h', '1'] <+: name ++ u) {as : List (Text × Text)}
    (ha : ∀ a ∈ as, isName (dashed a.1)) {content : Text} {n : Nat} (hc : Adds p content n) :
    Adds p (Html.tagWith name (assigned as) content) n := by
  have hletters : '<' ∉ name := not_mem_name (by decide) hname
  have hopening : Adds p ('<' :: (name ++ (assigned as ++ ['>']))) 0 := by
    refine adds_angles hp ?_ fun u => ?_
    · have hattributes : '<' ∉ assigned as := not_mem_assigned (by decide) ha
      simp [hletters, hattributes]
    · rw [List.append_assoc]
      exact hn _
  have hclosing : Adds p ('<' :: ('/' :: (name ++ ['>']))) 0 :=
    adds_angles hp (by simp [hletters]) fun u => by simp
  have hshape : Html.tagWith name (assigned as) content =
      '<' :: (name ++ (assigned as ++ ['>'])) ++ content ++ '<' :: ('/' :: (name ++ ['>'])) := by
    simp [Html.tagWith]
  rw [hshape, ← Nat.zero_add n]
  exact (hopening.append hc).append hclosing

theorem adds_tag (hn : ∀ u, ¬ ['h', '1'] <+: name ++ u) (className : Option Text)
    {as : List (Text × Text)} (ha : ∀ a ∈ as, isName (dashed a.1)) {content : Text} {n : Nat}
    (hc : Adds p content n) : Adds p (Html.tag name content className as) n := by
  rw [tag_eq_tagWith]
  exact adds_tagWith hp hname hn (isName_class_append className ha) hc

theorem adds_classed (hn : ∀ u, ¬ ['h', '1'] <+: name ++ u) (className : Option Text)
    {content : Text} {n : Nat} (hc : Adds p content n) :
    Adds p (Html.tag name content className []) n :=
  adds_tag hp hname hn className (List.forall_mem_nil _) hc

end Tags

/-! ## Items -/

section Items
variable {p : Text} (hp : p ∈ titleTags)
include hp

theorem adds_div (className : Text) {content : Text} (hc : Adds p content 0) :
    Adds p (Html.div className content) 0 := adds_classed hp isName_div (by simp) (some className) hc

theorem adds_span (className : Option Text) (s : Text) :
    Adds p (Html.tag "span".toList (Html.escape s) className []) 0 :=
  adds_classed hp isName_span (by simp) className (adds_escape hp s)

theorem adds_column {upper lower : Option Text} (hu : Adds p (Html.orBlank upper) 0)
    (hl : Adds p (Html.orBlank lower) 0) : Adds p (Html.column upper lower) 0 :=
  adds_div hp _ ((adds_div hp _ hu).append (adds_div hp _ hl))

theorem adds_blank : Adds p "&nbsp;".toList 0 := adds_plain hp (by decide)

theorem adds_headline {h : Headline} (hl : h.level ≠ 1) : Adds p (Html.headline h) 0 := by
  have hlevel : min h.level 6 < 7 ∧ min h.level 6 ≠ 1 := by omega
  have hother : ∀ n < 7, n ≠ 1 → Nat.digitChar n ≠ '1' := by decide
  have hdigit := hother _ hlevel.1 hlevel.2
  exact adds_classed hp (isName_heading hlevel.1) (fun u => by simp [Ne.symm hdigit]) none
    (adds_escape hp h.text)

theorem adds_chord (naming : Naming) (c : Chord) : Adds p (Html.chord naming c) 0 := by
  have hkey : isName (dashed "data_chord".toList) := by decide
  exact adds_tag hp isName_span (by simp) _ (List.forall_mem_singleton.mpr hkey)
    (adds_escape hp (c.write naming))

theorem adds_item (naming : Naming) {i : Item} (hi : ∀ h, i.headline? = some h → h.level ≠ 1) :
    Adds p (Html.item naming i) 0 := by
  cases i with
  | headline h => exact adds_headline hp (hi h rfl)
  | pair c s => exact adds_column hp (adds_chord hp naming c) (adds_span hp none s)
  | chord c => exact adds_column hp (adds_chord hp naming c) (adds_blank hp)
  | text s => exact adds_column hp (adds_blank hp) (adds_span hp none s)
  | quote s =>
    have hquote : isName "blockquote".toList := by decide
    exact adds_classed hp hquote (by simp) none (adds_escape hp s)
  | entry e =>
    have hgap : Adds p [' '] 0 := adds_plain hp (by decide)
    exact adds_div hp _ ((adds_span hp _ _).append (hgap.append (adds_span hp _ _)))
  | newline => exact adds_angles hp (t := "hr/>\n".toList) (by decide) (by simp)

end Items

/-! ## Documents -/

theorem title_eq {t : Text} (ht : t ≠ []) :
    Html.title (some t) = "<h1>".toList ++ Html.escape t ++ "</h1>".toList := by
  cases t with
  | nil => exact absurd rfl ht
  | cons c t => simp [Html.title, Html.plain, Html.tag, Html.tagWith]

section Documents
variable {p : Text} (hp : p ∈ titleTags)
include hp

theorem adds_part (naming : Naming) {s : Section} (hs : ∀ h ∈ s.subheads, h.level ≠ 1) :
    Adds p (Html.part naming s) 0 := by
  have hsection : isName "section".toList := by decide
  have hhead : Adds p (Html.sectionHead s.head) 0 := by
    cases s.head with
    | none => exact adds_nil p
    | some h =>
      rw [Html.sectionHead]
      by_cases hl : 1 < h.level
      · rw [if_pos hl]
        exact adds_headline hp hl.ne'
      · rw [if_neg hl]
        exact adds_nil p
  have hitems : ∀ i ∈ s.items, Adds p (Html.item naming i) 0 := fun i hi =>
    adds_item hp naming fun h hh => hs h (List.mem_filterMap.mpr ⟨i, hi, hh⟩)
  exact adds_classed hp hsection (by simp) _ (hhead.append (adds_flatMap hitems))

/-- A title that is not empty adds a heading of its own. -/
theorem adds_title (given : Option Text) :
    Adds p (Html.title given) (if given.getD [] = [] then 0 else 1) := by
  rcases given with - | (- | ⟨c, s⟩)
  · exact adds_nil p
  · exact adds_nil p
  · have hstart : ∀ u, p.isPrefixOf ('<' :: ("h1>".toList ++ u)) := fun u =>
      List.isPrefixOf_iff_prefix.mpr ((between_titleTags hp).2.trans (List.prefix_append _ u))
    have hopening : Adds p "h1>".toList 0 := adds_plain hp (by decide)
    have hclosing : Adds p ('<' :: "/h1>".toList) 0 :=
      adds_angles hp (by decide) fun u => by simp
    have hbehind := (hopening.append (adds_escape hp (c :: s))).append hclosing
    intro rest
    have hshape : Html.title (some (c :: s)) ++ rest = '<' ::
        ("h1>".toList ++ (Html.escape (c :: s) ++ ('<' :: "/h1>".toList ++ rest))) := by
      simp [title_eq (List.cons_ne_nil c s)]
    rw [hshape, occurrences_cons, if_pos (hstart _), ← List.append_assoc, ← List.append_assoc,
      hbehind]
    simp

theorem adds_write {d : Document} (hd : ∀ s ∈ d.sections, ∀ h ∈ s.subheads, h.level ≠ 1)
    (m : Metadata) (naming : Naming) :
    Adds p (Html.write d m naming) (if m.title.getD [] = [] then 0 else 1) := by
  have hkey : isName (dashed "id".toList) := by decide
  have hparts := adds_flatMap fun s hs => adds_part hp naming (hd s hs)
  exact adds_tag hp isName_div (by simp) none (List.forall_mem_singleton.mpr hkey)
    ((adds_title hp m.title).append hparts)

end Documents

theorem infix_tag (name content : Text) (className : Option Text) (as : List (Text × Text)) :
    content <:+: Html.tag name content className as := by
  rw [tag_eq_tagWith]
  refine ⟨'<' :: (name ++ assigned ((className.map ("class".toList, ·)).toList ++ as) ++ ['>']),
    '<' :: '/' :: (name ++ ['>']), ?_⟩
  simp [Html.tagWith]

theorem title_infix_write {t : Text} (ht : t ≠ []) (d : Document) {m : Metadata}
    (hm : m.title = some t) (naming : Naming) :
    "<h1>".toList ++ Html.escape t ++ "</h1>".toList <:+: Html.write d m naming := by
  rw [← title_eq ht, ← hm]
  exact (List.prefix_append _ _).isInfix.trans (infix_tag _ _ _ _)

end Markup

/-! ## Texts -/

theorem Section.subheads_mapChord (f : Chord → Chord) (s : Section) :
    (s.mapChord f).subheads = s.subheads := by
  have hi : ∀ i : Item, (i.mapChord f).headline? = i.headline? := by
    intro i
    cases i <;> rfl
  rw [subheads, subheads, mapChord, List.filterMap_map]
  exact List.filterMap_congr fun i _ => hi i

theorem Document.nested_ofText {s : Text} {d : Document} (h : ofText s = .ok d) :
    ∀ k ∈ d.sections, k.Nested := by
  rw [ofText_eq] at h
  obtain rfl := Except.ok.inj h
  have hl := one_le_level (readable_linesOf s)
  rw [← Item.headlines_ofTokens (metadataIn (linesOf s)).naming] at hl
  exact Section.nested_ofItems hl

/-- The title that counts stands in the markup of a text as a heading of the first level, once and
as it is, and there is no other such heading; without a title, or with an empty one, there is none. -/
theorem Markup.title_once (s : Text) (n : Int) (given : Option Metadata) (naming : Naming) :
    ∃ d m out, Document.ofText s = .ok d ∧ d.metadata = .ok m ∧
      transposeAndConvert s n given ⟨Format.html.name, naming⟩ = .ok out ∧
      (∀ p ∈ titleTags, occurrences p out = if (given.getD m).title.getD [] = [] then 0 else 1) ∧
      ∀ t, (given.getD m).title = some t → t ≠ [] →
        "<h1>".toList ++ Html.escape t ++ "</h1>".toList <:+: out := by
  obtain ⟨d, m, hd, hm, hf⟩ := Document.exists_ofText_sound s
  refine ⟨d, m, _, hd, hm, transposeAndConvert_of_ofText hd hm given .html naming hf n, ?_, ?_⟩
  · intro p hp
    have hheads : ∀ k ∈ (d.mapChord (Chord.moved n)).sections, ∀ h ∈ k.subheads, h.level ≠ 1 := by
      intro k hk
      obtain ⟨l, hl, rfl⟩ := List.mem_map.mp hk
      rw [Section.subheads_mapChord]
      exact (Document.nested_ofText hd l hl).titles
    have hne : p ≠ [] := by
      rintro rfl
      exact absurd hp (by decide)
    exact (adds_write hp hheads (given.getD m) naming).occurrences_eq hne
  · intro t ht hne
    exact title_infix_write hne _ ht naming

end ChordSheet
