import ChordSheet.Proofs.Document.Lines
import ChordSheet.Proofs.Sheet.Layout

/-! Sheets that are printed and read again.

* `Sheet.linesOf_print`: the lines of a sheet are those printed, but for blanks at their ends.
* `Sheet.headerLines_print`, `Sheet.naming_print`: the metadata is found again.
* `Sheet.print_again`: a sheet that has been read is printed as the first lines would be. -/
namespace ChordSheet.Sheet
set_option autoImplicit false

open Line (lay enter rewrite trim Tame)

/-! ## Lines of a printed sheet -/

theorem tokens_trimmed {ls : List (List Token)} (h : ∀ l ∈ ls, Readable l) :
    (trimmed ls).map Line.tokens = trimEnd trim ls := by
  induction ls with
  | nil => rfl
  | cons l ls ih =>
    obtain ⟨hl, hrest⟩ := List.forall_mem_cons.mp h
    have hls := ih hrest
    have hn : trimEnd trim ls = [] ↔ trimmed ls = [] := by rw [← hls, List.map_eq_nil_iff]
    rw [trimmed_cons, trimEnd]
    by_cases ht : trimmed ls = []
    · rw [if_pos ht, if_pos (hn.mpr ht), trimmed_singleton]
      by_cases hr : stripRight (Line.write l) = []
      · rw [if_pos hr, if_pos ((Line.stripRight_write_eq_nil_iff hl).mp hr)]
        rfl
      · rw [if_neg hr, if_neg (fun h0 => hr ((Line.stripRight_write_eq_nil_iff hl).mpr h0)),
          List.map_singleton, Line.tokens_stripRight_write hl]
    · rw [if_neg ht, if_neg (fun h0 => ht (hn.mp h0)), List.map_cons, Line.tokens_write hl, hls]

theorem avoids_breaks_trimmed {ls : List (List Token)} (h : ∀ l ∈ ls, Readable l) :
    ∀ l ∈ trimmed ls, Avoids breaks l := by
  have hw : ∀ s ∈ ls.map Line.write, Avoids breaks s := by
    intro s hs
    obtain ⟨k, hk, rfl⟩ := List.mem_map.mp hs
    exact Line.avoids_breaks_write (h k hk)
  intro l hl
  rcases mem_trimEnd hl with hl | ⟨s, hs, rfl⟩
  · exact hw l hl
  · exact (hw s hs).stripRight

theorem avoids_unlines {ls : List Text} (h : ∀ l ∈ ls, Avoids breaks l) : '\r' ∉ unlines ls := by
  induction ls with
  | nil => simp
  | cons l ls ih =>
    obtain ⟨hl, hrest⟩ := List.forall_mem_cons.mp h
    have hr := hl.not_mem (show '\r' ∈ breaks by decide)
    have hls := ih hrest
    simp [hr, hls]

/-- The lines of a text that has been printed: the last line break leaves an empty one. -/
def closed (ls : List (List Token)) : List (List Token) :=
  if ls = [] then [[], []] else ls ++ [[]]

theorem exists_closed (ls : List (List Token)) :
    ∃ z, (∀ l ∈ z, l = []) ∧ closed ls = ls ++ z := by
  unfold closed
  by_cases hn : ls = []
  · rw [if_pos hn, hn]
    exact ⟨[[], []], by simp, rfl⟩
  · rw [if_neg hn]
    exact ⟨[[]], by simp, rfl⟩

theorem splitOn_finish {ls : List Text} (h : ∀ l ∈ ls, Avoids breaks l) :
    (normalizeBreaks (finish ls)).splitOn '\n' = if ls = [] then [[], []] else ls ++ [[]] := by
  unfold finish
  by_cases hn : ls = []
  · rw [if_pos hn, if_pos hn]
    rfl
  · rw [if_neg hn, if_neg hn, normalizeBreaks_of_not_mem (avoids_unlines h),
      splitOn_unlines (fun l hl => (h l hl).not_mem (by decide))]

theorem linesOf_finish_eq {ls : List Text} (h : ∀ l ∈ ls, Avoids breaks l) :
    linesOf (finish ls) = closed (ls.map Line.tokens) := by
  rw [linesOf, splitOn_finish h, closed]
  by_cases hn : ls = []
  · rw [if_pos hn, hn]
    rfl
  · rw [if_neg hn, if_neg (fun hm => hn (List.map_eq_nil_iff.mp hm)), List.map_append]
    rfl

theorem linesOf_finish {ls : List Text} (h : ∀ l ∈ ls, Avoids breaks l) :
    ∃ z, (∀ l ∈ z, l = []) ∧ linesOf (finish ls) = ls.map Line.tokens ++ z := by
  rw [linesOf_finish_eq h]
  exact exists_closed _

theorem readable_squeeze {ls : List (List Token)} (h : ∀ l ∈ ls, Readable l) (gap : Bool) :
    ∀ l ∈ squeeze gap ls, Readable l := fun l hl => h l (mem_of_mem_squeeze hl)

theorem linesOf_print_eq {ls : List (List Token)} (h : ∀ l ∈ ls, Readable l) :
    linesOf (print ls) = closed (squeeze true (trimEnd trim ls)) := by
  have hs := readable_squeeze h true
  rw [print, linesOf_finish_eq (avoids_breaks_trimmed hs), tokens_trimmed hs, trimEnd_squeeze rfl]

/-- The lines of a sheet are those that were printed; empty ones come last. -/
theorem linesOf_print {ls : List (List Token)} (h : ∀ l ∈ ls, Readable l) :
    ∃ z, (∀ l ∈ z, l = []) ∧ linesOf (print ls) = squeeze true (trimEnd trim ls) ++ z := by
  rw [linesOf_print_eq h]
  exact exists_closed _

/-! ## Headers and bodies of a page -/

theorem readable_headerLines {m : Metadata} (hm : m.Sound) (naming : Naming) :
    ∀ l ∈ headerLines m naming, Readable l := by
  intro l hl
  rw [headerLines, headerOf, List.mem_append] at hl
  rcases hl with hl | hl
  · cases ht : m.title with
    | none => simp [ht] at hl
    | some t =>
      simp only [ht, Option.map_some, Option.toList_some, List.mem_singleton] at hl
      rw [hl]
      obtain ⟨hs, hn⟩ := hm.title t ht
      exact .headline (Nat.le_refl 1) hs hn
  · obtain ⟨e, he, rfl⟩ := List.mem_map.mp hl
    refine .entry ?_
    rcases List.mem_append.mp he with he | he
    · obtain ⟨f, hf, hv⟩ := (m.mem_present e).mp he
      have hp := hm.value f e.content hv
      rwa [← hf] at hp
    · cases naming with
      | b => cases he
      | h =>
        rw [List.mem_singleton.mp he]
        exact ⟨⟨.naming, rfl⟩, rfl, by decide, by decide⟩

theorem readable_below {top ls : List (List Token)} (ht : ∀ l ∈ top, Readable l)
    (h : ∀ l ∈ ls, Readable l) : ∀ l ∈ top ++ [] :: ls, Readable l := by
  intro l hl
  rw [List.mem_append, List.mem_cons] at hl
  rcases hl with hl | rfl | hl
  · exact ht l hl
  · exact .nil
  · exact h l hl

theorem readable_page {m : Metadata} (hm : m.Sound) (naming : Naming) {ls : List (List Token)}
    (h : ∀ l ∈ ls, Readable l) : ∀ l ∈ page m naming ls, Readable l :=
  readable_below (readable_headerLines hm naming) (readable_arrange h none)

/-! ## Metadata of a printed sheet -/

theorem lay_found {l : List Token} (h : Readable l) (head : Option Headline) :
    entriesIn (lay head l) = [] ∧ (∀ k ∈ headlinesIn (lay head l), k.level ≠ 1) ∧
      chordTexts (lay head l) = l.filterMap Token.chord? := by
  cases h with
  | @headline h =>
    unfold lay
    by_cases ho : opensSection head h <;> by_cases hl : h.level = 1 <;>
      simp [ho, hl, entriesIn, headlinesIn, chordTexts, found, Token.entry?, Token.headline?,
        Token.chord?]
  | quote => exact ⟨rfl, by simp [headlinesIn, found, lay, Token.headline?], rfl⟩
  | entry => exact ⟨rfl, by simp [headlinesIn, found, lay], rfl⟩
  | body hp =>
    obtain ⟨hh, he⟩ := hp.not_special
    rw [lay_body hp]
    simp [entriesIn, headlinesIn, chordTexts, found, hh, he]

/-- The body has neither titles nor entries, and all of the chords. -/
theorem arrange_found {ls : List (List Token)} (h : ∀ l ∈ ls, Readable l)
    (head : Option Headline) :
    entriesIn (arrange head ls) = [] ∧ (∀ k ∈ headlinesIn (arrange head ls), k.level ≠ 1) ∧
      chordTexts (arrange head ls) = chordTexts ls := by
  induction ls generalizing head with
  | nil => exact ⟨rfl, nofun, rfl⟩
  | cons l ls ih =>
    obtain ⟨hl, hls⟩ := List.forall_mem_cons.mp h
    obtain ⟨he, hh, hc⟩ := lay_found hl head
    obtain ⟨he', hh', hc'⟩ := ih hls (enter head l)
    unfold arrange
    refine ⟨?_, ?_, ?_⟩
    · rw [entriesIn, found_append]
      exact List.append_eq_nil_iff.mpr ⟨he, he'⟩
    · rw [headlinesIn, found_append]
      intro k hk
      exact (List.mem_append.mp hk).elim (hh k) (hh' k)
    · rw [chordTexts, found_append]
      exact congrArg₂ _ hc hc'

theorem entries_found (es : List Entry) :
    entriesIn (es.map fun e => [Token.entry e]) = es ∧
      headlinesIn (es.map fun e => [Token.entry e]) = [] ∧
      chordTexts (es.map fun e => [Token.entry e]) = [] := by
  induction es with
  | nil => exact ⟨rfl, rfl, rfl⟩
  | cons e es ih => exact ⟨congrArg _ ih.1, ih.2.1, ih.2.2⟩

/-- A header has a title and entries, and no chords. -/
theorem headerOf_found (t : Option Text) (es : List Entry) :
    entriesIn (headerOf t es) = es ∧ titleOf (headlinesIn (headerOf t es)) = t ∧
      chordTexts (headerOf t es) = [] := by
  obtain ⟨he, hh, hc⟩ := entries_found es
  cases t with
  | none => exact ⟨he, congrArg titleOf hh, hc⟩
  | some t => exact ⟨he, rfl, hc⟩

theorem titleOf_append {hs ks : List Headline} (h : ∀ k ∈ ks, k.level ≠ 1) :
    titleOf (hs ++ ks) = titleOf hs := by
  have hn : ks.find? (fun k => k.level == 1) = none :=
    List.find?_eq_none.mpr fun k hk => by simpa using h k hk
  rw [titleOf, titleOf, List.find?_append, hn, Option.or_none]

theorem level_ne_of_levels {n : Nat} {hs ks : List Headline}
    (h : ks.map (·.level) = hs.map (·.level)) (hh : ∀ k ∈ hs, k.level ≠ n) :
    ∀ k ∈ ks, k.level ≠ n := by
  intro k hk
  have hmem : k.level ∈ hs.map (·.level) := by
    rw [← h]
    exact List.mem_map_of_mem hk
  obtain ⟨k', hk', he⟩ := List.mem_map.mp hmem
  rw [← he]
  exact hh k' hk'

/-- Blanks at the end do not change what does not depend on those of a headline. -/
theorem map_headlines_trimEnd {α : Type} {g : Headline → α}
    (hg : ∀ h, g { h with text := stripRight h.text } = g h) (ls : List (List Token)) :
    (headlinesIn (trimEnd trim ls)).map g = (headlinesIn ls).map g := by
  have hmap : ∀ ks : List (List Token), (headlinesIn ks).map g =
      found (fun t => t.headline?.map g) ks := by
    intro ks
    rw [headlinesIn, found, found, List.map_flatMap]
    simp only [List.map_filterMap]
  have hcoarse : Coarse fun t : Token => t.headline?.map g :=
    ⟨fun h => congrArg some (hg h), fun _ => rfl, fun _ => rfl⟩
  rw [hmap, hmap, found_trimEnd _ (filterMap_trim hcoarse)]

/-- They do not change how deep it is. -/
theorem levels_trimEnd (ls : List (List Token)) :
    (headlinesIn (trimEnd trim ls)).map (·.level) = (headlinesIn ls).map (·.level) :=
  map_headlines_trimEnd (fun _ => rfl) ls

theorem firstOf_namingEntry (f : Field) (naming : Naming) :
    firstOf f.name (namingEntry naming) = none := by
  refine firstOf_eq_none fun e he => ?_
  cases naming with
  | b => cases he
  | h =>
    rw [List.mem_singleton.mp he]
    exact Ne.symm (Metadata.name_ne_naming f)

/-- The entries of a header say what they have been written for. -/
theorem value_first_header (t : Option Text) (m : Metadata) (naming : Naming) :
    (Metadata.first t (m.present ++ namingEntry naming)).value = m.filled := by
  funext f
  show firstOf f.name (m.present ++ namingEntry naming) = m.filled f
  rw [firstOf_append, m.firstOf_present, firstOf_namingEntry, Option.or_none]

theorem present_first_header (t : Option Text) (m : Metadata) (naming : Naming) :
    (Metadata.first t (m.present ++ namingEntry naming)).present = m.present := by
  have hfilled : (Metadata.first t (m.present ++ namingEntry naming)).filled = m.filled := by
    funext f
    rw [Metadata.filled, value_first_header]
    simp [Metadata.filled, Option.filter_filter]
  rw [Metadata.present_eq (Metadata.first _ _), hfilled, ← m.present_eq]

theorem naming_first_header (t : Option Text) (m : Metadata) (naming : Naming) :
    (Metadata.first t (m.present ++ namingEntry naming)).naming = naming := by
  rw [Metadata.first, Metadata.namingIn, firstOf_append, m.firstOf_naming_present, Option.none_or]
  cases naming <;> rfl

/-- Only a title that ends a header loses its blanks. -/
theorem trimEnd_headerOf (t : Option Text) (es : List Entry) :
    trimEnd trim (headerOf t es) = headerOf (if es = [] then t.map stripRight else t) es := by
  have hes : trimEnd trim (es.map fun e => [Token.entry e]) = es.map fun e => [.entry e] := by
    refine trimEnd_of_flush fun l hl => ?_
    obtain ⟨e, -, rfl⟩ := List.mem_map.mp hl
    exact ⟨rfl, by simp⟩
  rw [headerOf, trimEnd_append, hes]
  by_cases hn : es = []
  · rw [hn, if_pos List.map_nil, if_pos rfl]
    cases t <;> rfl
  · rw [if_neg (fun h => hn (List.map_eq_nil_iff.mp h)), if_neg hn]
    rfl

section Again
variable {m : Metadata} (naming : Naming) {ls : List (List Token)}

theorem trimEnd_page :
    trimEnd trim (page m naming ls) =
      if trimEnd trim (arrange none ls) = [] then trimEnd trim (headerLines m naming)
      else headerLines m naming ++ [] :: trimEnd trim (arrange none ls) := by
  rw [page, trimEnd_append, trimEnd]
  by_cases hy : trimEnd trim (arrange none ls) = []
  · rw [if_pos hy, if_pos hy]
    rfl
  · rw [if_neg hy, if_neg hy, if_neg (by simp)]

variable (hm : m.Sound) (h : ∀ l ∈ ls, Readable l)
include hm h

/-- What is found in a sheet that has been printed. -/
theorem found_print :
    entriesIn (linesOf (print (page m naming ls))) = m.present ++ namingEntry naming ∧
      headlinesIn (linesOf (print (page m naming ls))) =
        headlinesIn (trimEnd trim (page m naming ls)) ∧
      chordTexts (linesOf (print (page m naming ls))) = chordTexts ls := by
  obtain ⟨z, hz, hl⟩ := linesOf_print (readable_page hm naming h)
  obtain ⟨he, -, hc⟩ := arrange_found h none
  obtain ⟨he', -, hc'⟩ := headerOf_found m.title (m.present ++ namingEntry naming)
  rw [hl]
  refine ⟨?_, ?_, ?_⟩
  · rw [entriesIn, found_append_empties _ _ hz, found_squeeze]
    rw [← entriesIn, entriesIn_trimEnd, page, entriesIn, found_append]
    exact (congrArg₂ _ he' he).trans (List.append_nil _)
  · rw [headlinesIn, found_append_empties _ _ hz, found_squeeze]
    rfl
  · rw [chordTexts, found_append_empties _ _ hz, found_squeeze]
    rw [← chordTexts, chordTexts_trimEnd, page, chordTexts, found_append]
    exact (congrArg₂ _ hc' hc).trans (List.nil_append _)

/-- The title is found again; one that comes last has lost its blanks. -/
theorem title_print :
    titleOf (headlinesIn (linesOf (print (page m naming ls)))) =
      if trimEnd trim (arrange none ls) = [] ∧ m.present ++ namingEntry naming = [] then
        m.title.map stripRight
      else m.title := by
  rw [(found_print naming hm h).2.1, trimEnd_page]
  by_cases hy : trimEnd trim (arrange none ls) = []
  · rw [if_pos hy, headerLines, trimEnd_headerOf, (headerOf_found _ _).2.1]
    simp only [hy, true_and]
  · have hbody : ∀ k ∈ headlinesIn ([] :: trimEnd trim (arrange none ls)), k.level ≠ 1 :=
      level_ne_of_levels (levels_trimEnd _) (arrange_found h none).2.1
    have hsplit : ∀ ks, headlinesIn (ks ++ [] :: trimEnd trim (arrange none ls)) =
        headlinesIn ks ++ headlinesIn ([] :: trimEnd trim (arrange none ls)) := fun ks =>
      found_append _ ks _
    rw [if_neg hy, hsplit, titleOf_append hbody, headerLines, (headerOf_found _ _).2.1,
      if_neg (fun h' => hy h'.1)]

theorem headerLines_print :
    headerLines (metadataIn (linesOf (print (page m naming ls)))) naming =
      if trimEnd trim (arrange none ls) = [] then trimEnd trim (headerLines m naming)
      else headerLines m naming := by
  have htitle := title_print naming hm h
  rw [headerLines, metadataIn, (found_print naming hm h).1, htitle, present_first_header]
  by_cases hy : trimEnd trim (arrange none ls) = []
  · rw [if_pos hy, headerLines, trimEnd_headerOf]
    simp only [hy, true_and]
    rfl
  · rw [if_neg hy, headerLines]
    simp only [hy, false_and, if_false]
    rfl

theorem value_print : (metadataIn (linesOf (print (page m naming ls)))).value = m.filled := by
  rw [metadataIn, (found_print naming hm h).1]
  exact value_first_header _ m naming

theorem naming_print : (metadataIn (linesOf (print (page m naming ls)))).naming = naming := by
  rw [metadataIn, (found_print naming hm h).1]
  exact naming_first_header _ m naming

end Again

/-! ## Printing again -/

theorem arrange_empties {z : List (List Token)} (hz : ∀ l ∈ z, l = []) (head : Option Headline) :
    arrange head z = z := by
  induction z with
  | nil => rfl
  | cons l z ih =>
    obtain ⟨rfl, hz'⟩ := List.forall_mem_cons.mp hz
    exact congrArg _ (ih hz')

theorem arrange_headerOf (t : Option Text) (es : List Entry) :
    ∀ l ∈ arrange none (headerOf t es), l = [] := by
  have hes : ∀ (head : Option Headline) (es : List Entry),
      ∀ l ∈ arrange head (es.map fun e => [Token.entry e]), l = [] := by
    intro head es
    induction es with
    | nil => exact nofun
    | cons e es ih =>
      intro l hl
      rcases List.mem_cons.mp hl with rfl | hl
      · rfl
      · exact ih l hl
  cases t with
  | none => exact hes none es
  | some t =>
    intro l hl
    rcases List.mem_cons.mp hl with rfl | hl
    · rfl
    · exact hes _ es l hl

theorem rewrite_headerLines (w : Text → Text) (m : Metadata) (naming : Naming) :
    (headerLines m naming).map (rewrite w) = headerLines m naming := by
  rw [headerLines, headerOf, List.map_append, List.map_map]
  cases m.title <;> rfl

theorem page_rewrite (w : Text → Text) (m : Metadata) (naming : Naming) (ls : List (List Token)) :
    (page m naming ls).map (rewrite w) = page m naming (ls.map (rewrite w)) := by
  rw [page, page, List.map_append, rewrite_headerLines, List.map_cons, arrange_rewrite]
  rfl

theorem print_append_empties (ls : List (List Token)) {z : List (List Token)}
    (hz : ∀ l ∈ z, l = []) : print (ls ++ z) = print ls := by
  induction z generalizing ls with
  | nil => rw [List.append_nil]
  | cons l z ih =>
    obtain ⟨rfl, hz'⟩ := List.forall_mem_cons.mp hz
    rw [List.append_cons, ih _ hz', print_append_empty]

theorem print_congr_trimmed {ls ms : List (List Token)} (hl : ∀ l ∈ ls, Readable l)
    (hm : ∀ l ∈ ms, Readable l) (h : trimmed ls = trimmed ms) : print ls = print ms := by
  rw [print, print, trimmed_squeeze hl, trimmed_squeeze hm, h]

theorem readable_trimEnd {ls : List (List Token)} (h : ∀ l ∈ ls, Readable l) :
    ∀ l ∈ trimEnd trim ls, Readable l := by
  intro l hl
  rcases mem_trimEnd hl with hl | ⟨k, hk, rfl⟩
  · exact h l hl
  · exact Line.readable_trim (h k hk)

section Page
variable {m : Metadata} (hm : m.Sound) (naming : Naming) {ls : List (List Token)}
  (h : ∀ l ∈ ls, Readable l)
include hm h

/-- A page that has been read is arranged below a header as its body alone would be. -/
theorem print_below {top : List (List Token)} (ht : ∀ l ∈ top, Readable l) :
    print (top ++ [] :: arrange none (squeeze true (trimEnd trim (page m naming ls)))) =
      print (top ++ [] :: arrange none ls) := by
  have hp := readable_page hm naming h
  have htrim : trimmed (top ++ [] :: arrange none (trimEnd trim (page m naming ls))) =
      trimmed (top ++ [] :: arrange none (page m naming ls)) :=
    trimmed_append_congr top (trimmed_append_congr [[]] (trimmed_arrange hp none))
  -- titles and entries leave empty lines, which the empty line below the header absorbs
  have hbody : squeeze true (arrange none (page m naming ls)) = squeeze true (arrange none ls) := by
    rw [page, arrange_append, headerLines, squeeze_empties (arrange_headerOf _ _)]
    exact squeeze_arrange_arrange (inside_none _) true ls
  calc print (top ++ [] :: arrange none (squeeze true (trimEnd trim (page m naming ls))))
      = print (top ++ [] :: arrange none (trimEnd trim (page m naming ls))) := by
        rw [print, print, squeeze_behind_gap, squeeze_arrange (fun hg => hg), ← squeeze_behind_gap]
    _ = print (top ++ [] :: arrange none (page m naming ls)) :=
        print_congr_trimmed (readable_below ht (readable_arrange (readable_trimEnd hp) none))
          (readable_below ht (readable_arrange hp none)) htrim
    _ = print (top ++ [] :: arrange none ls) := by
        rw [print, print, squeeze_behind_gap, hbody, ← squeeze_behind_gap]

theorem print_trimmed_header
    (hy : trimEnd trim (arrange none ls) = []) :
    print (trimEnd trim (headerLines m naming) ++ [] :: arrange none ls) =
      print (page m naming ls) := by
  have hh := readable_headerLines hm naming
  have hblank : trimmed ([] :: arrange none ls) = [] := by
    have hbody := trimmed_trimEnd (readable_arrange h none)
    rw [hy] at hbody
    rw [trimmed_cons, ← hbody]
    rfl
  refine print_congr_trimmed (readable_below (readable_trimEnd hh) (readable_arrange h none))
    (readable_page hm naming h) ?_
  rw [page, trimmed_append, trimmed_append, if_pos hblank, if_pos hblank, trimmed_trimEnd hh]

/-- A sheet that has been read is printed, with other chords or not, as the lines it has been
printed from would be. -/
theorem print_again {w : Text → Text} (hw : Tame w) :
    print (page (metadataIn (linesOf (print (page m naming ls)))) naming
        ((linesOf (print (page m naming ls))).map (rewrite w))) =
      print (page m naming (ls.map (rewrite w))) := by
  obtain ⟨z, hz, hl⟩ := linesOf_print (readable_page hm naming h)
  have hls := Line.readable_map_rewrite hw h
  have hempty : ∀ l : List Token, rewrite w l = [] ↔ l = [] := fun l => List.map_eq_nil_iff
  have hz' : ∀ l ∈ z.map (rewrite w), l = [] := by
    intro l hl
    obtain ⟨k, hk, rfl⟩ := List.mem_map.mp hl
    rw [hz k hk]
    rfl
  have hblank : trimEnd trim (arrange none (ls.map (rewrite w))) = [] ↔
      trimEnd trim (arrange none ls) = [] := by
    rw [arrange_rewrite, trimEnd_map (Line.trim_rewrite w) hempty, List.map_eq_nil_iff]
  have htop := readable_headerLines (sound_metadataIn (readable_linesOf
    (print (page m naming ls)))) naming
  have hlines : print (page (metadataIn (linesOf (print (page m naming ls)))) naming
      ((linesOf (print (page m naming ls))).map (rewrite w))) =
      print (headerLines (metadataIn (linesOf (print (page m naming ls)))) naming ++
        [] :: arrange none (squeeze true (trimEnd trim (page m naming (ls.map (rewrite w)))))) := by
    generalize metadataIn (linesOf (print (page m naming ls))) = again
    rw [page, hl, List.map_append, arrange_append, arrange_empties hz', ← List.cons_append,
      ← List.append_assoc, print_append_empties _ hz', ← squeeze_map true (fun l _ => hempty l),
      ← trimEnd_map (Line.trim_rewrite w) hempty, page_rewrite]
  rw [hlines, print_below hm naming hls htop, headerLines_print naming hm h]
  by_cases hy : trimEnd trim (arrange none ls) = []
  · rw [if_pos hy]
    exact print_trimmed_header hm naming hls (hblank.mpr hy)
  · rw [if_neg hy]
    rfl

end Page
end ChordSheet.Sheet
