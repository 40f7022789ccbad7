import ChordSheet.Proofs.Sheet.NormalForm

/-! The metadata of a song, found again in the sheet that has been written of it.

* `Sheet.metadata_transposed`: what a text says of the song, its sheet says as well.
* `Entry.echo`: what can be read of a value that stands in a header; `Entry.echo_eq_self_iff`.
* `Metadata.Writable`, `Metadata.echoed`: metadata that can be given, and what is read of it.
* `Sheet.metadataIn_below`: what stands below a header adds nothing to it.
* `Sheet.metadata_supplied`: metadata that is given is found again, but for brackets. -/
namespace ChordSheet
set_option autoImplicit false

theorem Document.exists_ofText_metadata (s : Text) :
    ∃ d, ofText s = .ok d ∧ d.metadata = .ok (metadataIn (linesOf s)) :=
  ⟨_, ofText_eq s, metadata_eq (readable_linesOf s) _⟩

/-! ## Metadata found in a text -/

theorem filled_metadataIn {ls : List (List Token)} (h : ∀ l ∈ ls, Readable l) :
    (metadataIn ls).filled = (metadataIn ls).value := by
  refine Metadata.filled_of_ne_nil fun f v hv => ?_
  obtain ⟨e, he, -, rfl⟩ := exists_of_firstOf hv
  exact (proper_of_mem h e he).filled

namespace Sheet

/-- A sheet has the metadata of its text, except for blanks at the end of the title. -/
theorem metadata_transposed (s : Text) (n : Int) (naming : Naming) :
    ∃ d m u e k, Document.ofText s = .ok d ∧ d.metadata = .ok m ∧
      transposeAndConvert s n none (sheetFormat naming) = .ok u ∧
      Document.ofText u = .ok e ∧ e.metadata = .ok k ∧
      k.naming = naming ∧ k.value = m.value ∧
      (k.title = m.title ∨ k.title = m.title.map stripRight) := by
  obtain ⟨d, hd, hm⟩ := Document.exists_ofText_metadata s
  obtain ⟨e, he, hk⟩ := Document.exists_ofText_metadata (transposed s n naming)
  have hsound := sound_metadataIn (readable_linesOf s)
  have hread := readable_rewritten s n naming
  have hvalue := value_print naming hsound hread
  have htitle := title_print naming hsound hread
  rw [← transposed, filled_metadataIn (readable_linesOf s)] at hvalue
  rw [← transposed] at htitle
  refine ⟨d, metadataIn (linesOf s), transposed s n naming, e,
    metadataIn (linesOf (transposed s n naming)), hd, hm, transposeAndConvert_eq s n naming, he, hk,
    naming_transposed s n naming, hvalue, ?_⟩
  rw [metadataIn, Metadata.first, htitle]
  split
  · exact .inr rfl
  · exact .inl rfl

end Sheet

/-! ## Values in a header -/

namespace Entry

/-- What is read of a value that has been written: an opening bracket makes the line one of lyrics
and chords, and closing brackets are dropped. -/
def echo (v : Text) : Option Text := if '[' ∈ v then none else value? (v.filter (· != ']'))

theorem echo_ne_nil {v u : Text} (h : echo v = some u) : u ≠ [] := by
  rw [echo] at h
  by_cases hv : '[' ∈ v
  · rw [if_pos hv] at h
    cases h
  · rw [if_neg hv] at h
    exact ((value?_eq_some_iff _ _).mp h).2.1

/-- A value without blanks at its ends is read as it is just when it has no brackets. -/
theorem echo_eq_self_iff {v : Text} (hne : v ≠ []) (hs : strip v = v) (hn : Avoids breaks v) :
    echo v = some v ↔ '[' ∉ v ∧ ']' ∉ v := by
  rw [echo]
  constructor
  · intro h
    by_cases hv : '[' ∈ v
    · rw [if_pos hv] at h
      cases h
    · rw [if_neg hv, value?_eq_some_iff] at h
      refine ⟨hv, fun hc => ?_⟩
      rw [← h.1] at hc
      have hmem := (List.mem_filter.mp (mem_of_mem_strip hc)).2
      exact absurd hmem (by decide)
  · rintro ⟨ho, hc⟩
    rw [if_neg ho, filter_closing hc, value?_eq_some_iff]
    exact ⟨hs, hne, hn.not_mem (by decide)⟩

theorem write_append (k : Keyword) (v : Text) : write ⟨k.name, v⟩ = write ⟨k.name, []⟩ ++ v := by
  simp [write]

/-- The entry of a line that has been written, if it is still one. -/
def reread (e : Entry) : Option Entry := (echo e.content).map (⟨e.keyword, ·⟩)

end Entry

namespace Line

theorem tokens_write_value (k : Keyword) {v : Text} (hv : Avoids breaks v) :
    (tokens (Entry.write ⟨k.name, v⟩)).filterMap Token.entry? =
        (Entry.reread ⟨k.name, v⟩).toList ∧
      (tokens (Entry.write ⟨k.name, v⟩)).filterMap Token.headline? = [] := by
  have hword : Avoids lyricStops (Entry.write ⟨k.name, []⟩) := avoids_write (by decide) k avoids_nil
  have hopen : '[' ∈ Entry.write ⟨k.name, v⟩ ↔ '[' ∈ v := by
    rw [Entry.write_append, List.mem_append, or_iff_right (hword.not_mem (by decide))]
  rw [tokens_keyword, bodyTokens_true, Entry.reread, Entry.echo]
  by_cases ho : '[' ∈ v
  · have hparts := parts_bodyTokens (avoids_write (by decide) k hv)
    rw [if_pos (hopen.mpr ho), if_pos ho]
    exact ⟨hparts.not_special.2, hparts.not_special.1⟩
  · have hfilter : (Entry.write ⟨k.name, v⟩).filter (· != ']') =
        Entry.write ⟨k.name, v.filter (· != ']')⟩ := by
      rw [Entry.write_append, List.filter_append, filter_closing (hword.not_mem (by decide)),
        ← Entry.write_append]
    have hne : Entry.write ⟨k.name, v.filter (· != ']')⟩ ≠ [] := by simp [Entry.write]
    rw [if_neg (fun h => ho (hopen.mp h)), if_neg ho,
      bodyTokens_lyrics (fun h => ho (hopen.mp h)), if_neg (by decide), Segment.tokens_lyrics,
      hfilter, lyricTokens, if_neg hne, List.map_singleton, recognize, Entry.read?_write_eq]
    cases Entry.value? (v.filter (· != ']')) <;> exact ⟨rfl, rfl⟩

end Line

namespace Metadata

/-- Metadata as it is kept beside a song: a title and values on one line, without blanks at their
ends. -/
structure Writable (m : Metadata) : Prop where
  title : ∀ t, m.title = some t → strip t = t ∧ Avoids breaks t
  value : ∀ f v, m.value f = some v → v ≠ [] ∧ strip v = v ∧ Avoids breaks v

theorem writable_empty : ({} : Metadata).Writable := ⟨nofun, nofun⟩

theorem Writable.setField {m : Metadata} (hm : m.Writable) (f : Field) {v : Text}
    (hv : v ≠ [] ∧ strip v = v ∧ Avoids breaks v) : (m.setField f v).Writable := by
  refine ⟨hm.title, fun g u hu => ?_⟩
  change (if g = f then some v else m.value g) = some u at hu
  by_cases hg : g = f
  · rw [if_pos hg] at hu
    cases hu
    exact hv
  · rw [if_neg hg] at hu
    exact hm.value g u hu

/-- What is read of the values. -/
def echoed (m : Metadata) : Metadata := { m with value := fun f => (m.value f).bind Entry.echo }

theorem Writable.filled_eq {m : Metadata} (hm : m.Writable) : m.filled = m.value :=
  filled_of_ne_nil fun f v hv => (hm.value f v hv).1

theorem filled_echoed (m : Metadata) : m.echoed.filled = m.echoed.value := by
  refine filled_of_ne_nil fun f v hv => ?_
  obtain ⟨u, -, hu⟩ := Option.bind_eq_some_iff.mp hv
  exact Entry.echo_ne_nil hu

theorem present_echoed {m : Metadata} (hm : m.Writable) :
    m.present.filterMap Entry.reread = m.echoed.present := by
  rw [present_eq, present_eq, filled_echoed, hm.filled_eq, List.filterMap_filterMap]
  congr 1
  funext f
  show ((m.value f).map _).bind Entry.reread = ((m.value f).bind Entry.echo).map _
  cases m.value f <;> rfl

/-- The metadata is read as it is just when no value has a bracket. -/
theorem echoed_eq_iff {m : Metadata} (hm : m.Writable) :
    m.echoed.value = m.value ↔ ∀ f v, m.value f = some v → '[' ∉ v ∧ ']' ∉ v := by
  constructor
  · intro h f v hv
    obtain ⟨hne, hs, hn⟩ := hm.value f v hv
    have hf : (m.value f).bind Entry.echo = m.value f := congrFun h f
    rw [hv] at hf
    exact (Entry.echo_eq_self_iff hne hs hn).mp hf
  · intro h
    funext f
    show (m.value f).bind Entry.echo = m.value f
    cases hv : m.value f with
    | none => rfl
    | some v =>
      obtain ⟨hne, hs, hn⟩ := hm.value f v hv
      exact (Entry.echo_eq_self_iff hne hs hn).mpr (h f v hv)

end Metadata

namespace Sheet

/-! ## Headers of any lines -/

section Below
variable {top : List Text} (ht : ∀ l ∈ top, l ≠ [] ∧ stripRight l = l ∧ Avoids breaks l)
  {ls : List (List Token)} (h : ∀ l ∈ ls, Readable l)
include ht h

/-- A header is whole, whether anything is left below it or not. -/
theorem trimEnd_below :
    trimEnd stripRight (squeeze true (top ++ [] :: ls.map Line.write)) =
      top ++ trimmed (squeeze (endsInGap true top) ([] :: ls)) := by
  have hls : ∀ l ∈ [] :: ls, Readable l := List.forall_mem_cons.mpr ⟨.nil, h⟩
  have hbody : squeeze (endsInGap true top) ([] :: ls.map Line.write) =
      (squeeze (endsInGap true top) ([] :: ls)).map Line.write :=
    squeeze_map (f := Line.write) _ (fun l hl => Line.write_eq_nil_iff (hls l hl))
  have hflush : trimEnd stripRight top = top := trimEnd_of_flush fun l hl =>
    ⟨(ht l hl).2.1, (ht l hl).1⟩
  rw [squeeze_append, squeeze_of_ne_nil (fun l hl => (ht l hl).1), hbody, trimEnd_append, hflush,
    ← trimmed]
  by_cases hn : trimmed (squeeze (endsInGap true top) ([] :: ls)) = []
  · rw [if_pos hn, hn, List.append_nil]
  · rw [if_neg hn]

/-- The lines of a header are read as they stand, and the others after them. -/
theorem linesOf_below :
    ∃ rest, linesOf (finish (trimEnd stripRight (squeeze true (top ++ [] :: ls.map Line.write)))) =
        top.map Line.tokens ++ rest ∧
      entriesIn rest = entriesIn ls ∧
      (headlinesIn rest).map (·.level) = (headlinesIn ls).map (·.level) := by
  have hls : ∀ l ∈ [] :: ls, Readable l := List.forall_mem_cons.mpr ⟨.nil, h⟩
  have hread := readable_squeeze hls (endsInGap true top)
  have havoids : ∀ l ∈ top ++ trimmed (squeeze (endsInGap true top) ([] :: ls)),
      Avoids breaks l := by
    intro l hl
    rcases List.mem_append.mp hl with hl | hl
    · exact (ht l hl).2.2
    · exact avoids_breaks_trimmed hread l hl
  obtain ⟨z, hz, hlines⟩ := linesOf_finish havoids
  rw [trimEnd_below ht h, hlines, List.map_append, tokens_trimmed hread, List.append_assoc]
  refine ⟨_, rfl, ?_, ?_⟩
  · rw [entriesIn, found_append_empties _ _ hz, ← entriesIn, entriesIn_trimEnd, entriesIn,
      found_squeeze]
    rfl
  · rw [headlinesIn, found_append_empties _ _ hz, ← headlinesIn, levels_trimEnd,
      headlinesIn, found_squeeze]
    rfl

/-- The body of a sheet does not add to what its header says. -/
theorem metadataIn_below :
    metadataIn (linesOf (finish (trimEnd stripRight
        (squeeze true (top ++ [] :: (arrange none ls).map Line.write))))) =
      metadataIn (top.map Line.tokens) := by
  obtain ⟨rest, hlines, hentries, hlevels⟩ := linesOf_below ht (readable_arrange h none)
  obtain ⟨he, hh, -⟩ := arrange_found h none
  have hrest : ∀ k ∈ headlinesIn rest, k.level ≠ 1 := level_ne_of_levels hlevels hh
  rw [hlines, metadataIn, metadataIn, headlinesIn, found_append, ← headlinesIn, ← headlinesIn,
    titleOf_append hrest, entriesIn, found_append, ← entriesIn, ← entriesIn, hentries, he,
    List.append_nil]

end Below

theorem found_reread {es : List Entry}
    (h : ∀ e ∈ es, (∃ k : Keyword, e.keyword = k.name) ∧ Avoids breaks e.content) :
    entriesIn ((es.map Entry.write).map Line.tokens) = es.filterMap Entry.reread ∧
      headlinesIn ((es.map Entry.write).map Line.tokens) = [] := by
  induction es with
  | nil => exact ⟨rfl, rfl⟩
  | cons e es ih =>
    obtain ⟨⟨⟨k, hk⟩, hn⟩, hes⟩ := List.forall_mem_cons.mp h
    obtain ⟨word, content⟩ := e
    obtain rfl : word = k.name := hk
    obtain ⟨he, hh⟩ := Line.tokens_write_value k (v := content) hn
    obtain ⟨he', hh'⟩ := ih hes
    constructor
    · rw [List.map_cons, List.map_cons, entriesIn, found_cons, ← entriesIn, he, he',
        List.filterMap_cons]
      cases Entry.reread ⟨k.name, content⟩ <;> rfl
    · rw [List.map_cons, List.map_cons, headlinesIn, found_cons, ← headlinesIn, hh, hh',
        List.append_nil]

/-! ## Metadata that is given -/

section Given
variable {m : Metadata} (hm : m.Writable) (naming : Naming)
include hm

theorem entries_writable : ∀ e ∈ m.present ++ namingEntry naming,
    (∃ k : Keyword, e.keyword = k.name) ∧ e.content ≠ [] ∧ strip e.content = e.content ∧
      Avoids breaks e.content := by
  intro e he
  rcases List.mem_append.mp he with he | he
  · obtain ⟨f, hf, hv⟩ := (m.mem_present e).mp he
    rw [hm.filled_eq] at hv
    exact ⟨⟨.field f, hf⟩, hm.value f e.content hv⟩
  · cases naming with
    | b => cases he
    | h =>
      rw [List.mem_singleton.mp he]
      exact ⟨⟨.naming, rfl⟩, by decide, rfl, by decide⟩

theorem flush_headerTexts :
    ∀ l ∈ headerTexts m naming, l ≠ [] ∧ stripRight l = l ∧ Avoids breaks l := by
  intro l hl
  refine ⟨headerTexts_ne_nil hl, ?_⟩
  rcases mem_headerTexts.mp hl with ⟨t, ht, rfl⟩ | ⟨e, he, rfl⟩
  · obtain ⟨hs, hn⟩ := hm.title t ht
    cases t with
    | nil => exact ⟨rfl, by decide⟩
    | cons c t =>
      have hr := (flush_of_strip hs).2
      have hspace : stripRight (' ' :: c :: t) = ' ' :: c :: t := by
        rw [Line.stripRight_space (by rw [hr]; simp), hr]
      refine ⟨?_, ?_⟩
      · rw [title, stripRight_cons, hspace, if_neg (by simp)]
      · rw [title, avoids_cons, avoids_cons]
        exact ⟨by decide, by decide, hn⟩
  · obtain ⟨⟨k, hk⟩, hne, hs, hn⟩ := entries_writable hm naming e he
    obtain ⟨word, content⟩ := e
    obtain rfl : word = k.name := hk
    exact ⟨Line.stripRight_write_entry hs hne, Line.avoids_write (by decide) k hn⟩

/-- What is found in the lines of a header. -/
theorem metadataIn_headerTexts :
    metadataIn ((headerTexts m naming).map Line.tokens) =
      { m.echoed with naming := naming } := by
  have htitle : (m.title.map fun t => title (some t)).toList.map Line.tokens =
      headerOf m.title [] := by
    cases ht : m.title with
    | none => rfl
    | some t =>
      obtain ⟨hs, hn⟩ := hm.title t ht
      have hread := Line.tokens_write
        (.headline (h := ⟨1, t, .none⟩) (Nat.le_refl 1) (flush_of_strip hs).1 hn)
      rw [write_title] at hread
      exact congrArg (fun l => [l]) hread
  have hknown : ∀ e ∈ m.present ++ namingEntry naming,
      (∃ k : Keyword, e.keyword = k.name) ∧ Avoids breaks e.content := by
    intro e he
    obtain ⟨hk, -, -, hn⟩ := entries_writable hm naming e he
    exact ⟨hk, hn⟩
  obtain ⟨hentries, hheadlines⟩ := found_reread hknown
  obtain ⟨he, ht, -⟩ := headerOf_found m.title []
  have hnaming : (namingEntry naming).filterMap Entry.reread = namingEntry naming := by
    cases naming <;> rfl
  rw [headerTexts, List.map_append, htitle, metaLines, metadataIn, headlinesIn, found_append,
    ← headlinesIn, ← headlinesIn, hheadlines, List.append_nil, ht, entriesIn, found_append,
    ← entriesIn, ← entriesIn, he, hentries, List.nil_append, List.filterMap_append,
    Metadata.present_echoed hm, hnaming, Metadata.mk.injEq]
  refine ⟨rfl, ?_, naming_first_header m.title m.echoed naming⟩
  rw [value_first_header, m.filled_echoed]

/-- The sheet of a text, with the metadata that is given in its header. -/
theorem convert_given (s : Text) :
    ∃ u, convert s (some m) (sheetFormat naming) = .ok u ∧
      metadataIn (linesOf u) = { m.echoed with naming := naming } := by
  have hread := readable_linesOf s
  have htame := tame_symbol (metadataIn (linesOf s)).naming naming 0
  have hflush := flush_headerTexts hm naming
  have htexts : ∀ l ∈ headerTexts m naming, '\n' ∉ l := fun l hl =>
    (hflush l hl).2.2.not_mem (by decide)
  have hwrite := write_eq_finish (f := Chord.moved 0) htexts (linesOf_ne_nil s) hread htame
  rw [Document.mapChord_moved_zero] at hwrite
  refine ⟨_, convert_of_ofText (Document.ofText_eq s) (Document.metadata_eq hread _) (some m) .sheet
    naming, ?_⟩
  show metadataIn (linesOf (write _ m naming)) = _
  rw [hwrite, metadataIn_below hflush (Line.readable_map_rewrite htame hread),
    metadataIn_headerTexts hm naming]

end Given

/-- Metadata that is given is read in the sheet as it is, but for values with brackets in them. -/
theorem metadata_supplied (s : Text) (m : Metadata) (hm : m.Writable) (naming : Naming) :
    ∃ u d k, convert s (some m) (sheetFormat naming) = .ok u ∧ Document.ofText u = .ok d ∧
      d.metadata = .ok k ∧ k.title = m.title ∧ k.naming = naming ∧
      (∀ f, k.value f = (m.value f).bind Entry.echo) ∧
      (k = { m with naming := naming } ↔
        ∀ f v, m.value f = some v → '[' ∉ v ∧ ']' ∉ v) := by
  obtain ⟨u, hu, hlines⟩ := convert_given hm naming s
  obtain ⟨d, hd, hk⟩ := Document.exists_ofText_metadata u
  rw [hlines] at hk
  refine ⟨u, d, _, hu, hd, hk, rfl, rfl, fun _ => rfl, ?_⟩
  rw [← Metadata.echoed_eq_iff hm, Metadata.mk.injEq]
  exact ⟨fun h => h.2.1, fun h => ⟨rfl, h, rfl⟩⟩

theorem metadata_supplied_plain : ∃ m : Metadata, m.Writable ∧ m.value .artist = some "Me".toList ∧
    ∃ u d, convert "Key: C\n[G]".toList (some m) (sheetFormat .h) = .ok u ∧
      Document.ofText u = .ok d ∧ d.metadata = .ok { m with naming := .h } := by
  have hm := Metadata.writable_empty.setField .artist (v := "Me".toList) (by decide)
  obtain ⟨u, d, k, hu, hd, hk, -, -, -, hiff⟩ :=
    metadata_supplied "Key: C\n[G]".toList _ hm .h
  have hself : k = _ := hiff.mpr fun f v hv => by
    cases f <;> cases hv
    decide
  rw [hself] at hk
  exact ⟨_, hm, rfl, u, d, hu, hd, hk⟩

/-- A bracket in a value starts a chord, and with it the line is no entry any more; when the sheet
is written again, it is a different one. -/
theorem metadata_supplied_lost :
    (({} : Metadata).setField .artist "Me [live".toList).Writable ∧
      convert [] (some (({} : Metadata).setField .artist "Me [live".toList)) (sheetFormat .b) =
        .ok "Artist: Me [live\n".toList ∧
      ((Document.ofText "Artist: Me [live\n".toList).bind Document.metadata).map
        (fun k => k.value .artist) = .ok none ∧
      convert "Artist: Me [live\n".toList none (sheetFormat .b) =
        .ok "Artist: Me [live]\n".toList := by
  refine ⟨Metadata.writable_empty.setField .artist (by decide), ?_, ?_, ?_⟩ <;> rfl

end Sheet
end ChordSheet
