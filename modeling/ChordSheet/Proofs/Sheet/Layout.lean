import ChordSheet.Render
import ChordSheet.Proofs.Document.Items
import ChordSheet.Proofs.Grammar.Simulation
import ChordSheet.Proofs.Sheet.Arrangement

/-! The text of a sheet as arranged lines.

* `Sheet.flow`: what the sections of a sheet are written as, item by item; `flow_gather`.
* `Sheet.flow_lines`: the lines of the tokens are arranged.
* `Sheet.headerTexts`, `Sheet.headerLines`: the lines of a header; `write_eq_finish`: those of a sheet.
* `Sheet.page`, `Sheet.print`: the lines of a whole sheet, and its text; `write_eq_print`. -/
namespace ChordSheet.Sheet
set_option autoImplicit false

open Line (lay enter rewrite)

/-! ## Sections -/

/-- The items behind an open head; every section ends in a line break. -/
def flow (naming : Naming) (head : Option Headline) : List Item → Text
  | [] => ['\n']
  | .headline h :: xs =>
    if opensSection head h then '\n' :: headline h ++ flow naming (some h) xs
    else headline h ++ flow naming head xs
  | x :: xs => item naming x ++ flow naming head xs

theorem flow_gather (naming : Naming) (head : Option Headline) (xs : List Item) :
    (Section.gather head xs).1.flatMap (item naming) ++
        '\n' :: (Section.gather head xs).2.flatMap (part naming) = flow naming head xs := by
  fun_induction Section.gather head xs with
  | case1 => rfl
  | case2 head h xs ho r ih => simp [flow, ho, ← ih, Section.ofHead, part, r]
  | case3 head h xs ho r ih => simp [flow, ho, ← ih, item, r]
  | case4 head x xs hx r ih =>
    cases x with
    | headline h => exact absurd rfl (hx h)
    | _ => simp [flow, ← ih, r]

/-- Where nothing stands before the first headline, its line break is missing. -/
theorem body_flow (naming : Naming) (xs : List Item) :
    body naming ⟨Section.ofItems xs⟩ = flow naming none xs ∨
      '\n' :: body naming ⟨Section.ofItems xs⟩ = flow naming none xs := by
  rw [← flow_gather, body, Section.ofItems]
  cases h : (Section.gather none xs).1 with
  | nil => exact .inr (by simp)
  | cons i is => exact .inl (by simp [part])

/-! ## Tokens -/

section Tokens
variable (source target : Naming) (f : Chord → Chord)

/-- The symbol that a chord text is written as. -/
def symbol (x : Text) : Text := (f (Chord.read source x)).write target

def flowTokens (head : Option Headline) (ts : List Token) : Text :=
  flow target head ((Item.ofTokens source ts).map (Item.mapChord f))

variable (head : Option Headline) (ts : List Token)

theorem flowTokens_literal (s : Text) :
    flowTokens source target f head (.literal s :: ts) =
      s ++ flowTokens source target f head ts := rfl

/-- A chord and the text behind it are written one after the other. -/
theorem flowTokens_chord (x : Text) :
    flowTokens source target f head (.chord x :: ts) =
      (Token.chord (symbol source target f x)).write ++ flowTokens source target f head ts := by
  have hchord : ∀ us, flow target head (.chord (f (Chord.read source x)) :: us) =
      (Token.chord (symbol source target f x)).write ++ flow target head us := fun _ => rfl
  cases ts with
  | nil => exact hchord _
  | cons t ts =>
    cases t with
    | literal s =>
      rw [flowTokens_literal, ← List.append_assoc]
      rfl
    | _ => exact hchord _

theorem flowTokens_parts {b : Bool} {ps : List Token} (h : Parts b ps) :
    flowTokens source target f head (ps ++ ts) =
      Line.write (rewrite (symbol source target f) ps) ++ flowTokens source target f head ts := by
  induction h with
  | nil b => rfl
  | chord b hx h ih =>
    rw [List.cons_append, flowTokens_chord, ih, ← List.append_assoc]
    rfl
  | literal hne hs h ih =>
    rw [List.cons_append, flowTokens_literal, ih, ← List.append_assoc]
    rfl

theorem headline_eq {h : Headline} (hl : h.level ≠ 1) :
    headline h = (Token.headline h).write ++ ['\n'] := by
  rw [headline, if_neg hl, Token.write, if_neg (fun h' => hl h'.1)]

/-- A headline with the line break that belongs to it, or at the end of all. -/
theorem flow_headline (h : Headline) (xs : List Item) :
    flow target head (.headline h :: xs) =
      unlines ((lay head [.headline h]).map Line.write) ++
        flow target (enter head [.headline h]) xs := by
  rw [flow, lay, enter]
  by_cases ho : opensSection head h
  · by_cases hl : h.level = 1
    · simp [ho, hl, headline]
    · simp [ho, hl, headline_eq hl]
  · by_cases hl : h.level = 1
    · simp [ho, hl, headline]
    · simp [ho, hl, headline_eq hl]

theorem flowTokens_newline :
    flowTokens source target f head (.newline :: ts) =
      '\n' :: flowTokens source target f head ts := rfl

theorem unlines_write_append (ls ms : List (List Token)) :
    unlines ((ls ++ ms).map Line.write) =
      unlines (ls.map Line.write) ++ unlines (ms.map Line.write) := by
  rw [List.map_append, unlines_append]

theorem unlines_singleton (s : Text) : unlines [s] = s ++ ['\n'] := by
  rw [unlines_cons, unlines_nil]

theorem unlines_quote (w : Text → Text) (s : Text) :
    unlines ((lay head (rewrite w [.quote s])).map Line.write) = '>' :: ' ' :: s ++ ['\n'] := by
  have hq : lay head (rewrite w [.quote s]) = [[.quote s]] := rfl
  rw [hq, List.map_singleton, unlines_singleton, Line.write_cons, Line.write_nil, List.append_nil,
    Token.write]

theorem flow_line {l : List Token} (hl : Readable l) :
    flowTokens source target f head (l ++ .newline :: ts) =
      unlines ((lay head (rewrite (symbol source target f) l)).map Line.write) ++
        flowTokens source target f (enter head l) ts := by
  cases hl with
  | @headline h => exact flow_headline target head h _
  | @quote s =>
    rw [unlines_quote, List.append_assoc]
    rfl
  | entry => rfl
  | @body l hp =>
    have he : enter head l = head := by cases hp <;> rfl
    rw [flowTokens_parts source target f head _ hp, lay_rewrite, lay_body hp, List.map_singleton,
      List.map_singleton, unlines_singleton, he, flowTokens_newline, List.append_assoc]
    rfl

/-- Behind a headline at the end the section still ends in a line break. -/
theorem flow_last {l : List Token} (hl : Readable l) :
    ∃ z, (z = [] ∨ z = [[]]) ∧ flowTokens source target f head l =
      unlines ((lay head (rewrite (symbol source target f) l) ++ z).map Line.write) := by
  cases hl with
  | @headline h =>
    refine ⟨[[]], .inr rfl, ?_⟩
    rw [unlines_write_append]
    exact flow_headline target head h []
  | @quote s =>
    refine ⟨[], .inl rfl, ?_⟩
    rw [List.append_nil, unlines_quote]
    rfl
  | entry => exact ⟨[], .inl rfl, rfl⟩
  | @body l hp =>
    refine ⟨[], .inl rfl, ?_⟩
    have h := flowTokens_parts source target f head [] hp
    rw [List.append_nil] at h
    rw [h, lay_rewrite, lay_body hp, List.append_nil, List.map_singleton, List.map_singleton,
      unlines_singleton]
    rfl

/-- All lines of a text, arranged behind an open head. -/
theorem flow_lines {ls : List (List Token)} (hne : ls ≠ []) (hls : ∀ l ∈ ls, Readable l) :
    ∃ z, (z = [] ∨ z = [[]]) ∧ flowTokens source target f head ([.newline].intercalate ls) =
      unlines ((arrange head (ls.map (rewrite (symbol source target f))) ++ z).map Line.write) := by
  induction ls generalizing head with
  | nil => exact absurd rfl hne
  | cons l ls ih =>
    obtain ⟨hl, hrest⟩ := List.forall_mem_cons.mp hls
    cases ls with
    | nil =>
      obtain ⟨z, hz, h⟩ := flow_last source target f head hl
      refine ⟨z, hz, ?_⟩
      rw [List.intercalate_singleton, h, List.map_singleton, arrange, arrange, List.append_nil]
    | cons l' ls =>
      obtain ⟨z, hz, h⟩ := ih (enter head l) (by simp) hrest
      refine ⟨z, hz, ?_⟩
      have ha : arrange head ((l :: l' :: ls).map (rewrite (symbol source target f))) =
          lay head (rewrite (symbol source target f) l) ++
            arrange (enter head l) ((l' :: ls).map (rewrite (symbol source target f))) := by
        rw [List.map_cons, arrange, enter_rewrite]
      rw [List.intercalate_cons_cons, List.append_assoc, List.singleton_append,
        flow_line source target f head _ hl, h, ha, List.append_assoc,
        unlines_write_append (lay _ _)]

end Tokens

/-! ## Headers -/

/-- The lines of a header, as texts. -/
def headerTexts (m : Metadata) (naming : Naming) : List Text :=
  (m.title.map fun t => title (some t)).toList ++ metaLines m naming

theorem mem_headerTexts {m : Metadata} {naming : Naming} {l : Text} :
    l ∈ headerTexts m naming ↔ (∃ t, m.title = some t ∧ l = title (some t)) ∨
      ∃ e ∈ m.present ++ namingEntry naming, l = e.write := by
  rw [headerTexts, List.mem_append, Option.mem_toList, Option.map_eq_some_iff, metaLines,
    List.mem_map]
  simp only [eq_comm (a := l)]

theorem headerTexts_ne_nil {m : Metadata} {naming : Naming} {l : Text}
    (hl : l ∈ headerTexts m naming) : l ≠ [] := by
  rcases mem_headerTexts.mp hl with ⟨t, -, rfl⟩ | ⟨e, -, rfl⟩
  · cases t <;> simp [title]
  · simp [Entry.write]

theorem header_eq (m : Metadata) (naming : Naming) :
    header m naming = joinLines (headerTexts m naming) := by
  have hfilled : ∀ l ∈ headerTexts m naming, (!l.isEmpty) = true := by
    intro l hl
    simpa using headerTexts_ne_nil hl
  rw [header, ← List.filter_eq_self.mpr hfilled, headerTexts]
  cases m.title <;> rfl

def headerOf (title : Option Text) (es : List Entry) : List (List Token) :=
  (title.map fun t => [Token.headline ⟨1, t, .none⟩]).toList ++ es.map fun e => [.entry e]

/-- The title and the entries that a sheet starts with. -/
def headerLines (m : Metadata) (naming : Naming) : List (List Token) :=
  headerOf m.title (m.present ++ namingEntry naming)

theorem write_title (t : Text) : Line.write [.headline ⟨1, t, .none⟩] = title (some t) := by
  cases t <;> simp [Token.write, Modifier.mark, title]

theorem write_headerLines (m : Metadata) (naming : Naming) :
    (headerLines m naming).map Line.write = headerTexts m naming := by
  have hentries : ∀ es : List Entry,
      (es.map fun e => [Token.entry e]).map Line.write = es.map Entry.write := by
    intro es
    rw [List.map_map]
    congr 1
    funext e
    simp [Token.write]
  rw [headerLines, headerOf, List.map_append, hentries, headerTexts, metaLines]
  cases m.title with
  | none => rfl
  | some t =>
    rw [Option.map_some, Option.map_some, Option.toList_some, Option.toList_some,
      List.map_singleton, write_title]

/-! ## Whole sheets -/

/-- The lines of a sheet, before rows of empty lines are cut short. -/
def page (m : Metadata) (naming : Naming) (ls : List (List Token)) : List (List Token) :=
  headerLines m naming ++ [] :: arrange none ls

/-- The text of lines that are left; there is always a line break. -/
def finish (ls : List Text) : Text := if ls = [] then ['\n'] else unlines ls

def print (ls : List (List Token)) : Text := finish (trimmed (squeeze true ls))

theorem tidy_unlines {ls : List Text} (h : ∀ l ∈ ls, '\n' ∉ l) :
    tidy (unlines ls) = finish (trimEnd stripRight (squeeze true ls)) := by
  rw [tidy, unlines_squeeze h, finish]
  by_cases hn : trimEnd stripRight (squeeze true ls) = []
  · rw [if_pos hn, (stripRight_unlines_eq_nil_iff _).mpr hn]
    rfl
  · rw [if_neg hn, stripRight_unlines _ hn]

theorem joinLines_isEmpty {ls : List Text} (h : ∀ l ∈ ls, l ≠ []) :
    (joinLines ls).isEmpty = ls.isEmpty := by
  cases ls with
  | nil => rfl
  | cons l ls =>
    cases l with
    | nil => exact absurd rfl (h [] (by simp))
    | cons c l => cases ls <;> rfl

/-- A header and a body below it, with an empty line between them. -/
theorem tidy_header {top ls : List Text} (ht : ∀ l ∈ top, l ≠ [] ∧ '\n' ∉ l)
    (hls : ∀ l ∈ ls, '\n' ∉ l) :
    tidy (if (joinLines top).isEmpty then unlines ls
      else joinLines top ++ '\n' :: '\n' :: unlines ls) =
      finish (trimEnd stripRight (squeeze true (top ++ [] :: ls))) := by
  rw [joinLines_isEmpty (fun l hl => (ht l hl).1)]
  cases hne : top.isEmpty with
  | true =>
    rw [List.isEmpty_iff] at hne
    rw [hne, if_pos rfl, tidy_unlines hls]
    rfl
  | false =>
    have hu : joinLines top ++ '\n' :: '\n' :: unlines ls = unlines (top ++ [] :: ls) := by
      have hj := intercalate_eq_unlines top (by simpa using hne)
      rw [unlines_append, ← hj, unlines_cons, List.append_assoc]
      rfl
    rw [if_neg (by simp), hu, tidy_unlines]
    intro l hl
    rcases List.mem_append.mp hl with hl | hl
    · exact (ht l hl).2
    · rcases List.mem_cons.mp hl with rfl | hl
      · simp
      · exact hls l hl

/-- A text that starts with a line break has an empty first line. -/
theorem exists_of_break {ls : List Text} (h : ∀ l ∈ ls, '\n' ∉ l) {s : Text}
    (hs : '\n' :: s = unlines ls) : ∃ ms, ls = [] :: ms ∧ s = unlines ms := by
  cases ls with
  | nil => cases hs
  | cons l ls =>
    cases l with
    | nil =>
      rw [unlines_cons, List.nil_append, List.cons.injEq] at hs
      exact ⟨ls, rfl, hs.2⟩
    | cons c l =>
      rw [unlines_cons, List.cons_append, List.cons.injEq] at hs
      exact absurd (by rw [hs.1]; simp) (h (c :: l) (by simp))

theorem print_append_empty (ls : List (List Token)) : print (ls ++ [[]]) = print ls := by
  have hz : ∀ gap : Bool, trimmed (squeeze gap [[]]) = [] := by decide
  rw [print, print, squeeze_append, trimmed_append, if_pos (hz _)]

theorem print_eq {ls : List (List Token)} (h : ∀ l ∈ ls, Readable l) :
    print ls = finish (trimEnd stripRight (squeeze true (ls.map Line.write))) := by
  rw [print, trimmed, squeeze_map true (fun l hl => Line.write_eq_nil_iff (h l hl))]

/-- The body of a sheet has the lines that flow, but for an empty one at the start. -/
theorem body_lines {naming : Naming} {xs : List Item} {ls : List Text} (hls : ∀ l ∈ ls, '\n' ∉ l)
    (h : flow naming none xs = unlines ls) :
    ∃ bs, body naming ⟨Section.ofItems xs⟩ = unlines bs ∧ (∀ l ∈ bs, '\n' ∉ l) ∧
      squeeze true bs = squeeze true ls := by
  rcases body_flow naming xs with hb | hb
  · exact ⟨ls, hb.trans h, hls, rfl⟩
  · obtain ⟨bs, rfl, hs⟩ := exists_of_break hls (hb.trans h)
    exact ⟨bs, hs, fun l hl => hls l (List.mem_cons_of_mem _ hl), rfl⟩

section Whole
variable {source target : Naming} {f : Chord → Chord} {ls : List (List Token)}

/-- The whole sheet of a document whose tokens are given line by line, below any header. -/
theorem write_eq_finish {m : Metadata} (hm : ∀ l ∈ headerTexts m target, '\n' ∉ l)
    (hne : ls ≠ []) (hls : ∀ l ∈ ls, Readable l) (hf : Line.Tame (symbol source target f)) :
    write ((Document.ofTokens source ([.newline].intercalate ls)).mapChord f) m target =
      finish (trimEnd stripRight (squeeze true (headerTexts m target ++
        [] :: (arrange none (ls.map (rewrite (symbol source target f)))).map Line.write))) := by
  have hmap : (Document.ofTokens source ([.newline].intercalate ls)).mapChord f =
      ⟨Section.ofItems ((Item.ofTokens source ([.newline].intercalate ls)).map
        (Item.mapChord f))⟩ := by
    rw [Document.ofTokens, Document.mapChord, Section.ofItems_mapChord]
  obtain ⟨z, hz, hflow⟩ := flow_lines source target f none hne hls
  have hrw := Line.readable_map_rewrite hf hls
  generalize ls.map (rewrite (symbol source target f)) = ms at hrw hflow ⊢
  have hb : ∀ l ∈ (arrange none ms ++ z).map Line.write, '\n' ∉ l := by
    intro l hl
    obtain ⟨k, hk, rfl⟩ := List.mem_map.mp hl
    have hread : Readable k := by
      rcases List.mem_append.mp hk with hk | hk
      · exact readable_arrange hrw none k hk
      · have hempty : k = [] := by
          rcases hz with rfl | rfl
          · cases hk
          · exact List.mem_singleton.mp hk
        rw [hempty]
        exact .nil
    exact (Line.avoids_breaks_write hread).not_mem (by decide)
  obtain ⟨bs, hbs, hbn, hsq⟩ := body_lines hb hflow
  have htop : ∀ l ∈ headerTexts m target, l ≠ [] ∧ '\n' ∉ l := fun l hl =>
    ⟨headerTexts_ne_nil hl, hm l hl⟩
  rw [hmap, write, header_eq]
  simp only [hbs]
  rw [tidy_header htop hbn, squeeze_behind_gap, hsq, ← squeeze_behind_gap]
  rcases hz with rfl | rfl
  · rw [List.append_nil]
  · rw [List.map_append, List.map_singleton, Line.write_nil, ← List.cons_append,
      ← List.append_assoc, trimEnd_squeeze_empty rfl]

theorem write_eq_print {m : Metadata} (hm : ∀ l ∈ headerLines m target, Readable l)
    (hne : ls ≠ []) (hls : ∀ l ∈ ls, Readable l) (hf : Line.Tame (symbol source target f)) :
    write ((Document.ofTokens source ([.newline].intercalate ls)).mapChord f) m target =
      print (page m target (ls.map (rewrite (symbol source target f)))) := by
  have hbody := readable_arrange (Line.readable_map_rewrite hf hls) none
  have hpage : ∀ l ∈ page m target (ls.map (rewrite (symbol source target f))), Readable l := by
    intro l hl
    rw [page, List.mem_append, List.mem_cons] at hl
    rcases hl with hl | rfl | hl
    · exact hm l hl
    · exact .nil
    · exact hbody l hl
  have htexts : ∀ l ∈ headerTexts m target, '\n' ∉ l := by
    rw [← write_headerLines]
    intro l hl
    obtain ⟨k, hk, rfl⟩ := List.mem_map.mp hl
    exact (Line.avoids_breaks_write (hm k hk)).not_mem (by decide)
  rw [write_eq_finish htexts hne hls hf, print_eq hpage, page, List.map_append, List.map_cons,
    write_headerLines, Line.write_nil]

end Whole
end ChordSheet.Sheet
