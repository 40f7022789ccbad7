import ChordSheet.Document.Extraction
import ChordSheet.Proofs.Document.Items
import ChordSheet.Proofs.Grammar.Simulation
import ChordSheet.Proofs.Grammar.Trimmed

/-! Documents and their metadata, told from the lines of tokens.

* `linesOf`: the lines of a text; `readable_linesOf`.
* `metadataIn`, `chordTexts`: what the lines say of the song, and the chords in them.
* `Metadata.Sound`: metadata that lines can hold; `sound_metadataIn`.
* `Document.ofText_eq`, `Document.metadata_eq`: documents never fail to be read. -/
namespace ChordSheet
set_option autoImplicit false

/-! ## Lines of a text -/

theorem mem_intercalate {c d : Char} {l : Text} {ls : List Text} (hl : l ∈ ls) (hd : d ∈ l) :
    d ∈ [c].intercalate ls := by
  induction ls with
  | nil => cases hl
  | cons m ls ih =>
    cases ls with
    | nil =>
      rw [List.intercalate_singleton]
      rwa [List.mem_singleton.mp hl] at hd
    | cons m' ls =>
      rw [List.intercalate_cons_cons, List.append_assoc, List.mem_append]
      rcases List.mem_cons.mp hl with rfl | hl
      · exact .inl hd
      · exact .inr (List.mem_append_right _ (ih hl))

def linesOf (s : Text) : List (List Token) := ((normalizeBreaks s).splitOn '\n').map Line.tokens

theorem linesOf_ne_nil (s : Text) : linesOf s ≠ [] := by
  rw [linesOf, Ne, List.map_eq_nil_iff]
  exact List.splitOn_ne_nil _ _

theorem readable_linesOf (s : Text) : ∀ l ∈ linesOf s, Readable l := by
  intro l hl
  obtain ⟨raw, hraw, rfl⟩ := List.mem_map.mp hl
  refine Line.readable_tokens fun c hc hb => ?_
  have hr : '\r' ∉ raw := by
    intro h
    have hmem := mem_intercalate (c := '\n') hraw h
    rw [List.intercalate_splitOn] at hmem
    exact normalizeBreaks_ne_return hmem
  simp only [breaks, List.mem_cons, List.not_mem_nil, or_false] at hb
  rcases hb with rfl | rfl
  · exact not_mem_of_mem_splitOn hraw hc
  · exact hr hc

theorem tokens_linesOf (s : Text) :
    ∃ t, tokenize s = .ok t ∧ t.tokens = [.newline].intercalate (linesOf s) :=
  ⟨_, tokenize_eq_transcript s, Line.transcript_tokens _ _⟩

/-! ## What lines say -/

section Found
variable {α : Type} (g : Token → Option α)

/-- What is found in lines, one after the other. -/
def found (ls : List (List Token)) : List α := ls.flatMap (·.filterMap g)

theorem found_cons (l : List Token) (ls : List (List Token)) :
    found g (l :: ls) = l.filterMap g ++ found g ls := rfl

theorem found_append (ls ms : List (List Token)) : found g (ls ++ ms) = found g ls ++ found g ms :=
  List.flatMap_append

theorem found_append_empties (ls : List (List Token)) {z : List (List Token)}
    (hz : ∀ l ∈ z, l = []) : found g (ls ++ z) = found g ls := by
  have hnone : found g z = [] := List.flatMap_eq_nil_iff.mpr fun l hl => by
    rw [hz l hl]
    rfl
  rw [found_append, hnone, List.append_nil]

theorem found_intercalate (hg : g .newline = none) (ls : List (List Token)) :
    ([.newline].intercalate ls).filterMap g = found g ls := by
  induction ls with
  | nil => rfl
  | cons l ls ih =>
    cases ls with
    | nil => simp [found]
    | cons l' ls =>
      rw [List.intercalate_cons_cons, List.filterMap_append, List.filterMap_append, ih]
      simp [found, hg]

theorem found_squeeze (gap : Bool) (ls : List (List Token)) :
    found g (squeeze gap ls) = found g ls := by
  induction ls generalizing gap with
  | nil => rfl
  | cons l ls ih =>
    rw [squeeze_cons, found_append, ih]
    cases l with
    | nil => cases gap <;> rfl
    | cons t ts =>
      rw [List.isEmpty_cons, Bool.and_false, if_neg (by simp), ← found_append]
      rfl

/-- Blanks at the end hide nothing that does not depend on them. -/
theorem found_trimEnd (hg : ∀ l, (Line.trim l).filterMap g = l.filterMap g)
    (ls : List (List Token)) : found g (trimEnd Line.trim ls) = found g ls := by
  induction ls with
  | nil => rfl
  | cons l ls ih =>
    rw [trimEnd, found_cons, ← ih]
    by_cases hls : trimEnd Line.trim ls = []
    · rw [if_pos hls, hls, ← hg l]
      by_cases hl : Line.trim l = []
      · rw [if_pos hl, hl]
        rfl
      · rw [if_neg hl]
        rfl
    · rw [if_neg hls, found_cons]

end Found

def headlinesIn (ls : List (List Token)) : List Headline := found Token.headline? ls

def entriesIn (ls : List (List Token)) : List Entry := found Token.entry? ls

def chordTexts (ls : List (List Token)) : List Text := found Token.chord? ls

/-- The first title and the first entry of each keyword. -/
def metadataIn (ls : List (List Token)) : Metadata :=
  Metadata.first (titleOf (headlinesIn ls)) (entriesIn ls)

/-- Whether there is something to be found does not depend on the blanks at the end of a text, and
it is not to be found in lyrics. -/
structure Coarse {α : Type} (g : Token → Option α) : Prop where
  headline : ∀ h, g (.headline { h with text := stripRight h.text }) = g (.headline h)
  quote : ∀ s, g (.quote (stripRight s)) = g (.quote s)
  literal : ∀ s, g (.literal s) = none

theorem coarse_entry? : Coarse Token.entry? := ⟨fun _ => rfl, fun _ => rfl, fun _ => rfl⟩

theorem coarse_chord? : Coarse Token.chord? := ⟨fun _ => rfl, fun _ => rfl, fun _ => rfl⟩

/-- Trimming changes the last token alone, and may drop it if it is lyrics. -/
theorem filterMap_trim {α : Type} {g : Token → Option α} (hg : Coarse g) (l : List Token) :
    (Line.trim l).filterMap g = l.filterMap g := by
  fun_induction Line.trim l with
  | case1 => rfl
  | case2 t =>
    cases t with
    | headline h => rw [Token.trim, List.filterMap_cons, List.filterMap_cons, hg.headline h]
    | quote s => rw [Token.trim, List.filterMap_cons, List.filterMap_cons, hg.quote s]
    | literal s =>
      rw [Token.trim, lyricTokens]
      by_cases hs : stripRight s = [] <;> simp [hs, hg.literal]
    | _ => rfl
  | case3 t u ts ih => rw [List.filterMap_cons, ih, ← List.filterMap_cons]

theorem entriesIn_trimEnd (ls : List (List Token)) :
    entriesIn (trimEnd Line.trim ls) = entriesIn ls :=
  found_trimEnd _ (filterMap_trim coarse_entry?) ls

theorem chordTexts_trimEnd (ls : List (List Token)) :
    chordTexts (trimEnd Line.trim ls) = chordTexts ls :=
  found_trimEnd _ (filterMap_trim coarse_chord?) ls

theorem chordTexts_rewrite (w : Text → Text) (ls : List (List Token)) :
    chordTexts (ls.map (Line.rewrite w)) = (chordTexts ls).map w := by
  have hl : ∀ l : List Token,
      (Line.rewrite w l).filterMap Token.chord? = (l.filterMap Token.chord?).map w := by
    intro l
    rw [Line.rewrite, List.filterMap_map, List.map_filterMap]
    congr 1
    funext t
    cases t <;> rfl
  rw [chordTexts, chordTexts, found, found, List.flatMap_map, List.map_flatMap]
  simp only [hl]

/-- Lines with the same chords rewritten alike are the same. -/
theorem rewrite_congr {v w : Text → Text} {ls : List (List Token)}
    (h : ∀ x ∈ chordTexts ls, v x = w x) :
    ls.map (Line.rewrite v) = ls.map (Line.rewrite w) := by
  refine List.map_congr_left fun l hl => List.map_congr_left fun t ht => ?_
  cases t with
  | chord x =>
    have hx : x ∈ chordTexts ls :=
      List.mem_flatMap.mpr ⟨l, hl, List.mem_filterMap.mpr ⟨.chord x, ht, rfl⟩⟩
    rw [Token.rewrite, Token.rewrite, h x hx]
  | _ => rfl

/-! ## Tokens of readable lines -/

theorem Parts.not_special {b : Bool} {ts : List Token} (h : Parts b ts) :
    ts.filterMap Token.headline? = [] ∧ ts.filterMap Token.entry? = [] := by
  induction h with
  | nil b => exact ⟨rfl, rfl⟩
  | chord b hx h ih => exact ih
  | literal hne hs h ih => exact ih

theorem Readable.proper {l : List Token} (h : Readable l) :
    ∀ e ∈ l.filterMap Token.entry?, e.Proper := by
  cases h with
  | headline => exact nofun
  | quote => exact nofun
  | entry he =>
    intro e hm
    rw [List.mem_singleton.mp hm]
    exact he
  | body hp =>
    rw [hp.not_special.2]
    exact nofun

theorem Readable.sound {l : List Token} (h : Readable l) : ∀ k ∈ l.filterMap Token.headline?,
    1 ≤ k.level ∧ stripLeft k.text = k.text ∧ Avoids breaks k.text := by
  cases h with
  | headline hl hs hn =>
    intro k hm
    rw [List.mem_singleton.mp hm]
    exact ⟨hl, hs, hn⟩
  | quote => exact nofun
  | entry => exact nofun
  | body hp =>
    rw [hp.not_special.1]
    exact nofun

/-- Metadata that lines of text can hold. -/
structure Metadata.Sound (m : Metadata) : Prop where
  title : ∀ t, m.title = some t → stripLeft t = t ∧ Avoids breaks t
  value : ∀ f v, m.filled f = some v → Entry.Proper ⟨f.name, v⟩

section Lines
variable {ls : List (List Token)} (h : ∀ l ∈ ls, Readable l)
include h

theorem proper_of_mem : ∀ e ∈ entriesIn ls, e.Proper := by
  intro e he
  obtain ⟨l, hl, hm⟩ := List.mem_flatMap.mp he
  exact (h l hl).proper e hm

theorem sound_of_mem : ∀ k ∈ headlinesIn ls,
    1 ≤ k.level ∧ stripLeft k.text = k.text ∧ Avoids breaks k.text := by
  intro k hk
  obtain ⟨l, hl, hm⟩ := List.mem_flatMap.mp hk
  exact (h l hl).sound k hm

theorem sound_metadataIn : (metadataIn ls).Sound := by
  constructor
  · intro t ht
    obtain ⟨k, hk, rfl⟩ := Option.map_eq_some_iff.mp ht
    exact (sound_of_mem h k (List.mem_of_find?_eq_some hk)).2
  · intro f v hv
    obtain ⟨e, he, hw, rfl⟩ := exists_of_firstOf (Option.filter_eq_some_iff.mp hv).1
    rw [← hw]
    exact proper_of_mem h e he

end Lines

/-! ## Documents -/

namespace Document

theorem entries_mapChord (f : Chord → Chord) (d : Document) :
    (d.mapChord f).entries = d.entries := by
  have hi : ∀ xs : List Item, (xs.map (Item.mapChord f)).filterMap Item.entry? =
      xs.filterMap Item.entry? := by
    intro xs
    rw [List.filterMap_map]
    congr 1
    funext i
    cases i <;> rfl
  rw [entries, entries, mapChord, List.flatMap_map]
  simp only [Section.mapChord, hi]

theorem heads_mapChord (f : Chord → Chord) (d : Document) : (d.mapChord f).heads = d.heads := by
  rw [heads, heads, mapChord, List.filterMap_map]
  rfl

/-- The metadata is the same, whatever becomes of the chords. -/
theorem metadata_mapChord (f : Chord → Chord) (d : Document) :
    (d.mapChord f).metadata = d.metadata := by
  rw [metadata, heads_mapChord, entries_mapChord, metadata]

section Lines
variable {ls : List (List Token)} (h : ∀ l ∈ ls, Readable l)
include h

/-- Headlines on lines of text have levels. -/
theorem one_le_level :
    ∀ k ∈ ([.newline].intercalate ls).filterMap Token.headline?, 1 ≤ k.level := by
  have hh : ([.newline].intercalate ls).filterMap Token.headline? = headlinesIn ls :=
    found_intercalate _ rfl ls
  rw [hh]
  exact fun k hk => (sound_of_mem h k hk).1

theorem metadata_eq (naming : Naming) :
    (ofTokens naming ([.newline].intercalate ls)).metadata = .ok (metadataIn ls) := by
  have hk : ∀ e ∈ entriesIn ls, ∃ k : Keyword, e.keyword = k.name := fun e he =>
    (proper_of_mem h e he).known
  have hh : ([.newline].intercalate ls).filterMap Token.headline? = headlinesIn ls :=
    found_intercalate _ rfl ls
  have he : ([.newline].intercalate ls).filterMap Token.entry? = entriesIn ls :=
    found_intercalate _ rfl ls
  rw [metadata, entries_ofTokens, he, titleOf_ofTokens naming (one_le_level h), hh,
    Metadata.ofEntries_eq _ hk]
  rfl

theorem parse_eq : parse none ([.newline].intercalate ls) =
    .ok (ofTokens (metadataIn ls).naming ([.newline].intercalate ls)) := by
  have hk : ∀ e ∈ entriesIn ls, ∃ k : Keyword, e.keyword = k.name := fun e he =>
    (proper_of_mem h e he).known
  have he : ([.newline].intercalate ls).filterMap Token.entry? = entriesIn ls :=
    found_intercalate _ rfl ls
  rw [← he] at hk
  rw [parse_eq_ofTokens (.inr hk), namingFor, he]
  rfl

end Lines

/-- Every text is a document, with the naming that its lines ask for. -/
theorem ofText_eq (s : Text) : ofText s =
    .ok (ofTokens (metadataIn (linesOf s)).naming ([.newline].intercalate (linesOf s))) := by
  obtain ⟨t, ht, htokens⟩ := tokens_linesOf s
  rw [ofText, ht]
  simp only [htokens]
  exact parse_eq (readable_linesOf s)

/-- The chords of a text are those that its chord texts read as. -/
theorem exists_ofText (s : Text) : ∃ d, ofText s = .ok d ∧
    d.chords = (chordTexts (linesOf s)).map (Chord.read (metadataIn (linesOf s)).naming) := by
  refine ⟨_, ofText_eq s, ?_⟩
  rw [chords_ofTokens, found_intercalate _ rfl]
  rfl

end Document
end ChordSheet
