import ChordSheet.Proofs.Metadata.First

/-! Which lines are metadata lines, told without reading them.

* `Keyword.ofWord?_eq_some_iff`: a word is a keyword if it is one but for the case of its letters.
* `Entry.Laid`: a line as a word, a colon and a value, each of them between blanks.
* `Entry.read?_iff_laid`: an entry is read from a line that is laid out so, with a known word.
* `Entry.laid_iff`: its parts are what stands before and behind the first colon.
* `Entry.read?_iff_colon`: so that colon decides, and what is read can be written and read again. -/
namespace ChordSheet
set_option autoImplicit false

/-! ## Keywords in any case -/

namespace Keyword

theorem ofWord?_eq_some_iff (word : Text) (k : Keyword) :
    ofWord? word = some k ↔ lower word = lower k.name := by
  constructor
  · intro h
    have hk := List.find?_some h
    exact (beq_iff_eq.mp hk).symm
  · intro h
    rw [ofWord?, h]
    exact ofWord?_name k

end Keyword

namespace Entry

theorem isWordChar_of_toLower {c : Char} (h : isWordChar c.toLower) : isWordChar c := by
  by_cases hc : c.val ≥ 'A'.val ∧ c.val ≤ 'Z'.val
  · have hupper : c.isUpper := decide_eq_true hc
    show ((c.isUpper || c.isLower) || c == '-') = true
    simp [hupper]
  · have hlower : c.toLower = c := dif_neg hc
    rwa [hlower] at h

theorem isWordChar_of_lower {word : Text} {k : Keyword}
    (h : Keyword.lower word = Keyword.lower k.name) : ∀ c ∈ word, isWordChar c := by
  have hall : (Keyword.lower k.name).all isWordChar := by
    cases k with
    | field f => cases f <;> decide
    | naming => decide
  intro c hc
  have hlower : c.toLower ∈ Keyword.lower k.name := h ▸ List.mem_map_of_mem hc
  exact isWordChar_of_toLower (List.all_eq_true.mp hall _ hlower)

theorem not_blank_of_isWordChar {c : Char} (hc : isWordChar c) : isBlank c = false := by
  cases hb : isBlank c with
  | false => rfl
  | true =>
    rw [not_isWordChar_of_isBlank hb] at hc
    cases hc

theorem strip_word {word : Text} (h : ∀ c ∈ word, isWordChar c) : strip word = word := by
  have hb : ∀ c ∈ word, isBlank c = false := fun c hc => not_blank_of_isWordChar (h c hc)
  refine strip_of_flush ?_ (stripRight_of_no_blank hb)
  cases word with
  | nil => rfl
  | cons c word => rw [stripLeft_cons, if_neg (by simp [hb c List.mem_cons_self])]

/-- Blanks and the colon behind them end a word. -/
theorem span_word {word z : Text} (hw : ∀ c ∈ word, isWordChar c) (hz : ∀ c ∈ z, isBlank c)
    (s : Text) : (word ++ (z ++ ':' :: s)).takeWhile isWordChar = word ∧
      (word ++ (z ++ ':' :: s)).dropWhile isWordChar = z ++ ':' :: s := by
  have hstop : ∃ c t, z ++ ':' :: s = c :: t ∧ ¬ isWordChar c := by
    cases z with
    | nil => exact ⟨':', s, rfl, by decide⟩
    | cons c z => exact ⟨c, z ++ ':' :: s, rfl, by simp [not_isWordChar_of_isBlank (hz c (by simp))]⟩
  obtain ⟨c, t, ht, hc⟩ := hstop
  rw [ht, List.takeWhile_append_of_pos hw, List.dropWhile_append_of_pos hw,
    List.takeWhile_cons_of_neg hc, List.dropWhile_cons_of_neg hc, List.append_nil]
  exact ⟨rfl, rfl⟩

/-! ## Lines of entries -/

/-- A word, a colon and a value, each of them between blanks; the value begins and ends in no blank
and has no line feed in it. -/
structure Laid (line word value : Text) : Prop where
  whole : ∃ a b c d, line = a ++ word ++ b ++ ':' :: (c ++ value ++ d) ∧
    (∀ x ∈ a, isBlank x) ∧ (∀ x ∈ b, isBlank x) ∧ (∀ x ∈ c, isBlank x) ∧ ∀ x ∈ d, isBlank x
  word : ∀ x ∈ word, isWordChar x
  flush : strip value = value
  filled : value ≠ []
  oneLine : '\n' ∉ value

/-- What a line is laid out as stands before and behind its first colon. -/
theorem laid_iff (line word value : Text) : Laid line word value ↔
    ∃ before after, line = before ++ ':' :: after ∧ ':' ∉ before ∧ strip before = word ∧
      (∀ x ∈ word, isWordChar x) ∧ strip after = value ∧ value ≠ [] ∧ '\n' ∉ value := by
  constructor
  · rintro ⟨⟨a, b, c, d, hline, ha, hb, hc, hd⟩, hw, hv, hne, hn⟩
    have hcolon : ∀ z : Text, (∀ x ∈ z, isBlank x) → ':' ∉ z := fun z hz hmem =>
      absurd (hz ':' hmem) (by decide)
    have hword : ':' ∉ word := fun hmem => absurd (hw ':' hmem) (by decide)
    refine ⟨a ++ word ++ b, c ++ value ++ d, hline, ?_, strip_between ha (strip_word hw) hb, hw,
      strip_between hc hv hd, hne, hn⟩
    simp [hcolon a ha, hcolon b hb, hword]
  · rintro ⟨before, after, rfl, -, rfl, hw, rfl, hne, hn⟩
    obtain ⟨a, b, ha, hb, hbefore⟩ := exists_strip before
    obtain ⟨c, d, hc, hd, hafter⟩ := exists_strip after
    refine ⟨⟨a, b, c, d, ?_, ha, hb, hc, hd⟩, hw, strip_strip after, hne, hn⟩
    rw [← hbefore, ← hafter]

theorem read?_iff_laid (line : Text) (e : Entry) : read? line = some e ↔
    ∃ (word : Text) (k : Keyword), Laid line word e.content ∧ Keyword.lower word = Keyword.lower k.name ∧
      e.keyword = k.name := by
  rw [read?_eq_some_iff]
  constructor
  · rintro ⟨rest, k, hrest, hk, he, hv⟩
    obtain ⟨hstrip, hne, hn⟩ := (value?_eq_some_iff rest e.content).mp hv
    have hlower := (Keyword.ofWord?_eq_some_iff _ k).mp hk
    obtain ⟨a, ha, hline⟩ := exists_stripLeft line
    obtain ⟨b, hb, hdrop⟩ := exists_stripLeft ((stripLeft line).dropWhile isWordChar)
    obtain ⟨c, d, hc, hd, hvalue⟩ := exists_strip rest
    refine ⟨_, k, ⟨⟨a, b, c, d, ?_, ha, hb, hc, hd⟩, isWordChar_of_lower hlower, ?_, hne, hn⟩,
      hlower, he⟩
    · rw [← hstrip, ← hvalue, ← hrest, List.append_assoc, List.append_assoc, ← hdrop,
        List.takeWhile_append_dropWhile]
      exact hline
    · rw [← hstrip, strip_strip]
  · rintro ⟨word, k, ⟨⟨a, b, c, d, rfl, ha, hb, hc, hd⟩, hw, hv, hne, hn⟩, hlower, he⟩
    have hvalue : value? (c ++ e.content ++ d) = some e.content :=
      (value?_eq_some_iff _ _).mpr ⟨strip_between hc hv hd, hne, hn⟩
    have hcolon : stripLeft (b ++ ':' :: (c ++ e.content ++ d)) = ':' :: (c ++ e.content ++ d) := by
      rw [stripLeft_blanks_append hb]
      rfl
    have hline : stripLeft (a ++ word ++ b ++ ':' :: (c ++ e.content ++ d)) =
        word ++ (b ++ ':' :: (c ++ e.content ++ d)) := by
      rw [List.append_assoc, List.append_assoc, stripLeft_blanks_append ha]
      cases word with
      | nil =>
        obtain ⟨x, w, hname, -⟩ := k.exists_name_cons
        rw [hname] at hlower
        cases hlower
      | cons x word =>
        have hx := not_blank_of_isWordChar (hw x List.mem_cons_self)
        rw [List.cons_append, stripLeft_cons, if_neg (by simp [hx])]
    obtain ⟨htake, hdrop⟩ := span_word hw hb (c ++ e.content ++ d)
    refine ⟨c ++ e.content ++ d, k, ?_, ?_, he, hvalue⟩
    · rw [hline, hdrop, hcolon]
    · rw [hline, htake, Keyword.ofWord?_eq_some_iff]
      exact hlower

/-- What is read from a line is told by the first colon on it: the word before it is a keyword but
for the case of its letters, and behind it there is something, on one line; blanks around them do
not matter. Written again, an entry that has been read is read as itself. -/
theorem read?_iff_colon (line : Text) :
    (∀ e, read? line = some e ↔ ∃ before after, ∃ k : Keyword,
      line = before ++ ':' :: after ∧ ':' ∉ before ∧
      Keyword.lower (strip before) = Keyword.lower k.name ∧
      strip after ≠ [] ∧ '\n' ∉ strip after ∧ e = ⟨k.name, strip after⟩) ∧
    ∀ e, read? line = some e → read? e.write = some e := by
  constructor
  · intro e
    obtain ⟨word, content⟩ := e
    rw [read?_iff_laid]
    constructor
    · rintro ⟨w, k, hl, hlower, rfl⟩
      obtain ⟨before, after, hline, hcolon, rfl, -, rfl, hne, hn⟩ := (laid_iff _ _ _).mp hl
      exact ⟨before, after, k, hline, hcolon, hlower, hne, hn, rfl⟩
    · rintro ⟨before, after, k, hline, hcolon, hlower, hne, hn, he⟩
      obtain ⟨rfl, rfl⟩ := Entry.mk.inj he
      exact ⟨strip before, k, (laid_iff _ _ _).mpr ⟨before, after, hline, hcolon, rfl,
        isWordChar_of_lower hlower, rfl, hne, hn⟩, hlower, rfl⟩
  · rintro ⟨word, content⟩ h
    obtain ⟨w, k, hl, -, hk⟩ := (read?_iff_laid _ _).mp h
    obtain rfl : word = k.name := hk
    rw [read?_write_eq, (value?_eq_some_iff _ _).mpr ⟨hl.flush, hl.filled, hl.oneLine⟩]
    rfl

/-- All colons behind the first one belong to the value, and so do blanks inside it. -/
example : read? " aRTIST\t:  Me:  you \n".toList = some ⟨"Artist".toList, "Me:  you".toList⟩ := by
  decide

end Entry
end ChordSheet
