import ChordSheet.Metadata
import ChordSheet.Proofs.Text.Lines

/-! Entries that are read from lines, and the metadata that they make up.

* `Entry.Proper`: a known keyword, and a value as it is read from a line.
* `Entry.proper_of_read?`, `Entry.read?_write`: what is read is proper, and reads back.
* `firstOf`: the first value of a keyword.
* `Metadata.ofEntries_eq`: the first value of each keyword counts.
* `Metadata.firstOf_present`: the fields of a header are found again. -/
namespace ChordSheet
set_option autoImplicit false

/-! ## Keywords -/

namespace Keyword

theorem ofName?_name (k : Keyword) : ofName? k.name = some k := by
  cases k with
  | field f => cases f <;> rfl
  | naming => rfl

theorem ofWord?_name (k : Keyword) : ofWord? k.name = some k := by
  cases k with
  | field f => cases f <;> rfl
  | naming => rfl

theorem name_injective {j k : Keyword} (h : j.name = k.name) : j = k := by
  have hj := ofName?_name j
  rw [h, ofName?_name] at hj
  exact (Option.some.inj hj).symm

theorem field_name_injective {f g : Field} (h : f.name = g.name) : f = g := by
  have hk : Keyword.field f = Keyword.field g := name_injective h
  exact Keyword.field.inj hk

theorem isWordChar_of_mem_name {k : Keyword} {c : Char} (h : c ∈ k.name) :
    Entry.isWordChar c := by
  have hall : k.name.all Entry.isWordChar := by
    cases k with
    | field f => cases f <;> decide
    | naming => decide
  exact List.all_eq_true.mp hall c h

theorem exists_name_cons (k : Keyword) : ∃ c w, k.name = c :: w ∧ Entry.isWordChar c := by
  cases hk : k.name with
  | nil =>
    cases k with
    | field f => cases f <;> cases hk
    | naming => cases hk
  | cons c w => exact ⟨c, w, rfl, isWordChar_of_mem_name (by rw [hk]; exact List.mem_cons_self)⟩

end Keyword

/-! ## Entries -/

namespace Entry

theorem not_isWordChar_of_isBlank {c : Char} (hc : isBlank c) : isWordChar c = false := by
  cases hw : isWordChar c with
  | false => rfl
  | true =>
    have halpha : c.isAlpha = (decide (c.val ≥ 'A'.val ∧ c.val ≤ 'Z'.val) ||
        (c.val ≥ 'a'.val && c.val ≤ 'z'.val)) := rfl
    simp only [isBlank, isWordChar, halpha, Bool.or_eq_true, Bool.and_eq_true, decide_eq_true_eq,
      beq_iff_eq, ge_iff_le, UInt32.le_iff_toNat_le] at hc hw
    have hn : c.toNat = c.val.toNat := rfl
    rcases hw with (hw | hw) | hw
    · simp at hw; omega
    · simp at hw; omega
    · subst hw; simp at hc

theorem takeWhile_append_blanks (s : Text) {z : Text} (hz : ∀ c ∈ z, isBlank c) :
    (s ++ z).takeWhile isWordChar = s.takeWhile isWordChar := by
  induction s with
  | nil =>
    cases z with
    | nil => rfl
    | cons c z =>
      have hc := not_isWordChar_of_isBlank (hz c (by simp))
      rw [List.nil_append, List.takeWhile_cons_of_neg (by simp [hc]), List.takeWhile_nil]
  | cons c s ih => rw [List.cons_append, List.takeWhile_cons, List.takeWhile_cons, ih]

theorem dropWhile_append_blanks (s : Text) {z : Text} (hz : ∀ c ∈ z, isBlank c) :
    (s ++ z).dropWhile isWordChar = s.dropWhile isWordChar ++ z := by
  induction s with
  | nil =>
    cases z with
    | nil => rfl
    | cons c z =>
      have hc := not_isWordChar_of_isBlank (hz c (by simp))
      rw [List.nil_append, List.dropWhile_cons_of_neg (by simp [hc]), List.dropWhile_nil,
        List.nil_append]
  | cons c s ih =>
    rw [List.cons_append, List.dropWhile_cons, List.dropWhile_cons, ih]
    by_cases hc : isWordChar c <;> simp [hc]

theorem read?_eq_some_iff (line : Text) (e : Entry) :
    read? line = some e ↔ ∃ rest k,
      stripLeft ((stripLeft line).dropWhile isWordChar) = ':' :: rest ∧
      Keyword.ofWord? ((stripLeft line).takeWhile isWordChar) = some k ∧ e.keyword = k.name ∧
      value? rest = some e.content := by
  obtain ⟨word, content⟩ := e
  rw [read?]
  split
  · next rest h =>
    simp only [h, Option.bind_eq_bind, Option.bind_eq_some_iff, Option.some.injEq, Entry.mk.injEq]
    constructor
    · rintro ⟨k, hk, v, hv, rfl, rfl⟩
      exact ⟨rest, k, rfl, hk, rfl, hv⟩
    · rintro ⟨_, k, h', hk, rfl, hv⟩
      cases h'
      exact ⟨k, hk, content, hv, rfl, rfl⟩
  · next h =>
    constructor
    · intro h'
      cases h'
    · rintro ⟨rest, -, h', -⟩
      exact absurd h' (h rest)

theorem value?_append_blanks (s : Text) {z : Text} (hz : ∀ c ∈ z, isBlank c) :
    value? (s ++ z) = value? s := by
  rw [value?, value?, strip_append_blanks s hz]

/-- Blanks at the end of a line do not matter. -/
theorem read?_append_blanks (line : Text) {z : Text} (hz : ∀ c ∈ z, isBlank c) :
    read? (line ++ z) = read? line := by
  ext e
  rw [read?_eq_some_iff, read?_eq_some_iff, stripLeft_append_blanks line hz]
  by_cases hl : stripLeft line = []
  · rw [if_pos hl, hl]
  rw [if_neg hl, takeWhile_append_blanks _ hz, dropWhile_append_blanks _ hz,
    stripLeft_append_blanks _ hz]
  by_cases hr : stripLeft ((stripLeft line).dropWhile isWordChar) = []
  · rw [if_pos hr, hr]
  rw [if_neg hr]
  constructor
  · rintro ⟨rest, k, h, hk, he, hv⟩
    obtain ⟨c, s, hs⟩ := List.exists_cons_of_ne_nil hr
    rw [hs, List.cons_append, List.cons.injEq] at h
    obtain ⟨rfl, rfl⟩ := h
    exact ⟨s, k, hs, hk, he, by rw [← hv, value?_append_blanks s hz]⟩
  · rintro ⟨rest, k, h, hk, he, hv⟩
    exact ⟨rest ++ z, k, by rw [h, List.cons_append], hk, he,
      by rw [← hv, value?_append_blanks rest hz]⟩

/-- Entries as they are read from a line of lyrics. -/
structure Proper (e : Entry) : Prop where
  known : ∃ k : Keyword, e.keyword = k.name
  flush : strip e.content = e.content
  filled : e.content ≠ []
  clean : Avoids lyricStops e.content

theorem value?_eq_some_iff (s v : Text) :
    value? s = some v ↔ strip s = v ∧ v ≠ [] ∧ '\n' ∉ v := by
  unfold value?
  by_cases h : (strip s).isEmpty || (strip s).contains '\n'
  · rw [if_pos h]
    simp only [Bool.or_eq_true, List.isEmpty_iff, List.contains_iff_mem] at h
    constructor
    · intro h'
      cases h'
    · rintro ⟨rfl, hne, hn⟩
      exact absurd h (not_or.mpr ⟨hne, hn⟩)
  · rw [if_neg h, Option.some.injEq]
    simp only [Bool.or_eq_true, List.isEmpty_iff, List.contains_iff_mem, not_or] at h
    constructor
    · rintro rfl
      exact ⟨rfl, h⟩
    · rintro ⟨rfl, -⟩
      rfl

theorem mem_of_read? {line : Text} {e : Entry} (h : read? line = some e) {c : Char}
    (hc : c ∈ e.content) : c ∈ line := by
  obtain ⟨rest, k, hr, -, -, hv⟩ := (read?_eq_some_iff line e).mp h
  rw [value?_eq_some_iff] at hv
  have hrest : c ∈ ':' :: rest := List.mem_cons_of_mem _ (mem_of_mem_strip (by rw [hv.1]; exact hc))
  rw [← hr] at hrest
  exact mem_of_mem_stripLeft ((List.dropWhile_sublist _).mem (mem_of_mem_stripLeft hrest))

theorem proper_of_read? {line : Text} {e : Entry} (h : read? line = some e)
    (hl : Avoids lyricStops line) : e.Proper := by
  have hclean := hl.of_subset (fun c hc => mem_of_read? h hc)
  obtain ⟨rest, k, -, -, hk, hv⟩ := (read?_eq_some_iff line e).mp h
  obtain ⟨hs, hne, -⟩ := (value?_eq_some_iff rest e.content).mp hv
  refine ⟨⟨k, hk⟩, ?_, hne, hclean⟩
  rw [← hs, strip_strip]

theorem value?_space (s : Text) : value? (' ' :: s) = value? s := by
  have hb : isBlank ' ' = true := by decide
  rw [value?, value?, strip, stripLeft_cons, if_pos hb, strip]

/-- A line that has been written reads as its keyword with what can be read of its value. -/
theorem read?_write_eq (k : Keyword) (v : Text) :
    read? (write ⟨k.name, v⟩) = (value? v).map (⟨k.name, ·⟩) := by
  obtain ⟨c, w, hw, hc⟩ := k.exists_name_cons
  have hword : ∀ d ∈ c :: w, isWordChar d := fun d hd =>
    Keyword.isWordChar_of_mem_name (k := k) (by rw [hw]; exact hd)
  have hblank : ¬ isBlank c := fun h => by simp [not_isWordChar_of_isBlank h] at hc
  have hcolon : ¬ isWordChar ':' := by decide
  have hl : stripLeft (write ⟨k.name, v⟩) = c :: w ++ ':' :: ' ' :: v := by
    rw [write, hw, List.cons_append, stripLeft_cons, if_neg hblank]
  have hsplit : stripLeft ((c :: w ++ ':' :: ' ' :: v).dropWhile isWordChar) = ':' :: ' ' :: v ∧
      (c :: w ++ ':' :: ' ' :: v).takeWhile isWordChar = k.name := by
    rw [List.dropWhile_append_of_pos hword, List.takeWhile_append_of_pos hword,
      List.dropWhile_cons_of_neg hcolon, List.takeWhile_cons_of_neg hcolon, List.append_nil, hw]
    exact ⟨rfl, rfl⟩
  ext e
  rw [read?_eq_some_iff, hl, hsplit.1, hsplit.2, k.ofWord?_name, Option.map_eq_some_iff]
  constructor
  · rintro ⟨_, j, h, hj, he, hv⟩
    cases h
    cases hj
    rw [value?_space] at hv
    exact ⟨e.content, hv, by rw [← he]⟩
  · rintro ⟨u, hu, rfl⟩
    exact ⟨' ' :: v, k, rfl, rfl, rfl, by rw [value?_space, hu]⟩

theorem read?_write {e : Entry} (he : e.Proper) : read? e.write = some e := by
  obtain ⟨k, hk⟩ := he.known
  obtain ⟨word, content⟩ := e
  obtain rfl : word = k.name := hk
  have hv : value? content = some content :=
    (value?_eq_some_iff content content).mpr ⟨he.flush, he.filled, he.clean.not_mem (by decide)⟩
  rw [read?_write_eq, hv]
  rfl

end Entry

/-! ## First values -/

def firstOf (word : Text) : List Entry → Option Text
  | [] => none
  | e :: es => if e.keyword = word then some e.content else firstOf word es

theorem firstOf_append (word : Text) (es fs : List Entry) :
    firstOf word (es ++ fs) = (firstOf word es).or (firstOf word fs) := by
  induction es with
  | nil => rfl
  | cons e es ih =>
    rw [List.cons_append, firstOf, firstOf, ih]
    by_cases h : e.keyword = word <;> simp [h]

theorem firstOf_eq_none {word : Text} {es : List Entry} (h : ∀ e ∈ es, e.keyword ≠ word) :
    firstOf word es = none := by
  induction es with
  | nil => rfl
  | cons e es ih =>
    obtain ⟨he, hes⟩ := List.forall_mem_cons.mp h
    rw [firstOf, if_neg he, ih hes]

theorem exists_of_firstOf {word s : Text} {es : List Entry} (h : firstOf word es = some s) :
    ∃ e ∈ es, e.keyword = word ∧ e.content = s := by
  induction es with
  | nil => cases h
  | cons e es ih =>
    rw [firstOf] at h
    by_cases he : e.keyword = word
    · rw [if_pos he] at h
      exact ⟨e, by simp, he, Option.some.inj h⟩
    · rw [if_neg he] at h
      obtain ⟨x, hx, hw⟩ := ih h
      exact ⟨x, by simp [hx], hw⟩

namespace Metadata

def namingIn (es : List Entry) : Naming :=
  ((firstOf Keyword.naming.name es).map namingOf).getD .b

/-- What a list of entries says, the first value of each keyword. -/
def first (title : Option Text) (es : List Entry) : Metadata :=
  ⟨title, fun f => firstOf f.name es, namingIn es⟩

/-- What the entries add to what is known already. -/
def enrich (seen : List Text) (m : Metadata) (es : List Entry) : Metadata :=
  { title := m.title
    value := fun f => if f.name ∈ seen then m.value f else (firstOf f.name es).or (m.value f)
    naming := if Keyword.naming.name ∈ seen then m.naming
      else ((firstOf Keyword.naming.name es).map namingOf).getD m.naming }

theorem enrich_cons_of_mem {seen : List Text} {e : Entry} (h : e.keyword ∈ seen) (m : Metadata)
    (es : List Entry) : enrich seen m (e :: es) = enrich seen m es := by
  have hw : ∀ w : Text, w ∉ seen → firstOf w (e :: es) = firstOf w es := fun w hw =>
    if_neg fun he => hw (by rw [← he]; exact h)
  rw [enrich, enrich, Metadata.mk.injEq]
  refine ⟨rfl, ?_, ?_⟩
  · funext f
    by_cases hf : f.name ∈ seen
    · rw [if_pos hf, if_pos hf]
    · rw [if_neg hf, if_neg hf, hw _ hf]
  · by_cases hn : Keyword.naming.name ∈ seen
    · rw [if_pos hn, if_pos hn]
    · rw [if_neg hn, if_neg hn, hw _ hn]

theorem name_ne_naming (f : Field) : f.name ≠ Keyword.naming.name := fun h =>
  Keyword.noConfusion (Keyword.name_injective (j := .field f) h)

section Step
variable {seen : List Text} {e : Entry} (h : e.keyword ∉ seen) (m : Metadata) (es : List Entry)
include h

theorem enrich_setField {f : Field} (he : e.keyword = f.name) :
    enrich (e.keyword :: seen) (m.setField f e.content) es = enrich seen m (e :: es) := by
  rw [he] at h
  rw [enrich, enrich, Metadata.mk.injEq]
  refine ⟨rfl, ?_, ?_⟩
  · funext g
    by_cases hg : g = f
    · subst hg
      simp [he, h, setField, firstOf]
    · have hn : f.name ≠ g.name := fun hn => hg (Keyword.field_name_injective hn.symm)
      simp [he, setField, firstOf, hg, hn, Ne.symm hn]
  · simp [he, firstOf, setField, name_ne_naming f, Ne.symm (name_ne_naming f)]

theorem enrich_naming (he : e.keyword = Keyword.naming.name) :
    enrich (e.keyword :: seen) { m with naming := namingOf e.content } es =
      enrich seen m (e :: es) := by
  rw [he] at h
  rw [enrich, enrich, Metadata.mk.injEq]
  refine ⟨rfl, ?_, ?_⟩
  · funext f
    simp [he, firstOf, name_ne_naming f, Ne.symm (name_ne_naming f)]
  · simp [he, h, firstOf]

end Step

theorem addEntries_eq_enrich {es : List Entry} (h : ∀ e ∈ es, ∃ k : Keyword, e.keyword = k.name)
    (seen : List Text) (m : Metadata) : addEntries seen m es = .ok (enrich seen m es) := by
  induction es generalizing seen m with
  | nil => simp [addEntries, enrich, firstOf]
  | cons e es ih =>
    obtain ⟨⟨k, hk⟩, hes⟩ := List.forall_mem_cons.mp h
    unfold addEntries
    by_cases hs : e.keyword ∈ seen
    · rw [if_pos (by simpa using hs), ih hes, enrich_cons_of_mem hs]
    rw [if_neg (by simpa using hs)]
    cases k with
    | field f =>
      have hw : m.withEntry e = .ok (m.setField f e.content) := by
        rw [withEntry, hk, Keyword.ofName?_name]
      rw [hw]
      exact (ih hes _ _).trans (congrArg _ (enrich_setField hs m es hk))
    | naming =>
      have hw : m.withEntry e = .ok { m with naming := namingOf e.content } := by
        rw [withEntry, hk, Keyword.ofName?_name]
      rw [hw]
      exact (ih hes _ _).trans (congrArg _ (enrich_naming hs m es hk))

/-- The first value of each keyword counts, and there is no fault. -/
theorem ofEntries_eq (title : Option Text) {es : List Entry}
    (h : ∀ e ∈ es, ∃ k : Keyword, e.keyword = k.name) :
    ofEntries title es = .ok (first title es) := by
  rw [ofEntries, addEntries_eq_enrich h]
  simp [enrich, first, namingIn]

/-! ## Present fields -/

/-- A value that is worth a line. -/
def filled (m : Metadata) (f : Field) : Option Text := (m.value f).filter (· ≠ [])

theorem filled_of_ne_nil {m : Metadata} (h : ∀ f v, m.value f = some v → v ≠ []) :
    m.filled = m.value := by
  funext f
  rw [filled]
  cases hv : m.value f with
  | none => rfl
  | some v => exact if_pos (decide_eq_true (h f v hv))

theorem present_eq (m : Metadata) :
    m.present = Field.all.filterMap fun f => (m.filled f).map (⟨f.name, ·⟩) := by
  unfold present
  congr 1
  funext f
  unfold filled
  cases m.value f with
  | none => rfl
  | some s => cases s <;> rfl

/-- Fields that stand in their order are found by their names. -/
theorem firstOf_fields (v : Field → Option Text) (f : Field) :
    firstOf f.name (Field.all.filterMap fun g => (v g).map (⟨g.name, ·⟩)) = v f := by
  have h : ∀ fs : List Field,
      firstOf f.name (fs.filterMap fun g => (v g).map (⟨g.name, ·⟩)) =
        if f ∈ fs then v f else none := by
    intro fs
    induction fs with
    | nil => rfl
    | cons g fs ih =>
      rw [List.filterMap_cons]
      by_cases hg : g = f
      · subst hg
        cases hv : v g with
        | none => simpa [hv] using ih
        | some s => simp [firstOf]
      · have hn : g.name ≠ f.name := fun hn => hg (Keyword.field_name_injective hn)
        cases hv : v g with
        | none => simpa [Ne.symm hg] using ih
        | some s => simpa [firstOf, hn, Ne.symm hg] using ih
  have hf : f ∈ Field.all := by cases f <;> decide
  rw [h, if_pos hf]

theorem firstOf_present (m : Metadata) (f : Field) : firstOf f.name m.present = m.filled f := by
  rw [present_eq, firstOf_fields]

theorem mem_present (m : Metadata) (e : Entry) :
    e ∈ m.present ↔ ∃ f : Field, e.keyword = f.name ∧ m.filled f = some e.content := by
  obtain ⟨word, content⟩ := e
  rw [present_eq, List.mem_filterMap]
  constructor
  · rintro ⟨f, -, h⟩
    obtain ⟨s, hs, he⟩ := Option.map_eq_some_iff.mp h
    cases he
    exact ⟨f, rfl, hs⟩
  · rintro ⟨f, rfl, hf⟩
    exact ⟨f, by cases f <;> decide, by rw [hf]; rfl⟩

theorem firstOf_naming_present (m : Metadata) :
    firstOf Keyword.naming.name m.present = none := by
  refine firstOf_eq_none fun e he => ?_
  obtain ⟨f, hf, -⟩ := (mem_present m e).mp he
  rw [hf]
  exact name_ne_naming f

end Metadata
end ChordSheet
