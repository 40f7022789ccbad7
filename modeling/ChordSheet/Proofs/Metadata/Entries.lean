import ChordSheet.Proofs.Metadata.Unknown

/-! What a list of entries makes up, told by the first entry for each keyword.

* `firstOf_eq_find?`: the first value of a keyword stands in the first entry that has it.
* `Metadata.namingOf_eq_h_iff`: a value asks for the naming `H` if it is an `H` in capitals.
* `Metadata.eq_first_iff`: the metadata of known entries, field by field.
* `Entry.Rearranged`: entries of different keywords may have changed places.
* `Metadata.ofEntries_first_wins`: entries fail at an unknown one, or else the first ones count. -/
namespace ChordSheet
set_option autoImplicit false

/-! ## First entries -/

theorem firstOf_eq_find? (word : Text) (es : List Entry) :
    firstOf word es = (es.find? (fun e => e.keyword == word)).map (·.content) := by
  induction es with
  | nil => rfl
  | cons e es ih =>
    by_cases he : e.keyword = word
    · simp [firstOf, he]
    · simp [firstOf, he, ih]

namespace Entry

theorem isKnown_eq_false_iff (e : Entry) :
    e.isKnown = false ↔ ∀ k : Keyword, e.keyword ≠ k.name := by
  rw [← Bool.not_eq_true, isKnown_iff, not_exists]

/-- The first unknown entry has nothing but known ones before it. -/
theorem find?_unknown_iff (es : List Entry) (e : Entry) :
    es.find? (fun x => !x.isKnown) = some e ↔ ∃ before after, es = before ++ e :: after ∧
      (∀ x ∈ before, ∃ k : Keyword, x.keyword = k.name) ∧ ∀ k : Keyword, e.keyword ≠ k.name := by
  simp only [List.find?_eq_some_iff_append, Bool.not_eq_true', isKnown_eq_false_iff, Bool.not_not,
    isKnown_iff]
  constructor
  · rintro ⟨hk, before, after, rfl, hbefore⟩
    exact ⟨before, after, rfl, hbefore, hk⟩
  · rintro ⟨before, after, rfl, hbefore, hk⟩
    exact ⟨hk, before, after, rfl, hbefore⟩

/-! ## Other orders -/

/-- The same entries for each keyword, in the same order; those of different keywords may have
changed places. -/
def Rearranged (es fs : List Entry) : Prop :=
  ∀ word, es.filter (fun e => e.keyword == word) = fs.filter (fun e => e.keyword == word)

theorem rearranged_swap {e f : Entry} (h : e.keyword ≠ f.keyword) (before after : List Entry) :
    Rearranged (before ++ e :: f :: after) (before ++ f :: e :: after) := by
  intro word
  rw [List.filter_append, List.filter_append]
  congr 1
  by_cases he : e.keyword = word
  · have hf : f.keyword ≠ word := fun hf => h (he.trans hf.symm)
    simp [he, hf]
  · simp [List.filter_cons, he]

theorem Rearranged.find?_eq {es fs : List Entry} (h : Rearranged es fs) (word : Text) :
    es.find? (fun e => e.keyword == word) = fs.find? (fun e => e.keyword == word) := by
  rw [← List.head?_filter, ← List.head?_filter, h word]

theorem Rearranged.mem_iff {es fs : List Entry} (h : Rearranged es fs) (e : Entry) :
    e ∈ es ↔ e ∈ fs := by
  have hmem : ∀ xs : List Entry, e ∈ xs ↔ e ∈ xs.filter (fun x => x.keyword == e.keyword) := by
    simp
  rw [hmem es, hmem fs, h e.keyword]

end Entry

namespace Metadata

/-! ## The naming -/

theorem toUpper_eq_h_iff (c : Char) : c.toUpper = 'H' ↔ c = 'H' ∨ c = 'h' := by
  have hn : c.toNat = c.val.toNat := rfl
  unfold Char.toUpper
  split
  · next h =>
    simp only [UInt32.le_iff_toNat_le] at h
    have hbounds : 97 ≤ c.val.toNat ∧ c.val.toNat ≤ 122 := h
    simp only [Char.ext_iff, ← UInt32.toNat_inj, UInt32.toNat_add]
    simp
    omega
  · next h =>
    constructor
    · exact .inl
    · rintro (hc | rfl)
      · exact hc
      · exact absurd (by decide) h

theorem namingOf_eq_h_iff (content : Text) :
    namingOf content = .h ↔ content.map Char.toUpper = ['H'] := by
  have hcapital : content.map Char.toUpper = ['H'] ↔ content = ['H'] ∨ content = ['h'] := by
    cases content with
    | nil => simp
    | cons c s => cases s <;> simp [toUpper_eq_h_iff]
  rw [hcapital, namingOf]
  split_ifs with h <;> simp [h]

theorem namingIn_eq_h_iff (es : List Entry) :
    namingIn es = .h ↔ ∃ e, es.find? (fun e => e.keyword == Keyword.naming.name) = some e ∧
      e.content.map Char.toUpper = ['H'] := by
  rw [namingIn, firstOf_eq_find?]
  cases es.find? (fun e => e.keyword == Keyword.naming.name) with
  | none => simp
  | some e => simp [namingOf_eq_h_iff]

/-! ## All entries -/

theorem eq_first_iff (m : Metadata) (title : Option Text) (es : List Entry) :
    m = first title es ↔ m.title = title ∧
      (∀ f, m.value f = (es.find? (fun e => e.keyword == f.name)).map (·.content)) ∧
      (m.naming = .h ↔ ∃ e, es.find? (fun e => e.keyword == Keyword.naming.name) = some e ∧
        e.content.map Char.toUpper = ['H']) := by
  obtain ⟨t, value, naming⟩ := m
  have hnaming : naming = namingIn es ↔ (naming = .h ↔ namingIn es = .h) := by
    cases naming <;> cases namingIn es <;> simp
  simp only [first, Metadata.mk.injEq, funext_iff, firstOf_eq_find?, hnaming, namingIn_eq_h_iff]

theorem ofEntries_ok_iff (title : Option Text) (es : List Entry) (m : Metadata) :
    ofEntries title es = .ok m ↔
      (∀ e ∈ es, ∃ k : Keyword, e.keyword = k.name) ∧ m = first title es := by
  constructor
  · intro h
    have hk : ∀ e ∈ es, ∃ k : Keyword, e.keyword = k.name := by
      rw [Entry.forall_known_iff]
      cases hf : es.find? (fun e => !e.isKnown) with
      | none => rfl
      | some e =>
        rw [(ofEntries_error_iff title es _).mpr ⟨e, hf, rfl⟩] at h
        cases h
    rw [ofEntries_eq title hk] at h
    exact ⟨hk, (Except.ok.inj h).symm⟩
  · rintro ⟨hk, rfl⟩
    exact ofEntries_eq title hk

theorem exists_error_iff (title : Option Text) (es : List Entry) :
    (∃ fault, ofEntries title es = .error fault) ↔
      ∃ e ∈ es, ∀ k : Keyword, e.keyword ≠ k.name := by
  simp only [ofEntries_error_iff, ← Entry.isKnown_eq_false_iff]
  constructor
  · rintro ⟨fault, e, he, -⟩
    exact ⟨e, List.mem_of_find?_eq_some he, by simpa using List.find?_some he⟩
  · rintro ⟨e, he, hk⟩
    obtain ⟨x, hx⟩ := Option.isSome_iff_exists.mp
      (List.find?_isSome.mpr ⟨e, he, by simp [hk]⟩ : (es.find? (fun x => !x.isKnown)).isSome)
    exact ⟨.unknownKeyword x.keyword, x, hx, rfl⟩

section Orders
variable {es fs : List Entry} (h : Entry.Rearranged es fs) (title : Option Text)
include h

theorem first_rearranged : first title es = first title fs := by
  rw [eq_first_iff]
  simp only [← h.find?_eq]
  exact (eq_first_iff _ title es).mp rfl

theorem ofEntries_ok_rearranged (m : Metadata) :
    ofEntries title es = .ok m ↔ ofEntries title fs = .ok m := by
  rw [ofEntries_ok_iff, ofEntries_ok_iff, first_rearranged h]
  simp only [h.mem_iff]

/-- The fault is that of the first unknown entry, so only their order matters to it. -/
theorem ofEntries_rearranged
    (hu : es.filter (fun e => !e.isKnown) = fs.filter (fun e => !e.isKnown)) :
    ofEntries title es = ofEntries title fs := by
  cases hes : ofEntries title es with
  | ok m => exact ((ofEntries_ok_rearranged h title m).mp hes).symm
  | error fault =>
    obtain ⟨e, he, rfl⟩ := (ofEntries_error_iff title es fault).mp hes
    rw [← List.head?_filter, hu, List.head?_filter] at he
    exact ((ofEntries_error_iff title fs _).mpr ⟨e, he, rfl⟩).symm

end Orders

/-- Entries fail just if one of them is unknown, and the report names the first such one. Or else
the title is kept, and the first entry for a keyword is the one that counts, so that entries of
different keywords can change places: what can be made of them stays the same, and the fault too
as long as the unknown entries keep their order. -/
theorem ofEntries_first_wins (title : Option Text) (es : List Entry) :
    ((∃ fault, ofEntries title es = .error fault) ↔
      ∃ e ∈ es, ∀ k : Keyword, e.keyword ≠ k.name) ∧
    (∀ fault, ofEntries title es = .error fault ↔ ∃ before e after, es = before ++ e :: after ∧
      (∀ x ∈ before, ∃ k : Keyword, x.keyword = k.name) ∧ (∀ k : Keyword, e.keyword ≠ k.name) ∧
      fault = .unknownKeyword e.keyword ∧
      fault.message = "Unknown metadata keyword: ".toList ++ e.keyword) ∧
    (∀ m, ofEntries title es = .ok m ↔ (∀ e ∈ es, ∃ k : Keyword, e.keyword = k.name) ∧
      m.title = title ∧
      (∀ f, m.value f = (es.find? (fun e => e.keyword == f.name)).map (·.content)) ∧
      (m.naming = .h ↔ ∃ e, es.find? (fun e => e.keyword == Keyword.naming.name) = some e ∧
        e.content.map Char.toUpper = ['H'])) ∧
    ∀ fs, Entry.Rearranged es fs →
      (∀ m, ofEntries title es = .ok m ↔ ofEntries title fs = .ok m) ∧
      (es.filter (fun e => !e.isKnown) = fs.filter (fun e => !e.isKnown) →
        ofEntries title es = ofEntries title fs) := by
  refine ⟨exists_error_iff title es, fun fault => ?_, fun m => ?_, fun fs h => ?_⟩
  · rw [ofEntries_error_iff]
    simp only [Entry.find?_unknown_iff]
    constructor
    · rintro ⟨e, ⟨before, after, hes, hbefore, hk⟩, rfl⟩
      exact ⟨before, e, after, hes, hbefore, hk, rfl, rfl⟩
    · rintro ⟨before, e, after, hes, hbefore, hk, rfl, -⟩
      exact ⟨e, ⟨before, after, hes, hbefore, hk⟩, rfl⟩
  · rw [ofEntries_ok_iff, eq_first_iff]
  · exact ⟨ofEntries_ok_rearranged h title, ofEntries_rearranged h title⟩

/-- The artist is given twice, and the naming is asked for in between. -/
def artistTwice : List Entry :=
  [⟨"Artist".toList, "Me".toList⟩, ⟨"B-Notation".toList, ['h']⟩, ⟨"Artist".toList, "You".toList⟩]

def namingBefore : List Entry :=
  [⟨"B-Notation".toList, ['h']⟩, ⟨"Artist".toList, "Me".toList⟩, ⟨"Artist".toList, "You".toList⟩]

theorem ofEntries_first_wins_swapped :
    artistTwice ≠ namingBefore ∧ Entry.Rearranged artistTwice namingBefore ∧
      (artistTwice.filter (fun e => !e.isKnown) = namingBefore.filter (fun e => !e.isKnown)) ∧
      ofEntries none artistTwice = ofEntries none namingBefore := by
  have hswap : Entry.Rearranged artistTwice namingBefore :=
    Entry.rearranged_swap (by decide) [] [⟨"Artist".toList, "You".toList⟩]
  have hknown : artistTwice.filter (fun e => !e.isKnown) =
      namingBefore.filter (fun e => !e.isKnown) := by decide
  obtain ⟨-, -, -, horder⟩ := ofEntries_first_wins none artistTwice
  exact ⟨by decide, hswap, hknown, (horder namingBefore hswap).2 hknown⟩

end Metadata
end ChordSheet
