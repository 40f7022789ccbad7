import ChordSheet.Proofs.Metadata.First

/-! Entries with an unknown keyword, which metadata cannot take in.

* `Entry.isKnown`: the keyword is that of a field or of the naming.
* `Metadata.addEntries_unknown`: entries fail at the first one that is unknown, seen or not.
* `Metadata.ofEntries_error_iff`: they fail for nothing else. -/
namespace ChordSheet
set_option autoImplicit false

namespace Entry

def isKnown (e : Entry) : Bool := (Keyword.ofName? e.keyword).isSome

theorem isKnown_iff (e : Entry) : e.isKnown ↔ ∃ k : Keyword, e.keyword = k.name := by
  constructor
  · intro h
    obtain ⟨k, hk⟩ := Option.isSome_iff_exists.mp h
    have hname := List.find?_some hk
    exact ⟨k, (beq_iff_eq.mp hname).symm⟩
  · rintro ⟨k, hk⟩
    rw [isKnown, hk, Keyword.ofName?_name]
    rfl

theorem forall_known_iff (es : List Entry) :
    (∀ e ∈ es, ∃ k : Keyword, e.keyword = k.name) ↔ es.find? (fun e => !e.isKnown) = none := by
  simp only [List.find?_eq_none, ← isKnown_iff, Bool.not_eq_true', Bool.not_eq_false]

end Entry

namespace Metadata

theorem exists_withEntry (m : Metadata) {e : Entry} (h : e.isKnown) :
    ∃ next, m.withEntry e = .ok next := by
  obtain ⟨k, hk⟩ := Option.isSome_iff_exists.mp h
  rw [withEntry, hk]
  cases k with
  | field f => exact ⟨_, rfl⟩
  | naming => exact ⟨_, rfl⟩

theorem withEntry_unknown (m : Metadata) {e : Entry} (h : e.isKnown = false) :
    m.withEntry e = .error (.unknownKeyword e.keyword) := by
  rw [Entry.isKnown, Option.isSome_eq_false_iff, Option.isNone_iff_eq_none] at h
  rw [withEntry, h]

/-- Only known keywords have been seen, so an unknown one is never left out. -/
theorem addEntries_unknown {es : List Entry} {e : Entry}
    (h : es.find? (fun x => !x.isKnown) = some e) {seen : List Text}
    (hseen : ∀ w ∈ seen, (Keyword.ofName? w).isSome) (m : Metadata) :
    addEntries seen m es = .error (.unknownKeyword e.keyword) := by
  induction es generalizing seen m with
  | nil => cases h
  | cons x es ih =>
    unfold addEntries
    cases hx : x.isKnown with
    | true =>
      rw [List.find?_cons_of_neg (by simp [hx])] at h
      by_cases hs : seen.contains x.keyword
      · rw [if_pos hs]
        exact ih h hseen m
      · obtain ⟨next, hnext⟩ := m.exists_withEntry hx
        rw [if_neg hs, hnext]
        exact ih h (List.forall_mem_cons.mpr ⟨hx, hseen⟩) next
    | false =>
      rw [List.find?_cons_of_pos (by simp [hx])] at h
      obtain rfl : x = e := Option.some.inj h
      have hs : x.keyword ∉ seen := by
        intro hs
        have hknown : x.isKnown = true := hseen x.keyword hs
        rw [hx] at hknown
        cases hknown
      rw [if_neg (by simpa using hs), m.withEntry_unknown hx]

/-- Entries fail just for the first keyword that is unknown. -/
theorem ofEntries_error_iff (title : Option Text) (es : List Entry) (fault : Fault) :
    ofEntries title es = .error fault ↔
      ∃ e, es.find? (fun e => !e.isKnown) = some e ∧ fault = .unknownKeyword e.keyword := by
  cases h : es.find? (fun e => !e.isKnown) with
  | none =>
    rw [ofEntries_eq title ((Entry.forall_known_iff es).mpr h)]
    simp
  | some e =>
    rw [ofEntries, addEntries_unknown h (List.forall_mem_nil _)]
    simp [eq_comm]

end Metadata
end ChordSheet
