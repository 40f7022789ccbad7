import ChordSheet.Proofs.Document.Items
import ChordSheet.Proofs.Metadata.Unknown

/-! What the metadata among the tokens means for the document that is parsed from them.

* `Document.parse_total_iff`: only an unknown keyword is refused, and only if no naming is given.
* `Document.metadata_ofTokens`: a document has the metadata of its tokens.
* `Document.metadata_parse`: so the naming that chords are read in is found in the document again. -/
namespace ChordSheet
set_option autoImplicit false

theorem map_error_iff {ε α β : Type} (r : Except ε α) (g : α → β) (e : ε) :
    r.map g = .error e ↔ r = .error e := by
  cases r <;> simp [Except.map]

namespace Document

/-! ## Refused tokens -/

theorem declaredNaming_error_iff (ts : List Token) (fault : Fault) :
    declaredNaming ts = .error fault ↔
      ∃ e, (ts.filterMap Token.entry?).find? (fun e => !e.isKnown) = some e ∧
        fault = .unknownKeyword e.keyword := by
  rw [declaredNaming, map_error_iff, Metadata.ofEntries_error_iff]

theorem parse_error_iff (given : Option Naming) (ts : List Token) (fault : Fault) :
    parse given ts = .error fault ↔ given = none ∧
      ∃ e, (ts.filterMap Token.entry?).find? (fun e => !e.isKnown) = some e ∧
        fault = .unknownKeyword e.keyword := by
  cases given with
  | some naming => simp [parse]
  | none => rw [parse, map_error_iff, declaredNaming_error_iff, eq_self, true_and]

/-- Tokens are a document in every order; they are refused just when no naming is given and a
keyword is unknown, of which the first one is reported. -/
theorem parse_total_iff (given : Option Naming) (ts : List Token) :
    ((∃ d, parse given ts = .ok d) ↔ given.isSome ∨
      ∀ e ∈ ts.filterMap Token.entry?, ∃ k : Keyword, e.keyword = k.name) ∧
    ∀ fault, parse given ts = .error fault ↔ given = none ∧
      ∃ e, (ts.filterMap Token.entry?).find? (fun e => !e.isKnown) = some e ∧
        fault = .unknownKeyword e.keyword := by
  refine ⟨⟨?_, fun h => ⟨_, parse_eq_ofTokens h⟩⟩, parse_error_iff given ts⟩
  rintro ⟨d, hd⟩
  rw [Entry.forall_known_iff, Option.eq_none_iff_forall_ne_some]
  cases given with
  | some naming => exact .inl rfl
  | none =>
    refine .inr fun e he => ?_
    have hfault := (parse_error_iff none ts _).mpr ⟨rfl, e, he, rfl⟩
    rw [hd] at hfault
    cases hfault

/-- A title is no keyword, so an entry for it is refused where the naming is looked for, and kept
where it is given. -/
theorem parse_title_entry :
    parse none [.entry ⟨"Title".toList, "Low".toList⟩] =
        .error (.unknownKeyword "Title".toList) ∧
      ∀ naming, parse (some naming) [.entry ⟨"Title".toList, "Low".toList⟩] =
        .ok ⟨[{ head := none, items := [.entry ⟨"Title".toList, "Low".toList⟩] }]⟩ :=
  ⟨rfl, fun _ => rfl⟩

/-! ## Metadata of tokens -/

section Metadata
variable {ts : List Token} (hl : ∀ h ∈ ts.filterMap Token.headline?, 1 ≤ h.level)
include hl

theorem metadata_ofTokens (naming : Naming) :
    (ofTokens naming ts).metadata =
      Metadata.ofEntries (titleOf (ts.filterMap Token.headline?)) (ts.filterMap Token.entry?) := by
  rw [metadata, entries_ofTokens, titleOf_ofTokens naming hl]

variable (hk : ∀ e ∈ ts.filterMap Token.entry?, ∃ k : Keyword, e.keyword = k.name)
include hk

theorem exists_parse_metadata (given : Option Naming) :
    ∃ d, parse given ts = .ok d ∧ d.metadata =
      .ok (.first (titleOf (ts.filterMap Token.headline?)) (ts.filterMap Token.entry?)) := by
  refine ⟨_, parse_eq_ofTokens (.inr hk), ?_⟩
  rw [metadata_ofTokens hl, Metadata.ofEntries_eq _ hk]

end Metadata

/-- The metadata of a parsed document is that of its tokens, read one after the other: its naming
is the one that the chords are read in if none is given, and nothing but the entries and the first
title has a part in it, wherever all else may stand. -/
theorem metadata_parse (given : Option Naming) (ts : List Token)
    (hl : ∀ h ∈ ts.filterMap Token.headline?, 1 ≤ h.level)
    (hk : ∀ e ∈ ts.filterMap Token.entry?, ∃ k : Keyword, e.keyword = k.name) :
    ∃ d m, parse given ts = .ok d ∧ d.metadata = .ok m ∧
      Metadata.ofEntries (titleOf (ts.filterMap Token.headline?)) (ts.filterMap Token.entry?) =
        .ok m ∧
      declaredNaming ts = .ok m.naming ∧ parse none ts = parse (some m.naming) ts ∧
      ∀ (other : Option Naming) (us : List Token),
        (∀ h ∈ us.filterMap Token.headline?, 1 ≤ h.level) →
        us.filterMap Token.entry? = ts.filterMap Token.entry? →
        ∃ e n, parse other us = .ok e ∧ e.metadata = .ok n ∧
          n.naming = m.naming ∧ n.value = m.value ∧
          (titleOf (us.filterMap Token.headline?) = titleOf (ts.filterMap Token.headline?) →
            n = m) := by
  obtain ⟨d, hd, hm⟩ := exists_parse_metadata hl hk given
  have hnaming : declaredNaming ts = .ok (Metadata.namingIn (ts.filterMap Token.entry?)) := by
    rw [declaredNaming, Metadata.ofEntries_eq none hk]
    rfl
  refine ⟨d, _, hd, hm, Metadata.ofEntries_eq _ hk, hnaming, ?_, ?_⟩
  · rw [parse_eq_ofTokens (.inr hk)]
    rfl
  · intro other us hul hue
    have huk := hk
    rw [← hue] at huk
    obtain ⟨e, he, hn⟩ := exists_parse_metadata hul huk other
    rw [hue] at hn
    refine ⟨e, _, he, hn, rfl, rfl, fun htitle => ?_⟩
    rw [htitle]

/-- A verse, then a title and another one, with entries and a chord between them. -/
def scattered : List Token :=
  [.headline ⟨2, "Verse".toList, .chorus⟩, .entry ⟨"Artist".toList, "Me".toList⟩, .chord ['B'],
    .newline, .headline ⟨1, "Low".toList, .none⟩, .entry ⟨"B-Notation".toList, ['h']⟩,
    .headline ⟨1, "High".toList, .none⟩, .entry ⟨"Artist".toList, "You".toList⟩]

theorem metadata_parse_scattered :
    (∀ h ∈ scattered.filterMap Token.headline?, 1 ≤ h.level) ∧
      (∀ e ∈ scattered.filterMap Token.entry?, ∃ k : Keyword, e.keyword = k.name) ∧
      ∃ d m, parse none scattered = .ok d ∧ d.metadata = .ok m ∧ m.title = some "Low".toList ∧
        m.value .artist = some "Me".toList ∧ m.naming = .h ∧
        d.chords = [⟨some ⟨['B'], ['b']⟩, [], none⟩] := by
  have hl : ∀ h ∈ scattered.filterMap Token.headline?, 1 ≤ h.level := by decide
  have hk := (Entry.forall_known_iff (scattered.filterMap Token.entry?)).mpr (by decide)
  obtain ⟨d, m, hd, hm, hentries, -⟩ := metadata_parse none scattered hl hk
  obtain rfl := Except.ok.inj hentries
  refine ⟨hl, hk, d, _, hd, hm, rfl, rfl, rfl, ?_⟩
  obtain rfl := Except.ok.inj hd
  rfl

end Document
end ChordSheet
