import ChordSheet.Dump
import ChordSheet.Proofs.Document.Lines
import ChordSheet.Proofs.Document.Trees

/-! Texts go through without a fault, from their first character to the last one of the output.

* `Chord.exists_dump`, `Document.exists_dump`: formed chords have a sound and can be dumped.
* `Document.render_eq`, `convert_of_ofText`: rendering needs nothing but metadata.
* `transposeAndConvert_zero`: moving by nothing is no conversion of its own.
* `texts_without_fault`: every text is read, moved, dumped and rendered. -/
namespace ChordSheet
set_option autoImplicit false

/-! ## Faults of lists -/

section Lists
variable {α β ε : Type} {f : α → Except ε β}

theorem exists_mapM {xs : List α} (h : ∀ x ∈ xs, ∃ y, f x = .ok y) :
    ∃ ys, xs.mapM f = .ok ys := by
  induction xs with
  | nil => exact ⟨[], rfl⟩
  | cons x xs ih =>
    obtain ⟨⟨y, hy⟩, hxs⟩ := List.forall_mem_cons.mp h
    obtain ⟨ys, hys⟩ := ih hxs
    refine ⟨y :: ys, ?_⟩
    rw [List.mapM_cons, hy, hys]
    rfl

end Lists

/-! ## Dumps -/

namespace Chord

/-- Roots and basses have pitches, so a chord sounds even if its quality is unknown. -/
theorem exists_outerTones {x : Note} (hx : x.Known) {bass : Option Note}
    (hb : ∀ y, bass = some y → y.Known) : ∃ ps, outerTones x bass = .ok ps := by
  obtain ⟨p, hp⟩ := Note.exists_pitch hx
  cases bass with
  | none =>
    refine ⟨[p], ?_⟩
    rw [outerTones, hp]
    rfl
  | some y =>
    obtain ⟨q, hq⟩ := Note.exists_pitch (hb y rfl)
    refine ⟨[p, q], ?_⟩
    rw [outerTones, hp, hq]
    rfl

theorem exists_outer {c : Chord} (h : c.Formed) : ∃ ps, c.outer = .ok ps := by
  obtain ⟨root, q, bass⟩ := c
  cases root with
  | none => exact ⟨[], rfl⟩
  | some x =>
    have hx : x.Known := by cases h <;> assumption
    have hb : ∀ y, bass = some y → y.Known := by
      rintro y rfl
      cases h
      assumption
    obtain ⟨ps, hps⟩ := exists_outerTones hx hb
    refine ⟨ascending ps, ?_⟩
    show (outerTones x bass).map ascending = _
    rw [hps]
    rfl

variable (ear : Ear)

theorem exists_pitchClasses {c : Chord} (h : c.Formed) : ∃ ps, c.pitchClasses ear = .ok ps := by
  rw [pitchClasses]
  cases c.root with
  | none => exact ⟨[], rfl⟩
  | some x =>
    cases ear.tones? (c.write .b) with
    | some ps => exact ⟨ps, rfl⟩
    | none => exact exists_outer h

theorem exists_dump {c : Chord} (h : c.Formed) : ∃ j, c.dump ear = .ok j := by
  obtain ⟨ps, hps⟩ := exists_pitchClasses ear h
  rw [dump, hps]
  exact ⟨_, rfl⟩

end Chord

theorem Item.exists_dump (ear : Ear) {i : Item} (h : ∀ c, i.chord? = some c → c.Formed) :
    ∃ j, i.dump ear = .ok j := by
  cases i with
  | pair c s =>
    obtain ⟨j, hj⟩ := Chord.exists_dump ear (h c rfl)
    rw [dump, hj]
    exact ⟨_, rfl⟩
  | chord c =>
    obtain ⟨j, hj⟩ := Chord.exists_dump ear (h c rfl)
    rw [dump, hj]
    exact ⟨_, rfl⟩
  | _ => exact ⟨_, rfl⟩

/-! ## Whole documents -/

namespace Document

theorem exists_dump (ear : Ear) {d : Document} (h : ∀ c ∈ d.chords, c.Formed) :
    ∃ j, d.dump ear = .ok j := by
  have hs : ∀ s ∈ d.sections, ∃ j, s.dump ear = .ok j := by
    intro s hs
    have hi : ∀ i ∈ s.items, ∃ j, i.dump ear = .ok j := by
      intro i hi
      apply Item.exists_dump ear
      intro c hc
      apply h
      exact List.mem_flatMap.mpr ⟨s, hs, List.mem_filterMap.mpr ⟨i, hi, hc⟩⟩
    obtain ⟨js, hjs⟩ := exists_mapM hi
    rw [Section.dump, hjs]
    exact ⟨_, rfl⟩
  obtain ⟨js, hjs⟩ := exists_mapM hs
  rw [dump, hjs]
  exact ⟨_, rfl⟩

/-- Rendering in a known format needs nothing but metadata. -/
theorem render_eq {d : Document} {m : Metadata} (h : d.metadata = .ok m) (given : Option Metadata)
    (format : Format) (naming : Naming) :
    d.render given ⟨format.name, naming⟩ = .ok (format.write d (given.getD m) naming) := by
  rw [render, Format.ofName_name, h]
  cases given <;> rfl

end Document

/-! ## Texts -/

/-- Every text is a document whose chords can be moved and whose metadata is known. -/
theorem Document.exists_ofText_sound (s : Text) : ∃ (d : Document) (m : Metadata),
    ofText s = .ok d ∧ d.metadata = .ok m ∧ ∀ c ∈ d.chords, c.Formed :=
  ⟨_, metadataIn (linesOf s), ofText_eq s, metadata_eq (readable_linesOf s) _, formed_ofTokens _ _⟩

section Conversion
variable {s : Text} {d : Document} {m : Metadata} (hd : Document.ofText s = .ok d)
  (hm : d.metadata = .ok m) (given : Option Metadata) (format : Format) (naming : Naming)
include hd hm

theorem convert_of_ofText :
    convert s given ⟨format.name, naming⟩ = .ok (format.write d (given.getD m) naming) := by
  rw [convert, hd]
  exact Document.render_eq hm given format naming

theorem transposeAndConvert_of_ofText (hf : ∀ c ∈ d.chords, c.Formed) (n : Int) :
    transposeAndConvert s n given ⟨format.name, naming⟩ =
      .ok (format.write (d.mapChord (Chord.moved n)) (given.getD m) naming) := by
  have hmoved : (d.mapChord (Chord.moved n)).metadata = .ok m := by
    rw [Document.metadata_mapChord, hm]
  rw [transposeAndConvert, hd]
  show (d.shift n).bind (·.render given ⟨format.name, naming⟩) = _
  rw [Document.shift_formed hf]
  exact Document.render_eq hmoved given format naming

end Conversion

/-- To move chords by nothing is not to move them. -/
theorem transposeAndConvert_zero (s : Text) (given : Option Metadata) (format : Format)
    (naming : Naming) :
    transposeAndConvert s 0 given ⟨format.name, naming⟩ =
      convert s given ⟨format.name, naming⟩ := by
  obtain ⟨d, m, hd, hm, hf⟩ := Document.exists_ofText_sound s
  rw [transposeAndConvert_of_ofText hd hm given format naming hf, convert_of_ofText hd hm,
    Document.mapChord_moved_zero]

/-- Every text is read, moved, dumped and rendered without a fault, as a document and as the free
tree that the document is, whatever chords the ear knows. -/
theorem texts_without_fault (ear : Ear) (s : Text) (n : Int) (given : Option Metadata)
    (format : Format) (naming : Naming) :
    ∃ (t : Transcript) (d e : Document) (m : Metadata) (j : Json) (u v : Text),
      tokenize s = .ok t ∧ Document.ofText s = .ok d ∧ d.metadata = .ok m ∧ d.dump ear = .ok j ∧
      convert s given ⟨format.name, naming⟩ = .ok u ∧
      transposeAndConvert s n given ⟨format.name, naming⟩ = .ok v ∧
      d.toNode.metadata = .ok m ∧ d.toNode.shift n = .ok e.toNode ∧
      d.toNode.render given ⟨format.name, naming⟩ = .ok u ∧
      e.toNode.render given ⟨format.name, naming⟩ = .ok v := by
  obtain ⟨t, ht, -⟩ := tokens_linesOf s
  obtain ⟨d, m, hd, hm, hf⟩ := Document.exists_ofText_sound s
  obtain ⟨j, hj⟩ := Document.exists_dump ear hf
  have hmoved : (d.mapChord (Chord.moved n)).metadata = .ok m := by
    rw [Document.metadata_mapChord, hm]
  refine ⟨t, d, d.mapChord (Chord.moved n), m, j, format.write d (given.getD m) naming,
    format.write (d.mapChord (Chord.moved n)) (given.getD m) naming, ht, hd, hm, hj,
    convert_of_ofText hd hm given format naming,
    transposeAndConvert_of_ofText hd hm given format naming hf n, ?_, ?_, ?_, ?_⟩
  · rw [Document.metadata_toNode, hm]
  · rw [Document.shift_toNode, Document.shift_formed hf]
    rfl
  · rw [Document.render_toNode]
    exact Document.render_eq hm given format naming
  · rw [Document.render_toNode]
    exact Document.render_eq hmoved given format naming

end ChordSheet
