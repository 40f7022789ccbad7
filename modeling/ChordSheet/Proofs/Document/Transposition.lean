import ChordSheet.Proofs.Chord.Transposition
import ChordSheet.Proofs.Document.Lines

/-! Transposition of whole documents.

* `Document.mapChord_mapChord`, `Document.mapChord_congr`: chords changed twice, or alike.
* `Document.shift_mod`, `Document.shift_octaves`: octaves do not matter.
* `Document.shift_cyclic`: the integers modulo twelve act on the documents of texts. -/
namespace ChordSheet
set_option autoImplicit false

/-! ## Changed chords -/

namespace Item

theorem mapChord_mapChord (f g : Chord → Chord) (i : Item) :
    (i.mapChord f).mapChord g = i.mapChord (g ∘ f) := by
  cases i <;> rfl

theorem chord?_mapChord (f : Chord → Chord) (i : Item) :
    (i.mapChord f).chord? = i.chord?.map f := by
  cases i <;> rfl

theorem mapChord_congr {f g : Chord → Chord} {i : Item} (h : ∀ c, i.chord? = some c → f c = g c) :
    i.mapChord f = i.mapChord g := by
  cases i with
  | pair c s => rw [mapChord, mapChord, h c rfl]
  | chord c => rw [mapChord, mapChord, h c rfl]
  | _ => rfl

end Item

namespace Document

theorem mapChord_mapChord (f g : Chord → Chord) (d : Document) :
    (d.mapChord f).mapChord g = d.mapChord (g ∘ f) := by
  have hs : ∀ s : Section, (s.mapChord f).mapChord g = s.mapChord (g ∘ f) := by
    intro s
    rw [Section.mapChord, Section.mapChord, List.map_map, Section.mapChord]
    congr 1
    exact List.map_congr_left fun i _ => Item.mapChord_mapChord f g i
  rw [mapChord, mapChord, List.map_map, mapChord]
  congr 1
  exact List.map_congr_left fun s _ => hs s

theorem chords_mapChord (f : Chord → Chord) (d : Document) :
    (d.mapChord f).chords = d.chords.map f := by
  rw [chords, chords, mapChord, List.flatMap_map, List.map_flatMap]
  congr 1
  funext s
  rw [Section.mapChord, List.filterMap_map, List.map_filterMap]
  congr 1
  funext i
  exact Item.chord?_mapChord f i

theorem mapChord_congr {f g : Chord → Chord} {d : Document} (h : ∀ c ∈ d.chords, f c = g c) :
    d.mapChord f = d.mapChord g := by
  rw [mapChord, mapChord]
  congr 1
  refine List.map_congr_left fun s hs => ?_
  rw [Section.mapChord, Section.mapChord]
  congr 1
  refine List.map_congr_left fun i hi => Item.mapChord_congr fun c hc => h c ?_
  exact List.mem_flatMap.mpr ⟨s, hs, List.mem_filterMap.mpr ⟨i, hi, hc⟩⟩

/-! ## Octaves -/

theorem shift_mod (n : Int) (d : Document) : d.shift (n % 12) = d.shift n := by
  have hitem : Item.shift (n % 12) = Item.shift n := by
    funext i
    cases i <;> simp only [Item.shift, Chord.shift_mod]
  have hsection : Section.shift (n % 12) = Section.shift n := by
    funext s
    rw [Section.shift, Section.shift, hitem]
  rw [shift, shift, hsection]

theorem shift_octaves (n : Int) (d : Document) : d.shift (12 * n) = .ok d := by
  have hitem : ∀ i : Item, i.shift (12 * n) = .ok i := by
    intro i
    cases i with
    | pair c s => rw [Item.shift, Chord.shift_octaves]; rfl
    | chord c => rw [Item.shift, Chord.shift_octaves]; rfl
    | _ => rfl
  have hsection : ∀ s : Section, s.shift (12 * n) = .ok s := by
    intro s
    rw [Section.shift, mapM_ok (g := id) fun i _ => hitem i, List.map_id]
    rfl
  rw [shift, mapM_ok (g := id) fun s _ => hsection s, List.map_id]
  rfl

/-! ## Moving again -/

/-- Moving twice and moving at once differ in nothing but the spelling of notes. -/
theorem tones_moved_moved {d : Document} (h : ∀ c ∈ d.chords, c.Formed) (m n : Int) :
    ((d.mapChord (Chord.moved m)).mapChord (Chord.moved n)).mapChord Chord.tones =
      (d.mapChord (Chord.moved (m + n))).mapChord Chord.tones := by
  rw [mapChord_mapChord, mapChord_mapChord, mapChord_mapChord]
  apply mapChord_congr
  intro c hc
  have hf := h c hc
  have htwice := (Chord.movesTo_moved hf m).trans
    (Chord.movesTo_moved (Chord.formed_moved hf m) n)
  exact htwice.tones_eq (Chord.movesTo_moved hf (m + n))

theorem formed_mapChord_moved {d : Document} (h : ∀ c ∈ d.chords, c.Formed) (n : Int) :
    ∀ c ∈ (d.mapChord (Chord.moved n)).chords, c.Formed := by
  rw [chords_mapChord, List.forall_mem_map]
  exact fun c hc => Chord.formed_moved (h c hc) n

/-- Transposition moves every note by as many semitones and changes nothing else; octaves do not
matter, and two transpositions add up but for the spelling of notes. -/
theorem shift_cyclic (s : Text) (m n : Int) :
    ∃ d e f g, ofText s = .ok d ∧
      d.shift (m % 12) = d.shift m ∧ d.shift (12 * m) = .ok d ∧
      d.shift m = .ok e ∧ (∃ move : Chord → Chord, e = d.mapChord move ∧
        ∀ c ∈ d.chords, c.MovesTo m (move c)) ∧
      e.shift n = .ok f ∧ d.shift (m + n) = .ok g ∧
      f.mapChord Chord.tones = g.mapChord Chord.tones := by
  obtain ⟨d, hd, hchords⟩ := exists_ofText s
  have hformed : ∀ c ∈ d.chords, c.Formed := by
    rw [hchords, List.forall_mem_map]
    exact fun x _ => Chord.formed_read _ x
  refine ⟨d, _, _, _, hd, shift_mod m d, shift_octaves m d, shift_formed hformed m,
    ⟨Chord.moved m, rfl, fun c hc => Chord.movesTo_moved (hformed c hc) m⟩,
    shift_formed (formed_mapChord_moved hformed m) n, shift_formed hformed (m + n),
    tones_moved_moved hformed m n⟩

end Document
end ChordSheet
