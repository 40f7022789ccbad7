import ChordSheet.Chord.Sounding
import ChordSheet.Proofs.Chord.Rereading
import ChordSheet.Proofs.Chord.Transposition

/-! How an ear hears the symbol of a chord. It takes the symbol apart anew, so that accidentals at
the start of the quality are heard with the root, and a bass may be found in the quality.

* `rootTone?`: a letter with its accidentals; `Note.eq_shift_of_rootTone?`.
* `Quality`, `Hearing`: what stands behind a root, and what is heard of a whole symbol.
* `Ear.GoesBy`: what is assumed of an ear and of the table it goes by.
* `Chord.hearing?`: what is heard of a chord, told by its root, quality and bass.
* `Chord.tones?_write`: an ear hears just that of the symbol. -/
namespace ChordSheet
set_option autoImplicit false

/-! ## Roots with accidentals -/

/-- By how many semitones accidentals raise a letter. -/
def bend : Text → Int
  | [] => 0
  | a :: w => (if a = '#' then 1 else -1) + bend w

theorem bend_append (s t : Text) : bend (s ++ t) = bend s + bend t := by
  induction s with
  | nil => simp [bend]
  | cons a s ih => rw [List.cons_append, bend, bend, ih, Int.add_assoc]

/-- What can be heard behind a letter: two flats or two sharps at most. -/
def toneAccidentals : List Text := [[], ['#'], ['b'], ['#', '#'], ['b', 'b']]

def rootTone? : Text → Option PitchClass
  | [] => none
  | l :: w =>
    if toneAccidentals.contains w then (PitchClass.natural? l).map (·.shift (bend w)) else none

theorem rootTone?_eq_some_iff {l : Char} {w : Text} {r : PitchClass} :
    rootTone? (l :: w) = some r ↔
      w ∈ toneAccidentals ∧ ∃ m, PitchClass.natural? l = some m ∧ m.shift (bend w) = r := by
  rw [rootTone?]
  by_cases hw : w ∈ toneAccidentals <;> simp [hw]

namespace Note

theorem exists_tone {x : Note} (hx : x.Known) {p : PitchClass} (hp : x.pitch = .ok p) :
    ∃ l, x.write .b = l :: x.accidental ∧ (∀ a ∈ x.accidental, Chord.isAccidental a) ∧
      rootTone? (x.write .b) = some p := by
  have hall : ∀ x ∈ spellings, ∃ l ∈ letters, x.write .b = l :: x.accidental ∧
      (∀ a ∈ x.accidental, Chord.isAccidental a) ∧
      rootTone? (x.write .b) = PitchClass.ofName? x.name := by decide
  obtain ⟨l, -, hw, ha, ht⟩ := hall x hx
  refine ⟨l, hw, ha, ?_⟩
  rw [ht]
  rw [pitch, PitchClass.ofName] at hp
  cases h : PitchClass.ofName? x.name with
  | none =>
    rw [h] at hp
    cases hp
  | some q =>
    rw [h] at hp
    exact congrArg some (Except.ok.inj hp)

/-- Accidentals that are heard with a note bend it. -/
theorem eq_shift_of_rootTone? {x : Note} (hx : x.Known) {p : PitchClass} (hp : x.pitch = .ok p)
    {w : Text} {r : PitchClass} (h : rootTone? (x.write .b ++ w) = some r) :
    r = p.shift (bend w) := by
  obtain ⟨l, hl, -, ht⟩ := exists_tone hx hp
  rw [hl] at ht
  rw [hl, List.cons_append] at h
  obtain ⟨-, m, hm, rfl⟩ := rootTone?_eq_some_iff.mp ht
  obtain ⟨-, m', hm', rfl⟩ := rootTone?_eq_some_iff.mp h
  obtain rfl : m = m' := Option.some.inj (hm.symm.trans hm')
  rw [PitchClass.shift_shift, bend_append]

end Note

/-! ## Qualities -/

/-- What stands behind a root: tones in semitones above it, and the bass that may follow them. -/
structure Quality where
  steps : List Int
  bass : Option PitchClass

/-- The tones of a quality above its root, and the bass. -/
structure Hearing where
  tones : List PitchClass
  bass : Option PitchClass

def Hearing.all (g : Hearing) : List PitchClass := g.tones ++ g.bass.toList

def Quality.above (root : PitchClass) (k : Quality) : Hearing := ⟨k.steps.map root.shift, k.bass⟩

/-- What is assumed of an ear: it hears a root first, and looks up in its table what is behind it.

* `symbol`: the root is a letter with all accidentals behind it, and may have two flats or two
  sharps at most; a symbol with another root, or with a quality that the table does not have, is not
  known.
* `root`: a quality has its root among its tones.
* `plain`: a quality without a slash has no bass.
* `slash`: a note behind a last slash is the bass, and which note it is matters to nothing else. -/
structure Ear.GoesBy (ear : Ear) (quality? : Text → Option Quality) : Prop where
  symbol : ∀ (l : Char) (w rest : Text), (∀ a ∈ w, Chord.isAccidental a) →
    (∀ d u, rest = d :: u → Chord.isAccidental d = false) →
    ear.tones? (l :: (w ++ rest)) = (rootTone? (l :: w)).bind fun root =>
      (quality? rest).map fun k => ascending (k.above root).all
  root : ∀ s k, quality? s = some k → ∃ i ∈ k.steps, i % 12 = 0
  plain : ∀ s k, '/' ∉ s → quality? s = some k → k.bass = none
  slash : ∀ (s : Text) (x y : Note) (p : PitchClass), x.Known → y.Known → y.pitch = .ok p →
    quality? (s ++ '/' :: y.write .b) =
      (quality? (s ++ '/' :: x.write .b)).map fun k => { k with bass := some p }

/-! ## Chords -/

namespace Chord

/-- The accidentals that a quality starts with. -/
def leading (q : Text) : Text := q.takeWhile isAccidental

/-- What is heard as the quality of a chord, and the bass behind it. -/
def following (q : Text) (y : Option Note) : Text := q.dropWhile isAccidental ++ bassText .b y

theorem not_isAccidental_following {q : Text} {y : Option Note} {d : Char} {u : Text}
    (h : following q y = d :: u) : isAccidental d = false := by
  rw [following] at h
  cases hq : q.dropWhile isAccidental with
  | nil =>
    rw [hq, List.nil_append] at h
    cases y with
    | none => cases h
    | some y =>
      cases h
      decide
  | cons c q' =>
    rw [hq] at h
    cases h
    have hc := List.head?_dropWhile_not isAccidental q
    rw [hq] at hc
    simpa using hc

/-- What is heard of a chord: the accidentals at the start of its quality belong to the root. -/
def hearing? (quality? : Text → Option Quality) (c : Chord) : Option Hearing :=
  c.root.bind fun x => (rootTone? (x.write .b ++ leading c.quality)).bind fun root =>
    (quality? (following c.quality c.bass)).map (Quality.above root)

section Heard
variable {quality? : Text → Option Quality} {x : Note} {q : Text} {y : Option Note}

/-- A chord is heard if its root has a tone and its quality is known. -/
theorem hearing?_eq_some_iff {g : Hearing} :
    hearing? quality? ⟨some x, q, y⟩ = some g ↔ ∃ root k,
      rootTone? (x.write .b ++ leading q) = some root ∧ quality? (following q y) = some k ∧
        k.above root = g := by
  simp [hearing?, Option.bind_eq_some_iff]

theorem tones?_write {ear : Ear} (h : ear.GoesBy quality?) {p : PitchClass} (hx : x.Known)
    (hp : x.pitch = .ok p) : ear.tones? (write .b ⟨some x, q, y⟩) =
      (hearing? quality? ⟨some x, q, y⟩).map fun g => ascending g.all := by
  obtain ⟨l, hl, ha, -⟩ := Note.exists_tone hx hp
  have hsymbol : write .b ⟨some x, q, y⟩ = l :: (x.accidental ++ leading q ++ following q y) := by
    rw [write_some, hl, List.append_assoc, leading, following,
      ← List.append_assoc (List.takeWhile _ q), List.takeWhile_append_dropWhile]
    rfl
  have hw : ∀ a ∈ x.accidental ++ leading q, isAccidental a := by
    intro a hmem
    rcases List.mem_append.mp hmem with hmem | hmem
    · exact ha a hmem
    · exact List.mem_takeWhile_imp hmem
  rw [hsymbol, h.symbol l _ _ hw fun d u => not_isAccidental_following, ← List.cons_append, ← hl,
    hearing?, Option.bind_some, Option.map_bind]
  congr 1
  funext root
  rw [Function.comp_apply, Option.map_map]
  rfl

end Heard

end Chord
end ChordSheet
