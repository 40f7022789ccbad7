import ChordSheet.Proofs.Chord.Symbol

/-! Transposition as arithmetic modulo twelve, up to the spelling of notes.

* `PitchClass.val_shift`, `PitchClass.shift_shift`: shifting adds modulo twelve.
* `Note.MovesTo`, `Chord.MovesTo`: where notes are moved to, whatever they are called there.
* `Chord.movesTo_moved`: transposition moves chords so; `Chord.MovesTo.trans`: moves add up.
* `Note.tone`, `Chord.tones`: notes by their pitch classes alone; `Chord.MovesTo.tones_eq`.
* `Chord.shift_mod`, `Chord.shift_octaves`: octaves do not matter, spelling included. -/
namespace ChordSheet
set_option autoImplicit false

/-! ## Pitch classes -/

namespace PitchClass

theorem val_ofInt (n : Int) : ((ofInt n).val : Int) = n % 12 := by
  have h : 0 ≤ n % 12 := by omega
  exact Int.toNat_of_nonneg h

theorem val_shift (p : PitchClass) (n : Int) : ((p.shift n).val : Int) = (p.val + n) % 12 :=
  val_ofInt _

theorem ext_val {p q : PitchClass} (h : (p.val : Int) = q.val) : p = q :=
  Fin.ext (Int.ofNat.inj h)

theorem shift_mod (p : PitchClass) (n : Int) : p.shift (n % 12) = p.shift n := by
  apply ext_val
  rw [val_shift, val_shift]
  omega

theorem shift_shift (p : PitchClass) (m n : Int) : (p.shift m).shift n = p.shift (m + n) := by
  apply ext_val
  rw [val_shift, val_shift, val_shift]
  omega

theorem shift_eq_self_iff (p : PitchClass) (n : Int) : p.shift n = p ↔ n % 12 = 0 := by
  have hlt := p.isLt
  have hn := val_shift p n
  constructor
  · intro h
    rw [h] at hn
    omega
  · intro h
    apply ext_val
    omega

theorem shift_cancel {m n : Int} (h : m + n = 0) (p : PitchClass) : (p.shift m).shift n = p := by
  rw [shift_shift, shift_eq_self_iff]
  omega

end PitchClass

/-! ## Notes -/

namespace Note

/-- From a note to one that sounds some semitones higher or lower. -/
def MovesTo (n : Int) (x y : Note) : Prop :=
  ∃ p q : PitchClass, x.pitch = .ok p ∧ y.pitch = .ok q ∧ (q.val : Int) = (p.val + n) % 12

theorem pitch_spell (flats : Bool) (p : PitchClass) : (p.spell flats).pitch = .ok p := by
  have hall : ∀ flats : Bool, ∀ p : PitchClass,
      PitchClass.ofName? (p.spell flats).name = some p := by decide
  rw [pitch, PitchClass.ofName, hall flats p]

theorem movesTo_moved {x : Note} (hx : x.Known) (flats : Bool) (n : Int) :
    x.MovesTo n (x.moved flats n) := by
  obtain ⟨p, hp⟩ := exists_pitch hx
  refine ⟨p, p.shift n, hp, ?_, PitchClass.val_shift p n⟩
  rw [moved, hp]
  exact pitch_spell flats _

theorem movesTo_octaves {x : Note} (hx : x.Known) {n : Int} (hn : n % 12 = 0) : x.MovesTo n x := by
  obtain ⟨p, hp⟩ := exists_pitch hx
  refine ⟨p, p, hp, hp, ?_⟩
  have hlt := p.isLt
  omega

theorem MovesTo.trans {m n : Int} {x y z : Note} (h : x.MovesTo m y) (h' : y.MovesTo n z) :
    x.MovesTo (m + n) z := by
  obtain ⟨p, q, hp, hq, hpq⟩ := h
  obtain ⟨q', r, hq', hr, hqr⟩ := h'
  obtain rfl : q = q' := Except.ok.inj (hq.symm.trans hq')
  refine ⟨p, r, hp, hr, ?_⟩
  omega

/-- The note of the same pitch class that has no flat. -/
def tone (x : Note) : Note :=
  match x.pitch with
  | .ok p => p.spell false
  | .error _ => x

theorem MovesTo.tone_eq {n : Int} {x y z : Note} (h : x.MovesTo n y) (h' : x.MovesTo n z) :
    y.tone = z.tone := by
  obtain ⟨p, q, hp, hq, hpq⟩ := h
  obtain ⟨p', r, hp', hr, hpr⟩ := h'
  obtain rfl : p = p' := Except.ok.inj (hp.symm.trans hp')
  obtain rfl : q = r := PitchClass.ext_val (hpq.trans hpr.symm)
  rw [tone, tone, hq, hr]

theorem shift_mod (flats : Bool) (n : Int) (x : Note) : x.shift flats (n % 12) = x.shift flats n := by
  rw [shift, shift]
  cases x.pitch with
  | ok p => simp only [PitchClass.shift_mod]
  | error e => rfl

end Note

/-! ## Chords -/

namespace Chord

/-- The notes are moved, and nothing else is; a chord without a root stays as it is. -/
structure MovesTo (n : Int) (c e : Chord) : Prop where
  root : Option.Rel (Note.MovesTo n) c.root e.root
  bass : Option.Rel (Note.MovesTo n) c.bass e.bass
  quality : e.quality = c.quality
  rootless : c.root = none → e = c

theorem movesTo_moved {c : Chord} (h : c.Formed) (n : Int) : c.MovesTo n (c.moved n) := by
  by_cases hn : n % 12 = 0
  · have hc : c.moved n = c := by cases h <;> simp [moved, hn]
    rw [hc]
    cases h with
    | plain => exact ⟨.none, .none, rfl, fun _ => rfl⟩
    | rooted hx => exact ⟨.some (Note.movesTo_octaves hx hn), .none, rfl, fun _ => rfl⟩
    | slashed hx hy =>
      exact ⟨.some (Note.movesTo_octaves hx hn), .some (Note.movesTo_octaves hy hn), rfl,
        fun _ => rfl⟩
  · cases h with
    | plain => exact ⟨.none, .none, rfl, fun _ => rfl⟩
    | rooted hx =>
      simp only [moved, hn, if_false]
      exact ⟨.some (Note.movesTo_moved hx _ n), .none, rfl, fun hr => by cases hr⟩
    | slashed hx hy =>
      simp only [moved, hn, if_false]
      exact ⟨.some (Note.movesTo_moved hx _ n), .some (Note.movesTo_moved hy _ n), rfl,
        fun hr => by cases hr⟩

theorem movesTo_trans {m n : Int} {x y z : Option Note} (h : Option.Rel (Note.MovesTo m) x y)
    (h' : Option.Rel (Note.MovesTo n) y z) : Option.Rel (Note.MovesTo (m + n)) x z := by
  cases h with
  | none => cases h'; exact .none
  | some hxy =>
    cases h' with
    | some hyz => exact .some (hxy.trans hyz)

theorem MovesTo.trans {m n : Int} {c e f : Chord} (h : c.MovesTo m e) (h' : e.MovesTo n f) :
    c.MovesTo (m + n) f := by
  refine ⟨movesTo_trans h.root h'.root, movesTo_trans h.bass h'.bass,
    h'.quality.trans h.quality, ?_⟩
  intro hr
  have he := h.rootless hr
  have hf := h'.rootless (by rw [he, hr])
  rw [hf, he]

/-- Every note replaced by the name of its pitch class. -/
def tones (c : Chord) : Chord :=
  { c with root := c.root.map Note.tone, bass := c.bass.map Note.tone }

theorem map_tone_eq {n : Int} {x y z : Option Note} (h : Option.Rel (Note.MovesTo n) x y)
    (h' : Option.Rel (Note.MovesTo n) x z) : y.map Note.tone = z.map Note.tone := by
  cases h with
  | none => cases h'; rfl
  | some hxy =>
    cases h' with
    | some hxz => exact congrArg some (hxy.tone_eq hxz)

/-- Chords that are moved alike differ in nothing but spelling. -/
theorem MovesTo.tones_eq {n : Int} {c e f : Chord} (h : c.MovesTo n e) (h' : c.MovesTo n f) :
    e.tones = f.tones := by
  rw [tones, tones, map_tone_eq h.root h'.root, map_tone_eq h.bass h'.bass, h.quality, h'.quality]

/-! ## Octaves -/

theorem shift_mod (n : Int) : shift (n % 12) = shift n := by
  funext c
  unfold shift
  simp only [Int.emod_emod, Note.shift_mod]

theorem shift_octaves (n : Int) (c : Chord) : c.shift (12 * n) = .ok c := by
  have hn : 12 * n % 12 = 0 := by omega
  unfold shift
  cases c.root with
  | none => rfl
  | some x => exact if_pos hn

end Chord
end ChordSheet
