import Mathlib.Data.List.Infix
import ChordSheet.Proofs.Chord.Standard

/-! The pitch classes of a chord, beside its notes and under transposition, for any ear that takes
symbols apart.

* `Chord.pitchClasses_rooted`: what is heard of the symbol, or else root and bass.
* `Chord.hearing?_moved`: what is heard moves with the chord, but for a bass in its quality.
* `Chord.tones_of_read`: when the root of a chord is among its tones.
* `Chord.tones_moved_iff`: when the tones of a chord move with it. -/
namespace ChordSheet
set_option autoImplicit false

/-! ## Sets in ascending order -/

theorem mem_ascending {p : PitchClass} {ps : List PitchClass} : p ∈ ascending ps ↔ p ∈ ps := by
  simp [ascending]

theorem ascending_eq_iff {ps qs : List PitchClass} :
    ascending ps = ascending qs ↔ ∀ p, p ∈ ps ↔ p ∈ qs := by
  constructor
  · intro h p
    rw [← mem_ascending, h, mem_ascending]
  · intro h
    exact List.filter_congr fun p _ => by simp [h p]

theorem mem_map_shift {n : Int} {ps : List PitchClass} {q : PitchClass} :
    q ∈ ps.map (·.shift n) ↔ q.shift (-n) ∈ ps := by
  rw [List.mem_map]
  constructor
  · rintro ⟨p, hp, rfl⟩
    rwa [PitchClass.shift_cancel (by omega)]
  · intro h
    exact ⟨_, h, PitchClass.shift_cancel (by omega) q⟩

theorem ascending_map_eq_iff {n : Int} {ps qs : List PitchClass} :
    ascending (ps.map (·.shift n)) = ascending (qs.map (·.shift n)) ↔
      ascending ps = ascending qs := by
  simp only [ascending_eq_iff, mem_map_shift]
  constructor
  · intro h p
    have hp := h (p.shift n)
    rwa [PitchClass.shift_cancel (by omega)] at hp
  · exact fun h p => h _

theorem ascending_map_ascending (n : Int) (ps : List PitchClass) :
    ascending ((ascending ps).map (·.shift n)) = ascending (ps.map (·.shift n)) :=
  ascending_map_eq_iff.mpr (ascending_eq_iff.mpr fun _ => mem_ascending)

namespace Hearing

/-- Tones move, and so does a bass that is a note of the chord. -/
def moved (own : Bool) (n : Int) (g : Hearing) : Hearing :=
  ⟨g.tones.map (·.shift n), if own then g.bass.map (·.shift n) else g.bass⟩

theorem mem_all {g : Hearing} {p : PitchClass} :
    p ∈ g.all ↔ p ∈ g.tones ∨ g.bass = some p := by
  rw [all, List.mem_append, Option.mem_toList]

end Hearing

namespace Chord

/-! ## What sounds -/

def Sounds (y : Note) (r : PitchClass) : Prop := y.pitch = .ok r

/-- What is heard of a symbol, or else root and bass alone. -/
def heardOr (heard : Option Hearing) (p : PitchClass) (r : Option PitchClass) : List PitchClass :=
  (heard.map Hearing.all).getD (p :: r.toList)

section Rooted
variable {x : Note} {q : Text} {y : Option Note} {p : PitchClass} {r : Option PitchClass}
  (hp : Sounds x p) (hr : Option.Rel Sounds y r)
include hp hr

theorem outer_rooted : outer ⟨some x, q, y⟩ = .ok (ascending (p :: r.toList)) := by
  have houter : outerTones x y = .ok (p :: r.toList) := by
    cases hr with
    | none =>
      rw [outerTones, hp]
      rfl
    | some hy =>
      rw [outerTones, hp, hy]
      rfl
  rw [outer]
  simp only [houter]
  rfl

theorem pitchClasses_rooted {ear : Ear} {quality? : Text → Option Quality}
    (h : ear.GoesBy quality?) (hx : x.Known) : pitchClasses ear ⟨some x, q, y⟩ =
      .ok (ascending (heardOr (hearing? quality? ⟨some x, q, y⟩) p r)) := by
  rw [pitchClasses, tones?_write h hx hp]
  cases hearing? quality? ⟨some x, q, y⟩ with
  | none => exact outer_rooted hp hr
  | some g => rfl

end Rooted

/-! ## Moved chords -/

/-- Known notes, the one as many semitones above the other. -/
structure Follows (n : Int) (x x' : Note) : Prop where
  known : x.Known
  known' : x'.Known
  sounds : ∃ p, Sounds x p ∧ Sounds x' (p.shift n)

theorem follows_of_movesTo {n : Int} {x x' : Note} (hx : x.Known) (hx' : x'.Known)
    (h : x.MovesTo n x') : Follows n x x' := by
  obtain ⟨p, q, hp, hq, hpq⟩ := h
  have hqp : q = p.shift n := PitchClass.ext_val (by rw [hpq, PitchClass.val_shift])
  exact ⟨hx, hx', p, hp, hqp ▸ hq⟩

theorem MovesTo.follows {n : Int} {x : Note} {q : Text} {y : Option Note} {e : Chord}
    (h : Formed ⟨some x, q, y⟩) (he : e.Formed) (hm : MovesTo n ⟨some x, q, y⟩ e) :
    ∃ x' y', e = ⟨some x', q, y'⟩ ∧ Follows n x x' ∧ Option.Rel (Follows n) y y' := by
  obtain ⟨hroot, hbass, hquality, -⟩ := hm
  cases he with
  | plain => cases hroot
  | @rooted x' q' hx' =>
    cases hroot with
    | some hxx =>
      obtain rfl : q' = q := hquality
      cases hbass
      exact ⟨x', none, rfl, follows_of_movesTo (h.known rfl) hx' hxx, .none⟩
  | @slashed x' y' q' hx' hy' =>
    cases hroot with
    | some hxx =>
      obtain rfl : q' = q := hquality
      cases hbass with
      | some hyy =>
        cases h with
        | slashed hx hy =>
          exact ⟨x', some y', rfl, follows_of_movesTo hx hx' hxx,
            .some (follows_of_movesTo hy hy' hyy)⟩

theorem sounds_moved {n : Int} {y y' : Option Note} (h : Option.Rel (Follows n) y y')
    {r : Option PitchClass} (hr : Option.Rel Sounds y r) :
    Option.Rel Sounds y' (r.map (·.shift n)) := by
  cases h with
  | none =>
    cases hr
    exact .none
  | some h =>
    cases hr with
    | some hr =>
      obtain ⟨p, hp, hp'⟩ := h.sounds
      obtain rfl := Except.ok.inj (hp.symm.trans hr)
      exact .some hp'

section Moved
variable {ear : Ear} {quality? : Text → Option Quality} (h : ear.GoesBy quality?) {n : Int}
  {x x' : Note} {q : Text} {y y' : Option Note} (hx : Follows n x x')
  (hy : Option.Rel (Follows n) y y')
include h hy

theorem quality?_moved : quality? (following q y') = (quality? (following q y)).map fun k =>
    { k with bass := if y.isSome then k.bass.map (·.shift n) else k.bass } := by
  cases hy with
  | none => cases quality? (following q none) <;> rfl
  | @some y y' hyy =>
    obtain ⟨r, hr, hr'⟩ := hyy.sounds
    have hown := h.slash (q.dropWhile isAccidental) y y r hyy.known hyy.known hr
    have hmoved := h.slash (q.dropWhile isAccidental) y y' _ hyy.known hyy.known' hr'
    have hleft : following q (some y) = q.dropWhile isAccidental ++ '/' :: y.write .b := rfl
    have hright : following q (some y') = q.dropWhile isAccidental ++ '/' :: y'.write .b := rfl
    rw [hright, hmoved, hleft]
    cases hk : quality? (q.dropWhile isAccidental ++ '/' :: y.write .b) with
    | none => rfl
    | some k =>
      rw [hk] at hown
      have hbass : k.bass = some r := congrArg Quality.bass (Option.some.inj hown)
      simp [hbass]

include hx

theorem hearing?_moved {g g' : Hearing} (hg : hearing? quality? ⟨some x, q, y⟩ = some g)
    (hg' : hearing? quality? ⟨some x', q, y'⟩ = some g') : g' = g.moved y.isSome n := by
  obtain ⟨p, hp, hp'⟩ := hx.sounds
  obtain ⟨root, k, ht, hk, rfl⟩ := hearing?_eq_some_iff.mp hg
  obtain ⟨root', k', ht', hk', rfl⟩ := hearing?_eq_some_iff.mp hg'
  rw [quality?_moved h hy, hk] at hk'
  obtain rfl := Option.some.inj hk'
  have hroot : root' = root.shift n := by
    rw [Note.eq_shift_of_rootTone? hx.known' hp' ht', Note.eq_shift_of_rootTone? hx.known hp ht,
      PitchClass.shift_shift, PitchClass.shift_shift, Int.add_comm]
  have htones : k.steps.map root'.shift = (k.steps.map root.shift).map (·.shift n) := by
    rw [List.map_map, hroot]
    refine List.map_congr_left fun i _ => ?_
    rw [PitchClass.shift_shift, Function.comp_apply, PitchClass.shift_shift, Int.add_comm]
  exact congrArg (fun ts => Hearing.mk ts _) htones

/-- Where the quality bends no root, the one symbol is known just when the other is. -/
theorem isSome_hearing?_moved (hq : leading q = []) :
    (hearing? quality? ⟨some x', q, y'⟩).isSome ↔ (hearing? quality? ⟨some x, q, y⟩).isSome := by
  obtain ⟨p, hp, hp'⟩ := hx.sounds
  obtain ⟨_, -, -, ht⟩ := Note.exists_tone hx.known hp
  obtain ⟨_, -, -, ht'⟩ := Note.exists_tone hx.known' hp'
  simp [hearing?, hq, ht, ht', quality?_moved h hy]

end Moved

/-! ## Known symbols -/

section Heard
variable {ear : Ear} {quality? : Text → Option Quality} (h : ear.GoesBy quality?) {x : Note}
  {p : PitchClass} (hx : x.Known) (hp : Sounds x p) {q : Text} {y : Option Note} {g : Hearing}
  (hg : hearing? quality? ⟨some x, q, y⟩ = some g)
include hx hp hg

/-- The accidentals of the root and of the quality are those of one root. -/
theorem mem_toneAccidentals_of_hearing? : x.accidental ++ leading q ∈ toneAccidentals := by
  obtain ⟨l, hl, -, -⟩ := Note.exists_tone hx hp
  obtain ⟨root, k, ht, -, -⟩ := hearing?_eq_some_iff.mp hg
  rw [hl, List.cons_append] at ht
  exact (rootTone?_eq_some_iff.mp ht).1

include h

/-- The root is heard, unless the quality bends it. -/
theorem root_mem_tones (hq : leading q = []) : p ∈ g.tones := by
  obtain ⟨root, k, ht, hk, rfl⟩ := hearing?_eq_some_iff.mp hg
  obtain ⟨i, hi, hoctaves⟩ := h.root _ k hk
  have hroot : root = p := by
    rw [Note.eq_shift_of_rootTone? hx hp ht, hq]
    exact (PitchClass.shift_eq_self_iff p 0).mpr rfl
  rw [hroot]
  exact List.mem_map.mpr ⟨i, hi, (PitchClass.shift_eq_self_iff p i).mpr hoctaves⟩

end Heard

section Bass
variable {ear : Ear} {quality? : Text → Option Quality} (h : ear.GoesBy quality?) {x : Note}
  {q : Text} {g : Hearing}
include h

theorem bass_of_hearing? {y : Note} {r : PitchClass} (hy : y.Known) (hr : Sounds y r)
    (hg : hearing? quality? ⟨some x, q, some y⟩ = some g) : g.bass = some r := by
  obtain ⟨root, k, -, hk, rfl⟩ := hearing?_eq_some_iff.mp hg
  have hown := h.slash (q.dropWhile isAccidental) y y r hy hy hr
  have hleft : following q (some y) = q.dropWhile isAccidental ++ '/' :: y.write .b := rfl
  rw [← hleft, hk] at hown
  exact congrArg Quality.bass (Option.some.inj hown)

/-- Neither is a bass heard of a chord without one, where its quality has no slash. -/
theorem bass_of_hearing?_plain (hs : '/' ∉ q)
    (hg : hearing? quality? ⟨some x, q, none⟩ = some g) : g.bass = none := by
  obtain ⟨root, k, -, hk, rfl⟩ := hearing?_eq_some_iff.mp hg
  refine h.plain _ k (fun hmem => hs ?_) hk
  rw [following, bassText, List.append_nil] at hmem
  exact (List.dropWhile_sublist _).mem hmem

end Bass

theorem leading_eq_nil {q : Text} (h : ∀ a t, q = a :: t → isAccidental a = false) :
    leading q = [] := by
  cases q with
  | nil => rfl
  | cons a t => exact List.takeWhile_cons_of_neg (by simp [h a t rfl])

theorem exists_of_leading {q : Text} (h : leading q ≠ []) :
    ∃ a t, q = a :: t ∧ isAccidental a ∧ leading q = a :: leading t := by
  cases q with
  | nil => exact absurd rfl h
  | cons a t =>
    by_cases ha : isAccidental a
    · exact ⟨a, t, rfl, ha, List.takeWhile_cons_of_pos ha⟩
    · exact absurd (List.takeWhile_cons_of_neg ha) h

theorem eq_of_doubled {v w : Text} {a : Char} (h : v ++ a :: w ∈ toneAccidentals) (hv : v ≠ []) :
    v = [a] := by
  match v with
  | [] => exact absurd rfl hv
  | [b] =>
    simp only [toneAccidentals, List.cons_append, List.nil_append, List.mem_cons, List.cons.injEq,
      List.not_mem_nil, or_false, reduceCtorEq, false_or, and_false] at h
    rcases h with ⟨rfl, rfl, -⟩ | ⟨rfl, rfl, -⟩ <;> rfl
  | b :: c :: v =>
    have hall : ∀ w ∈ toneAccidentals, w.length ≤ 2 := by decide
    have hlen := hall _ h
    simp only [List.length_append, List.length_cons] at hlen
    omega

theorem Formed.exists_outer {x : Note} {q : Text} {y : Option Note} (h : Formed ⟨some x, q, y⟩) :
    x.Known ∧ (∃ p, Sounds x p) ∧ (∀ z, y = some z → z.Known) ∧ ∃ r, Option.Rel Sounds y r := by
  have hx := h.known rfl
  refine ⟨hx, Note.exists_pitch hx, ?_⟩
  cases h with
  | rooted => exact ⟨nofun, none, .none⟩
  | @slashed _ y _ _ hy =>
    obtain ⟨r, hr⟩ := Note.exists_pitch hy
    refine ⟨?_, some r, .some hr⟩
    rintro _ ⟨⟩
    exact hy

/-! ## Chords that have been read -/

/-- A chord sounds its bass; it sounds its root, unless the quality doubles the accidental of the
root and the tones that are heard then leave the root out. -/
theorem tones_of_read {ear : Ear} {quality? : Text → Option Quality} (h : ear.GoesBy quality?)
    (naming : Naming) (s : Text) :
    ∃ c ps, c = read naming s ∧ c.pitchClasses ear = .ok ps ∧ (∀ p ∈ ps, p.val < 12) ∧
      (c.root = none → ps = []) ∧
      (∀ y, c.bass = some y → ∃ r ∈ ps, y.pitch = .ok r) ∧
      ∀ x, c.root = some x → ∃ p, x.pitch = .ok p ∧
        (p ∈ ps ↔ ∀ a q tones, x.accidental = [a] → c.quality = a :: q →
          ear.tones? (c.write .b) = some tones → p ∈ tones) := by
  have hf := formed_read naming s
  have hne := @accidental_ne_nil naming s
  refine ⟨read naming s, ?_⟩
  generalize read naming s = c at hf hne ⊢
  obtain ⟨root, q, y⟩ := c
  cases root with
  | none =>
    refine ⟨[], rfl, rfl, nofun, fun _ => rfl, ?_, nofun⟩
    cases hf
    exact nofun
  | some x =>
    obtain ⟨hx, ⟨p, hp⟩, hy, r, hr⟩ := hf.exists_outer
    refine ⟨_, rfl, pitchClasses_rooted hp hr h hx, fun p _ => p.isLt, nofun, ?_, ?_⟩
    · rintro y rfl
      cases hr with
      | @some _ r hr =>
        refine ⟨r, ?_, hr⟩
        rw [mem_ascending]
        cases hg : hearing? quality? ⟨some x, q, some y⟩ with
        | none => exact List.mem_cons_of_mem p (List.mem_singleton.mpr rfl)
        | some g => exact Hearing.mem_all.mpr (.inr (bass_of_hearing? h (hy y rfl) hr hg))
    · rintro _ ⟨⟩
      refine ⟨p, hp, ?_⟩
      rw [mem_ascending, tones?_write h hx hp]
      cases hg : hearing? quality? ⟨some x, q, y⟩ with
      | none => exact iff_of_true List.mem_cons_self nofun
      | some g =>
        simp only [heardOr, Option.map_some, Option.getD_some]
        refine ⟨?_, fun hall => ?_⟩
        · rintro hmem _ _ _ - - ⟨⟩
          exact mem_ascending.mpr hmem
        · by_cases hq : leading q = []
          · exact Hearing.mem_all.mpr (.inl (root_mem_tones h hx hp hg hq))
          · -- a quality that starts with an accidental follows a root that has one
            obtain ⟨a, t, rfl, ha, hlead⟩ := exists_of_leading hq
            have hmem := mem_toneAccidentals_of_hearing? hx hp hg
            rw [hlead] at hmem
            have hdoubled := eq_of_doubled hmem (hne rfl rfl ha)
            exact mem_ascending.mp (hall a t _ hdoubled rfl rfl)

/-- An accidental that is doubled gives the root away. -/
theorem root_of_read_lost :
    (read .b "C##".toList).root = some ⟨['C'], ['#']⟩ ∧
      (⟨['C'], ['#']⟩ : Note).pitch = .ok 1 ∧
      (read .b "C##".toList).pitchClasses .standard = .ok [2, 6, 9] := by
  refine ⟨?_, ?_, ?_⟩ <;> rfl

/-- The bass of a chord that is known is heard, and so are its root and the tones above it. -/
theorem tones_of_read_slashed : ∃ ps, (read .h "Hm7/A".toList).pitchClasses .standard = .ok ps ∧
    11 ∈ ps ∧ 9 ∈ ps := by
  obtain ⟨c, ps, rfl, hps, -, -, hbass, hroot⟩ :=
    tones_of_read Ear.standard_goesBy .h "Hm7/A".toList
  refine ⟨ps, hps, ?_, ?_⟩
  · obtain ⟨p, hp, hiff⟩ := hroot ⟨['B'], []⟩ rfl
    cases hp
    exact hiff.mpr nofun
  · obtain ⟨r, hr, hpitch⟩ := hbass ⟨['A'], []⟩ rfl
    cases hpitch
    exact hr

/-! ## Chords that are moved -/

theorem map_outer (n : Int) (p : PitchClass) (r : Option PitchClass) :
    (p :: r.toList).map (·.shift n) = p.shift n :: (r.map (·.shift n)).toList := by
  cases r <;> rfl

/-- A bass that stays where it is does not matter if it is a tone of the chord and would have moved
to another one. -/
theorem stray_iff (n : Int) (z : PitchClass) (ts : List PitchClass) :
    (∀ s, s ∈ (Hearing.mk (ts.map (·.shift n)) (some z)).all ↔
        s ∈ (Hearing.mk ts (some z)).all.map (·.shift n)) ↔
      n % 12 = 0 ∨ z ∈ ts ∧ z.shift (-n) ∈ ts := by
  have hself : ∀ m : Int, z = z.shift m → m % 12 = 0 := fun m hm =>
    (PitchClass.shift_eq_self_iff z m).mp hm.symm
  have hback : (z.shift n).shift (-n) = z := PitchClass.shift_cancel (by omega) z
  simp only [mem_map_shift, Hearing.mem_all, Option.some.injEq]
  constructor
  · intro h
    by_cases hn : n % 12 = 0
    · exact .inl hn
    · have hz := (h z).mp (.inr rfl)
      have hz' := (h (z.shift n)).mpr (.inr hback.symm)
      rw [hback] at hz'
      refine .inr ⟨hz'.resolve_right fun he => hn (hself n he), hz.resolve_right fun he => ?_⟩
      have := hself (-n) he
      omega
  · rintro (hn | ⟨hz, hz'⟩) s
    · rw [(PitchClass.shift_eq_self_iff s _).mpr (by omega)]
    · constructor
      · rintro (hs | rfl)
        · exact .inl hs
        · exact .inl hz'
      · rintro (hs | rfl)
        · exact .inl hs
        · exact .inl hz

/-- The tones that are heard move, but for a bass that stands in the quality. -/
theorem heard_moved_iff (n : Int) (y : Option Note) (g : Hearing) :
    (∀ s, s ∈ (g.moved y.isSome n).all ↔ s ∈ g.all.map (·.shift n)) ↔
      ∀ z, y = none → g.bass = some z → n % 12 = 0 ∨ z ∈ g.tones ∧ z.shift (-n) ∈ g.tones := by
  obtain ⟨tones, bass⟩ := g
  cases y with
  | none =>
    cases bass with
    | none =>
      refine iff_of_true (fun s => by simp [Hearing.moved, Hearing.all]) fun z _ hz => ?_
      cases hz
    | some z =>
      have hstray := stray_iff n z tones
      constructor
      · rintro h _ - ⟨⟩
        exact hstray.mp h
      · intro h
        exact hstray.mpr (h z rfl rfl)
  | some y =>
    refine iff_of_true (fun s => ?_) fun z hy => ?_
    · cases bass <;> simp [Hearing.moved, Hearing.all]
    · cases hy

/-- What sounds moves with the chord just when both symbols are heard and no bass in the quality is
left behind, or no more than root and bass sound of both. -/
theorem heardOr_moved_iff {ear : Ear} {quality? : Text → Option Quality} (h : ear.GoesBy quality?)
    {n : Int} {x x' : Note} {q : Text} {y y' : Option Note} (hx : Follows n x x')
    (hy : Option.Rel (Follows n) y y') (p : PitchClass) (r : Option PitchClass) :
    ascending (heardOr (hearing? quality? ⟨some x', q, y'⟩) (p.shift n) (r.map (·.shift n))) =
        ascending ((heardOr (hearing? quality? ⟨some x, q, y⟩) p r).map (·.shift n)) ↔
      (∃ g g', hearing? quality? ⟨some x, q, y⟩ = some g ∧
        hearing? quality? ⟨some x', q, y'⟩ = some g' ∧ ∀ z, y = none → g.bass = some z →
          n % 12 = 0 ∨ z ∈ g.tones ∧ z.shift (-n) ∈ g.tones) ∨
      ascending (p :: r.toList) = ascending (heardOr (hearing? quality? ⟨some x, q, y⟩) p r) ∧
        ascending (p.shift n :: (r.map (·.shift n)).toList) = ascending (heardOr
          (hearing? quality? ⟨some x', q, y'⟩) (p.shift n) (r.map (·.shift n))) := by
  have houter := map_outer n p r
  rw [← houter]
  cases hg : hearing? quality? ⟨some x, q, y⟩ with
  | none =>
    cases hg' : hearing? quality? ⟨some x', q, y'⟩ with
    | none =>
      have hright : heardOr none (p.shift n) (r.map (·.shift n)) =
          (p :: r.toList).map (·.shift n) := houter.symm
      exact iff_of_true (congrArg ascending hright) (.inr ⟨rfl, (congrArg ascending hright).symm⟩)
    | some g' =>
      simp only [heardOr, Option.map_none, Option.getD_none, reduceCtorEq, false_and, exists_false,
        false_or, true_and]
      exact eq_comm
  | some g =>
    cases hg' : hearing? quality? ⟨some x', q, y'⟩ with
    | none =>
      simp only [heardOr, Option.map_none, Option.getD_none, reduceCtorEq, false_and, and_false,
        exists_false, false_or, ← houter, and_true]
      exact ascending_map_eq_iff
    | some g' =>
      have hmoved := hearing?_moved h hx hy hg hg'
      have hstray := heard_moved_iff n y g
      rw [← hmoved, ← ascending_eq_iff] at hstray
      simp only [heardOr, Option.map_some, Option.getD_some]
      rw [hstray]
      constructor
      · exact fun hbass => .inl ⟨g, g', rfl, rfl, hbass⟩
      · rintro (⟨_, _, ⟨⟩, -, hbass⟩ | ⟨hleft, hright⟩)
        · exact hbass
        · rw [← hstray, ← hright, ascending_map_eq_iff]
          exact hleft

/-- A chord sounds its tones moved just when its symbol and that of the moved chord are both heard
and no bass in its quality is left behind, or no more than root and bass sound of both; so it does
if its quality starts with no accidental and has no slash. -/
theorem tones_moved_iff {ear : Ear} {quality? : Text → Option Quality} (h : ear.GoesBy quality?)
    (naming : Naming) (s : Text) (n : Int) :
    ∃ c e ps qs, c = read naming s ∧ c.shift n = .ok e ∧ c.pitchClasses ear = .ok ps ∧
      e.pitchClasses ear = .ok qs ∧
      (qs = ascending (ps.map (·.shift n)) ↔
        (∃ g g', c.hearing? quality? = some g ∧ e.hearing? quality? = some g' ∧
          ∀ z, c.bass = none → g.bass = some z →
            n % 12 = 0 ∨ z ∈ g.tones ∧ z.shift (-n) ∈ g.tones) ∨
        c.outer = .ok ps ∧ e.outer = .ok qs) ∧
      ((∀ a q, c.quality = a :: q → isAccidental a = false) → '/' ∉ c.quality →
        qs = ascending (ps.map (·.shift n))) := by
  have hf := formed_read naming s
  refine ⟨read naming s, (read naming s).moved n, ?_⟩
  generalize read naming s = c at hf ⊢
  have hshift := shift_formed hf n
  have hmoves := movesTo_moved hf n
  have hf' := formed_moved hf n
  obtain ⟨root, q, y⟩ := c
  cases root with
  | none =>
    rw [hmoves.rootless rfl] at hshift ⊢
    exact ⟨[], [], rfl, hshift, rfl, rfl, iff_of_true rfl (.inr ⟨rfl, rfl⟩), fun _ _ => rfl⟩
  | some x =>
    obtain ⟨x', y', he, hx, hy⟩ := hmoves.follows hf hf'
    rw [he] at hshift ⊢
    obtain ⟨-, -, -, r, hr⟩ := hf.exists_outer
    obtain ⟨p, hp, hp'⟩ := hx.sounds
    have hr' : Option.Rel Sounds y' (r.map (·.shift n)) := sounds_moved hy hr
    have hiff := heardOr_moved_iff h (q := q) hx hy p r
    refine ⟨_, _, rfl, hshift, pitchClasses_rooted hp hr h hx.known,
      pitchClasses_rooted hp' hr' h hx.known', ?_⟩
    rw [ascending_map_ascending, outer_rooted hp hr, outer_rooted hp' hr', Except.ok.injEq,
      Except.ok.injEq]
    refine ⟨hiff, fun hq hs => hiff.mpr ?_⟩
    have hlead : leading q = [] := leading_eq_nil hq
    have hknown := isSome_hearing?_moved h hx hy hlead
    cases hg : hearing? quality? ⟨some x, q, y⟩ with
    | none =>
      rw [hg] at hknown
      have hg' : hearing? quality? ⟨some x', q, y'⟩ = none := by simpa using hknown
      rw [hg']
      exact .inr ⟨rfl, rfl⟩
    | some g =>
      rw [hg] at hknown
      obtain ⟨g', hg'⟩ := Option.isSome_iff_exists.mp (hknown.mpr rfl)
      refine .inl ⟨g, g', rfl, hg', ?_⟩
      rintro z rfl hz
      rw [bass_of_hearing?_plain h hs hg] at hz
      cases hz

/-- A flat that cannot be heard behind a sharp is heard behind a letter. -/
theorem tones_left_behind :
    (read .b "A#b".toList).pitchClasses .standard = .ok [10] ∧
      (read .b "A#b".toList).shift 1 = .ok ⟨some ⟨['B'], []⟩, ['b'], none⟩ ∧
      pitchClasses .standard ⟨some ⟨['B'], []⟩, ['b'], none⟩ = .ok [2, 5, 10] ∧
      ascending (([10] : List PitchClass).map (·.shift 1)) = [11] := by
  refine ⟨?_, ?_, ?_, ?_⟩ <;> rfl

/-- Two tones up, a seventh chord on another bass than its root. -/
theorem tones_moved_slashed : ∃ e, (read .b "Am7/G".toList).shift 2 = .ok e ∧
    (read .b "Am7/G".toList).pitchClasses .standard = .ok [0, 4, 7, 9] ∧
    e.pitchClasses .standard = .ok [2, 6, 9, 11] := by
  obtain ⟨c, e, ps, qs, rfl, he, hps, hqs, -, hmoved⟩ :=
    tones_moved_iff Ear.standard_goesBy .b "Am7/G".toList 2
  have hsounds : (read .b "Am7/G".toList).pitchClasses .standard = .ok [0, 4, 7, 9] := rfl
  obtain rfl : ps = [0, 4, 7, 9] := Except.ok.inj (hps.symm.trans hsounds)
  refine ⟨e, he, hps, ?_⟩
  have hletter : ∀ a q, (read .b "Am7/G".toList).quality = a :: q → isAccidental a = false := by
    rintro a q ⟨⟩
    rfl
  rw [hqs, hmoved hletter (by decide)]
  rfl

end Chord
end ChordSheet
