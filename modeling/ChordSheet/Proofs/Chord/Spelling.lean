import ChordSheet.Chord
import ChordSheet.Proofs.Text.Lines

/-! Notes as they are read: seven letters, each with at most one accidental.

* `Note.Known`: the twenty-one spellings.
* `Note.shift_known`: a known note moves without a fault and stays known.
* `Note.exists_write`: a known note that is written reads as itself. -/
namespace ChordSheet
set_option autoImplicit false

theorem Naming.mem_all (naming : Naming) : naming ∈ Naming.all := by
  cases naming <;> decide

namespace Note

/-- At most one accidental. -/
def accidentals : List Text := [[], ['#'], ['b']]

def spellings : List Note :=
  ['A', 'B', 'C', 'D', 'E', 'F', 'G'].flatMap fun l => accidentals.map fun a => ⟨[l], a⟩

def Known (x : Note) : Prop := x ∈ spellings

/-! ## Letters -/

def letters : List Char := ['A', 'B', 'C', 'D', 'E', 'F', 'G', 'H']

theorem mem_letters {c : Char} (h : Chord.isNoteLetter c) : c ∈ letters := by
  have hc : 65 ≤ c.toNat ∧ c.toNat ≤ 72 := by
    simpa [Chord.isNoteLetter, Char.le_def, UInt32.le_iff_toNat_le] using h
  have hn : c = Char.ofNat c.toNat := (Char.ofNat_toNat c).symm
  have hcases : c.toNat = 65 ∨ c.toNat = 66 ∨ c.toNat = 67 ∨ c.toNat = 68 ∨ c.toNat = 69 ∨
      c.toNat = 70 ∨ c.toNat = 71 ∨ c.toNat = 72 := by omega
  rcases hcases with h | h | h | h | h | h | h | h <;> rw [h] at hn <;> rw [hn] <;> decide

theorem known_read (naming : Naming) {l : Char} (hl : Chord.isNoteLetter l) {a : Text}
    (ha : a ∈ accidentals) : (read naming l a).Known := by
  have hall : ∀ n ∈ Naming.all, ∀ l ∈ letters, ∀ a ∈ accidentals, read n l a ∈ spellings := by
    decide
  exact hall naming naming.mem_all l (mem_letters hl) a ha

/-! ## Moving -/

/-- A note without a pitch would stay where it is. -/
def moved (flats : Bool) (n : Int) (x : Note) : Note :=
  match x.pitch with
  | .ok p => (p.shift n).spell flats
  | .error _ => x

theorem known_spell (flats : Bool) (p : PitchClass) : (p.spell flats).Known := by
  have hall : ∀ flats : Bool, ∀ p : PitchClass, p.spell flats ∈ spellings := by decide
  exact hall flats p

theorem exists_pitch {x : Note} (hx : x.Known) : ∃ p, x.pitch = .ok p := by
  have hall : ∀ x ∈ spellings, (PitchClass.ofName? x.name).isSome := by decide
  obtain ⟨p, hp⟩ := Option.isSome_iff_exists.mp (hall x hx)
  exact ⟨p, by rw [pitch, PitchClass.ofName, hp]⟩

/-- Known notes move without a fault. -/
theorem shift_known {x : Note} (hx : x.Known) (flats : Bool) (n : Int) :
    x.shift flats n = .ok (x.moved flats n) := by
  obtain ⟨p, hp⟩ := exists_pitch hx
  rw [shift, moved, hp]

theorem known_moved {x : Note} (hx : x.Known) (flats : Bool) (n : Int) :
    (x.moved flats n).Known := by
  obtain ⟨p, hp⟩ := exists_pitch hx
  rw [moved, hp]
  exact known_spell flats _

/-! ## Writing -/

theorem exists_write {x : Note} (hx : x.Known) (naming : Naming) :
    ∃ l a, x.write naming = l :: a ∧ Chord.isNoteLetter l ∧ a ∈ accidentals ∧
      read naming l a = x := by
  have hall : ∀ n ∈ Naming.all, ∀ x ∈ spellings, ∃ l ∈ letters, ∃ a ∈ accidentals,
      x.write n = l :: a ∧ Chord.isNoteLetter l ∧ read n l a = x := by decide
  obtain ⟨l, -, a, ha, hw, hl, hr⟩ := hall naming naming.mem_all x hx
  exact ⟨l, a, hw, hl, ha, hr⟩

/-- The characters that notes and the slash before a bass are written with. -/
def symbols : Text := "ABCDEFGH#b/".toList

theorem mem_symbols {x : Note} (hx : x.Known) (naming : Naming) {c : Char}
    (hc : c ∈ x.write naming) : c ∈ symbols := by
  have hall : ∀ n ∈ Naming.all, ∀ x ∈ spellings, ∀ c ∈ x.write n, c ∈ symbols := by decide
  exact hall naming naming.mem_all x hx c hc

end Note
end ChordSheet
