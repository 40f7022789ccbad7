import ChordSheet.Cli.Disk
import Mathlib.Tactic.SplitIfs

/-! Disks before and after something is put on them.

* `Disk.Leads`: the ways through a disk that end at a place; `Disk.find_eq_ok_iff`.
* `Disk.Stands`: what is there at such an end, no directory and no link.
* `Disk.Holds`: the bytes that can be read behind a path.
* `Disk.Replaced`: a disk on which one place has a new content; `Disk.replaced_put`. -/
namespace ChordSheet.Cli
set_option autoImplicit false

namespace Disk

/-! ## Steps -/

section Steps
variable {disk : Disk} {follow : List Text → List Text → Except FileFault Place}
  {here ps : List Text} {p : Text} (hin : disk.noEntering here = none)
include hin

theorem walkParts_up : disk.walkParts follow here (['.', '.'] :: ps) =
    disk.walkParts follow here.dropLast ps := by
  rw [walkParts, hin]
  exact if_pos rfl

variable (hp : p ≠ ['.', '.']) (hsize : ¬ maxName < utf8Size p)
include hp hsize

theorem walkParts_directory {r w : Option Refusal}
    (hthing : disk.thing? (here ++ [p]) = some (.directory r w)) :
    disk.walkParts follow here (p :: ps) = disk.walkParts follow (here ++ [p]) ps := by
  rw [walkParts, hin]
  simp only [if_neg hp, if_neg hsize, hthing]

theorem walkParts_link {target : Path} (hthing : disk.thing? (here ++ [p]) = some (.link target)) :
    disk.walkParts follow here (p :: ps) = follow (target.start here) (target.parts ++ ps) := by
  rw [walkParts, hin]
  simp only [if_neg hp, if_neg hsize, hthing]

theorem walkParts_file {content : ByteArray} {r w : Option Refusal}
    (hthing : disk.thing? (here ++ [p]) = some (.file content r w)) :
    disk.walkParts follow here (p :: ps) =
      if ps = [] then .ok (.file (here ++ [p])) else .error .notDirectory := by
  rw [walkParts, hin]
  simp only [if_neg hp, if_neg hsize, hthing]

theorem walkParts_free (hthing : disk.thing? (here ++ [p]) = none) :
    disk.walkParts follow here (p :: ps) =
      if ps = [] then .ok (.free here p) else .error .absent := by
  rw [walkParts, hin]
  simp only [if_neg hp, if_neg hsize, hthing]

end Steps

/-! ## Ways -/

/-- The ways from a directory along some parts, over so many links at most: each goes through
directories that may be entered, and ends at a file or at a name that nothing has. -/
inductive Leads (disk : Disk) : Nat → List Text → List Text → Place → Prop
  | up {links : Nat} {here ps : List Text} {place : Place} (hin : disk.noEntering here = none)
      (h : Leads disk links here.dropLast ps place) :
      Leads disk links here (['.', '.'] :: ps) place
  | down {links : Nat} {here ps : List Text} {p : Text} {place : Place} {r w : Option Refusal}
      (hin : disk.noEntering here = none) (hp : p ≠ ['.', '.']) (hsize : ¬ maxName < utf8Size p)
      (hthing : disk.thing? (here ++ [p]) = some (.directory r w))
      (h : Leads disk links (here ++ [p]) ps place) : Leads disk links here (p :: ps) place
  | along {links : Nat} {here ps : List Text} {p : Text} {place : Place} {target : Path}
      (hin : disk.noEntering here = none) (hp : p ≠ ['.', '.']) (hsize : ¬ maxName < utf8Size p)
      (hthing : disk.thing? (here ++ [p]) = some (.link target))
      (h : Leads disk links (target.start here) (target.parts ++ ps) place) :
      Leads disk (links + 1) here (p :: ps) place
  | file {links : Nat} {here : List Text} {p : Text} {content : ByteArray} {r w : Option Refusal}
      (hin : disk.noEntering here = none) (hp : p ≠ ['.', '.']) (hsize : ¬ maxName < utf8Size p)
      (hthing : disk.thing? (here ++ [p]) = some (.file content r w)) :
      Leads disk links here [p] (.file (here ++ [p]))
  | free {links : Nat} {here : List Text} {p : Text}
      (hin : disk.noEntering here = none) (hp : p ≠ ['.', '.']) (hsize : ¬ maxName < utf8Size p)
      (hthing : disk.thing? (here ++ [p]) = none) : Leads disk links here [p] (.free here p)

section Ways
variable {disk : Disk} {links : Nat} {here ps : List Text} {place : Place}

/-- Along the parts, if what is behind a link is known to be led to over one link less. -/
theorem leads_of_walkParts {follow : List Text → List Text → Except FileFault Place}
    (hfollow : ∀ {here ps place}, follow here ps = .ok place →
      ∃ n, links = n + 1 ∧ disk.Leads n here ps place)
    (h : disk.walkParts follow here ps = .ok place) : disk.Leads links here ps place := by
  induction ps generalizing here with
  | nil => cases h
  | cons p ps ih =>
    cases hin : disk.noEntering here with
    | some e =>
      rw [walkParts, hin] at h
      cases h
    | none =>
      by_cases hp : p = ['.', '.']
      · rw [hp, walkParts_up hin] at h
        rw [hp]
        exact .up hin (ih h)
      by_cases hsize : maxName < utf8Size p
      · rw [walkParts, hin] at h
        simp only [if_neg hp, if_pos hsize] at h
        cases h
      cases hthing : disk.thing? (here ++ [p]) with
      | none =>
        rw [walkParts_free hin hp hsize hthing] at h
        split_ifs at h with hps
        cases h
        rw [hps]
        exact .free hin hp hsize hthing
      | some t => cases t with
        | directory r w =>
          rw [walkParts_directory hin hp hsize hthing] at h
          exact .down hin hp hsize hthing (ih h)
        | link target =>
          rw [walkParts_link hin hp hsize hthing] at h
          obtain ⟨n, rfl, hn⟩ := hfollow h
          exact .along hin hp hsize hthing hn
        | file content r w =>
          rw [walkParts_file hin hp hsize hthing] at h
          split_ifs at h with hps
          cases h
          rw [hps]
          exact .file hin hp hsize hthing

theorem leads_of_walk (h : disk.walk links here ps = .ok place) :
    disk.Leads links here ps place := by
  induction links generalizing here ps place with
  | zero =>
    refine leads_of_walkParts ?_ h
    intro _ _ _ h'
    cases h'
  | succ links ih => exact leads_of_walkParts (fun h' => ⟨links, rfl, ih h'⟩) h

/-- What becomes of a way at a link. -/
def follow (disk : Disk) : Nat → List Text → List Text → Except FileFault Place
  | 0 => fun _ _ => .error .tooManyLinks
  | links + 1 => disk.walk links

theorem walk_eq (disk : Disk) (links : Nat) :
    disk.walk links = disk.walkParts (disk.follow links) := by
  cases links <;> rfl

theorem walk_of_leads (h : disk.Leads links here ps place) :
    disk.walk links here ps = .ok place := by
  induction h with
  | up hin _ ih => rw [walk_eq, walkParts_up hin, ← walk_eq, ih]
  | down hin hp hsize hthing _ ih =>
    rw [walk_eq, walkParts_directory hin hp hsize hthing, ← walk_eq, ih]
  | along hin hp hsize hthing _ ih => rw [walk_eq, walkParts_link hin hp hsize hthing, follow, ih]
  | file hin hp hsize hthing => rw [walk_eq, walkParts_file hin hp hsize hthing, if_pos rfl]
  | free hin hp hsize hthing => rw [walk_eq, walkParts_free hin hp hsize hthing, if_pos rfl]

end Ways

/-- A path leads to a place along one of the ways. -/
theorem find_eq_ok_iff {disk : Disk} {p : Path} {place : Place} : disk.find p = .ok place ↔
    ¬ maxPath < utf8Size p.text ∧ disk.Leads maxLinks (p.start disk.here) p.parts place := by
  rw [find]
  by_cases hsize : maxPath < utf8Size p.text
  · rw [if_pos hsize]
    exact ⟨nofun, fun h => absurd hsize h.1⟩
  · rw [if_neg hsize]
    exact ⟨fun h => ⟨hsize, leads_of_walk h⟩, fun h => walk_of_leads h.2⟩

/-! ## Places -/

/-- What stands at the end of a way: a file, or nothing. -/
inductive Stands (disk : Disk) : Place → Prop
  | file {parts : List Text} {content : ByteArray} {r w : Option Refusal}
      (hthing : disk.thing? parts = some (.file content r w)) : Stands disk (.file parts)
  | free {directory : List Text} {name : Text} (hthing : disk.thing? (directory ++ [name]) = none) :
      Stands disk (.free directory name)

section Places
variable {disk : Disk} {links : Nat} {here ps parts : List Text} {place : Place}

theorem Leads.stands (h : disk.Leads links here ps place) : disk.Stands place := by
  induction h with
  | up _ _ ih => exact ih
  | down _ _ _ _ _ ih => exact ih
  | along _ _ _ _ _ ih => exact ih
  | file _ _ _ hthing => exact .file hthing
  | free _ _ _ hthing => exact .free hthing

/-- Directories and links are no places. -/
theorem Stands.ne_parts (h : disk.Stands place) {t : Thing} (ht : disk.thing? parts = some t)
    (hfile : ∀ content r w, t ≠ .file content r w) : parts ≠ place.parts := by
  rintro rfl
  cases h with
  | file hthing => exact hfile _ _ _ (Option.some.inj (ht.symm.trans hthing))
  | free hthing => cases ht.symm.trans hthing

/-! ## Contents -/

/-- The bytes that can be read behind a path. -/
def Holds (disk : Disk) (p : Path) (content : ByteArray) : Prop :=
  ∃ parts w, disk.find p = .ok (.file parts) ∧ disk.thing? parts = some (.file content none w)

theorem bind_eq_ok_iff {ε α β : Type} {x : Except ε α} {f : α → Except ε β} {b : β} :
    x.bind f = .ok b ↔ ∃ a, x = .ok a ∧ f a = .ok b := by
  cases x <;> simp [Except.bind]

theorem read_eq_ok_iff {p : Path} {content : ByteArray} :
    disk.read p = .ok content ↔ disk.Holds p content := by
  rw [read, bind_eq_ok_iff]
  constructor
  · rintro ⟨place, hfind, h⟩
    rw [readPlace] at h
    cases (find_eq_ok_iff.mp hfind).2.stands with
    | free hthing =>
      rw [Place.parts, hthing] at h
      cases h
    | @file parts _ r w hthing =>
      rw [Place.parts, hthing] at h
      cases r with
      | some r => cases h
      | none =>
        cases h
        exact ⟨parts, w, hfind, hthing⟩
  · rintro ⟨parts, w, hfind, hthing⟩
    refine ⟨_, hfind, ?_⟩
    rw [readPlace, Place.parts, hthing]

/-- What a disk holds under some parts. -/
def content? (disk : Disk) (parts : List Text) : Option ByteArray :=
  match disk.thing? parts with
  | some (.file content ..) => some content
  | _ => none

/-- On the changed disk the path leads to a file with the new content, and all else is as before. -/
structure Replaced (disk : Disk) (p : Path) (place : Place) (content : ByteArray)
    (changed : Disk) : Prop where
  find : changed.find p = .ok (.file place.parts)
  content : changed.content? place.parts = some content
  others : ∀ parts, parts ≠ place.parts → changed.thing? parts = disk.thing? parts
  here : changed.here = disk.here

variable (content : ByteArray)

theorem thing?_put : (disk.put content place).thing? parts =
    if parts = place.parts then some (Thing.withContent content (disk.thing? parts))
    else disk.thing? parts := rfl

variable (disk place) in
theorem thing?_put_self : ∃ r w,
    (disk.put content place).thing? place.parts = some (.file content r w) := by
  rw [thing?_put, if_pos rfl]
  rcases disk.thing? place.parts with _ | ⟨_, r, w⟩ | _ | _
  · exact ⟨none, none, rfl⟩
  · exact ⟨r, w, rfl⟩
  · exact ⟨none, none, rfl⟩
  · exact ⟨none, none, rfl⟩

theorem exists_directory (hin : disk.noEntering parts = none) :
    ∃ w, disk.thing? parts = some (.directory none w) := by
  rw [noEntering] at hin
  cases ht : disk.thing? parts with
  | none =>
    rw [ht] at hin
    cases hin
  | some t =>
    rw [ht] at hin
    cases t with
    | directory r w =>
      cases r with
      | none => exact ⟨w, rfl⟩
      | some r => cases hin
    | file => cases hin
    | link => cases hin

section Passed
variable (h : disk.Stands place)
include h

/-- What is passed on the way is left as it is. -/
theorem Stands.thing?_put {t : Thing} (ht : disk.thing? parts = some t)
    (hfile : ∀ content r w, t ≠ .file content r w) :
    (disk.put content place).thing? parts = some t := by
  rw [Disk.thing?_put, if_neg (h.ne_parts ht hfile), ht]

theorem Stands.noEntering_put (hin : disk.noEntering parts = none) :
    (disk.put content place).noEntering parts = none := by
  obtain ⟨w, ht⟩ := exists_directory hin
  rw [noEntering, h.thing?_put content ht nofun]
  rfl

end Passed

/-- A way to a place is a way to what is put there. -/
theorem Leads.put (h : disk.Leads links here ps place) :
    (disk.put content place).Leads links here ps (.file place.parts) := by
  induction h with
  | up hin h ih => exact .up (h.stands.noEntering_put content hin) ih
  | down hin hp hsize hthing h ih =>
    exact .down (h.stands.noEntering_put content hin) hp hsize
      (h.stands.thing?_put content hthing nofun) ih
  | along hin hp hsize hthing h ih =>
    exact .along (h.stands.noEntering_put content hin) hp hsize
      (h.stands.thing?_put content hthing nofun) ih
  | @file _ here p _ _ _ hin hp hsize hthing =>
    obtain ⟨r, w, hnew⟩ := thing?_put_self disk (.file (here ++ [p])) content
    exact .file ((Stands.file hthing).noEntering_put content hin) hp hsize hnew
  | @free _ here p hin hp hsize hthing =>
    obtain ⟨r, w, hnew⟩ := thing?_put_self disk (.free here p) content
    exact .file ((Stands.free hthing).noEntering_put content hin) hp hsize hnew

theorem replaced_put {p : Path} (h : disk.find p = .ok place) :
    disk.Replaced p place content (disk.put content place) where
  find := by
    obtain ⟨hsize, hleads⟩ := find_eq_ok_iff.mp h
    exact find_eq_ok_iff.mpr ⟨hsize, hleads.put content⟩
  content := by
    obtain ⟨r, w, hnew⟩ := thing?_put_self disk place content
    rw [content?, hnew]
  others := fun _ hne => if_neg hne
  here := rfl

/-- An output that can be opened is where its path leads. -/
theorem find_of_openOut {p : Path} (h : disk.openOut p = .ok place) : disk.find p = .ok place := by
  obtain ⟨found, hfind, h⟩ := bind_eq_ok_iff.mp h
  cases hw : disk.noWriting found with
  | some r =>
    rw [hw] at h
    cases h
  | none =>
    rw [hw] at h
    cases h
    exact hfind

end Places
end Disk
end ChordSheet.Cli
