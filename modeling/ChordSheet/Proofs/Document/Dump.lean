import ChordSheet.Chord.Standard
import ChordSheet.Proofs.Document.Total

/-! Dumps are read back, so they tell documents apart.

* `Json.member?` and the like: what is found inside a value.
* `Chord.ofDump?`, `Item.ofDump?`, `Section.ofDump?`, `Document.ofDump?`: what a dump describes.
* `Chord.Spelled`: the notes of a chord are among the twenty-one spellings.
* `Item.ofDump?_dump`: one item, of any kind, is read back from its dump.
* `Document.ofDump?_dump`: so is a whole document.
* `Document.dump_determines`: every text has a dump, and documents with the same dump are equal. -/
namespace ChordSheet
set_option autoImplicit false

open Json

/-! ## Looking into a value -/

namespace Json

/-- The first member of an object under a name. -/
def member? (name : String) : Json → Option Json
  | object ms => ms.lookup name.toList
  | _ => none

def text? : Json → Option Text
  | string s => some s
  | _ => none

def number? : Json → Option Nat
  | number n => some n
  | _ => none

def items? : Json → Option (List Json)
  | array js => some js
  | _ => none

/-- A null says that there is nothing to read. -/
def optional? {α : Type} (read : Json → Option α) : Json → Option (Option α)
  | null => some none
  | j => (read j).map some

def textAt? (name : String) (j : Json) : Option Text := (j.member? name).bind text?

end Json

/-! ## Reading a dump -/

/-- A letter, and all behind it is the accidental. -/
def Note.ofName? : Text → Option Note
  | [] => none
  | l :: a => some ⟨[l], a⟩

def Note.ofDump? (j : Json) : Option Note := j.text?.bind Note.ofName?

/-- The symbol and the pitch classes follow from the rest. -/
def Chord.ofDump? (j : Json) : Option Chord := do
  let root ← (← j.member? "root").optional? Note.ofDump?
  let quality ← j.textAt? "quality"
  let bass ← (← j.member? "bass").optional? Note.ofDump?
  return ⟨root, quality, bass⟩

def Headline.ofDump? (j : Json) : Option Headline := do
  let level ← (← j.member? "level").number?
  let text ← j.textAt? "text"
  let modifier ← Modifier.ofName? (← j.textAt? "modifier")
  return ⟨level, text, modifier⟩

/-- The type tells the kind of item, and no other type is one. -/
def Item.ofDump? (j : Json) : Option Item := do
  let type ← j.textAt? "type"
  if type = "headline".toList then (Headline.ofDump? j).map headline
  else if type = "chord_text_pair".toList then
    return pair (← Chord.ofDump? (← j.member? "chord")) (← j.textAt? "text")
  else if type = "chord".toList then return chord (← Chord.ofDump? (← j.member? "chord"))
  else if type = "text".toList then (j.textAt? "text").map text
  else if type = "quote".toList then (j.textAt? "text").map quote
  else if type = "meta".toList then
    return entry ⟨← j.textAt? "keyword", ← j.textAt? "content"⟩
  else if type = "newline".toList then return newline
  else none

def Section.ofDump? (j : Json) : Option Section := do
  guard ((← j.textAt? "type") = "section".toList)
  let kind ← SectionKind.ofName? (← j.textAt? "section_type")
  let head ← (← j.member? "head").optional? Headline.ofDump?
  let items ← (← (← j.member? "children").items?).mapM Item.ofDump?
  return ⟨head, items, kind⟩

def Document.ofDump? (j : Json) : Option Document := do
  guard ((← j.textAt? "type") = "document".toList)
  let sections ← (← (← j.member? "children").items?).mapM Section.ofDump?
  return ⟨sections⟩

/-! ## Chords -/

theorem Note.ofName?_write {x : Note} (hx : x.Known) : ofName? (x.write .b) = some x := by
  have hall : ∀ x ∈ spellings, ofName? (x.write .b) = some x := by decide
  exact hall x hx

namespace Chord

/-- The notes of a chord are among the twenty-one spellings. -/
structure Spelled (c : Chord) : Prop where
  root : ∀ x, c.root = some x → x.Known
  bass : ∀ x, c.bass = some x → x.Known

theorem Formed.spelled {c : Chord} (h : c.Formed) : c.Spelled := by
  cases h with
  | plain hf hh => exact ⟨nofun, nofun⟩
  | rooted hx hr hb => exact ⟨fun x h => Option.some.inj h ▸ hx, nofun⟩
  | slashed hx hy => exact ⟨fun x h => Option.some.inj h ▸ hx, fun y h => Option.some.inj h ▸ hy⟩

theorem optional_note {x : Option Note} (h : ∀ y, x = some y → y.Known) :
    (ofOption (x.map (·.write .b))).optional? Note.ofDump? = some x := by
  cases x with
  | none => rfl
  | some y =>
    show (Note.ofName? (y.write .b)).map some = some (some y)
    rw [Note.ofName?_write (h y rfl)]
    rfl

theorem ofDump?_dump {c : Chord} (h : c.Spelled) {ear : Ear} {j : Json}
    (hj : c.dump ear = .ok j) :
    ofDump? j = some c := by
  obtain ⟨ps, -, rfl⟩ := (map_ok_iff _ _ _).mp hj
  show (((ofOption (c.root.map (·.write .b))).optional? Note.ofDump?).bind fun root =>
    ((ofOption (c.bass.map (·.write .b))).optional? Note.ofDump?).bind fun bass =>
      some (⟨root, c.quality, bass⟩ : Chord)) = some c
  rw [optional_note h.root, optional_note h.bass]
  rfl

end Chord

/-! ## Items -/

theorem Headline.ofDump?_dump (h : Headline) : ofDump? h.dump = some h := by
  obtain ⟨level, text, modifier⟩ := h
  cases modifier <;> rfl

theorem Item.ofDump?_dump {i : Item} (h : ∀ c, i.chord? = some c → c.Spelled) {ear : Ear} {j : Json}
    (hj : i.dump ear = .ok j) : ofDump? j = some i := by
  cases i with
  | headline x =>
    cases hj
    show (Headline.ofDump? x.dump).map headline = _
    rw [Headline.ofDump?_dump]
    rfl
  | pair c s =>
    obtain ⟨k, hk, rfl⟩ := (map_ok_iff _ _ _).mp hj
    show ((Chord.ofDump? k).bind fun c => some (pair c s)) = _
    rw [Chord.ofDump?_dump (h c rfl) hk]
    rfl
  | chord c =>
    obtain ⟨k, hk, rfl⟩ := (map_ok_iff _ _ _).mp hj
    show ((Chord.ofDump? k).bind fun c => some (chord c)) = _
    rw [Chord.ofDump?_dump (h c rfl) hk]
    rfl
  | text s | quote s | entry e | newline =>
    cases hj
    rfl

/-! ## Sections and documents -/

theorem Section.ofDump?_dump {s : Section}
    (h : ∀ c ∈ s.items.filterMap Item.chord?, c.Spelled) {ear : Ear} {j : Json}
    (hj : s.dump ear = .ok j) :
    ofDump? j = some s := by
  obtain ⟨js, hjs, rfl⟩ := (map_ok_iff _ _ _).mp hj
  obtain ⟨head, items, kind⟩ := s
  have hitems : js.mapM Item.ofDump? = some items := by
    refine mapM_undone (fun i hi k hk => Item.ofDump?_dump (fun c hc => ?_) hk) hjs
    exact h c (List.mem_filterMap.mpr ⟨i, hi, hc⟩)
  have hkind : SectionKind.ofName? kind.name = some kind := by cases kind <;> rfl
  have hhead : ((head.map Headline.dump).getD null).optional? Headline.ofDump? = some head := by
    cases head with
    | none => rfl
    | some x =>
      show (Headline.ofDump? x.dump).map some = _
      rw [Headline.ofDump?_dump]
      rfl
  show ((SectionKind.ofName? kind.name).bind fun kind =>
    (((head.map Headline.dump).getD null).optional? Headline.ofDump?).bind fun head =>
      (js.mapM Item.ofDump?).bind fun items => some (⟨head, items, kind⟩ : Section)) = _
  rw [hkind, hhead, hitems]
  rfl

namespace Document

theorem ofDump?_dump {d : Document} (h : ∀ c ∈ d.chords, c.Spelled) {ear : Ear} {j : Json}
    (hj : d.dump ear = .ok j) : ofDump? j = some d := by
  obtain ⟨js, hjs, rfl⟩ := (map_ok_iff _ _ _).mp hj
  have hsections : js.mapM Section.ofDump? = some d.sections := by
    refine mapM_undone (fun s hs k hk => Section.ofDump?_dump (fun c hc => ?_) hk) hjs
    exact h c (List.mem_flatMap.mpr ⟨s, hs, hc⟩)
  show ((js.mapM Section.ofDump?).bind fun sections => some (⟨sections⟩ : Document)) = _
  rw [hsections]
  rfl

/-- The document of every text has a dump, from which it is read back, whatever chords the ear knows;
and documents whose notes are spelled as notes are read are equal if their dumps are. -/
theorem dump_determines (ear : Ear) :
    (∀ s : Text, ∃ d j, ofText s = .ok d ∧ (∀ c ∈ d.chords, c.Spelled) ∧ d.dump ear = .ok j ∧
      ofDump? j = some d) ∧
    ∀ (d e : Document) (j : Json), (∀ c ∈ d.chords, c.Spelled) → (∀ c ∈ e.chords, c.Spelled) →
      d.dump ear = .ok j → e.dump ear = .ok j → d = e := by
  constructor
  · intro s
    obtain ⟨d, m, hd, -, hf⟩ := exists_ofText_sound s
    have hspelled : ∀ c ∈ d.chords, c.Spelled := fun c hc => (hf c hc).spelled
    obtain ⟨j, hj⟩ := exists_dump ear hf
    exact ⟨d, j, hd, hspelled, hj, ofDump?_dump hspelled hj⟩
  · intro d e j hd he hdj hej
    have hdump := ofDump?_dump hd hdj
    rw [ofDump?_dump he hej] at hdump
    exact (Option.some.inj hdump).symm

/-- An `H` is another way to write a B, and a stray bracket is dropped. -/
theorem dump_determines_two_texts : ∃ d e j, ofText "[Hm/Ab]x".toList = .ok d ∧
    ofText "[Bm/Ab]x]".toList = .ok e ∧ (∀ c ∈ d.chords, c.Spelled) ∧
    (∀ c ∈ e.chords, c.Spelled) ∧ d.dump .standard = .ok j ∧ e.dump .standard = .ok j ∧ d = e := by
  obtain ⟨htexts, hequal⟩ := dump_determines .standard
  obtain ⟨d, j, hd, hsd, hjd, -⟩ := htexts "[Hm/Ab]x".toList
  obtain ⟨e, k, he, hse, hje, -⟩ := htexts "[Bm/Ab]x]".toList
  have htext : ofText "[Hm/Ab]x".toList = ofText "[Bm/Ab]x]".toList := rfl
  have hdump : e.dump .standard = .ok j := by
    rw [htext, he] at hd
    cases hd
    exact hjd
  exact ⟨d, e, j, hd, he, hsd, hse, hjd, hdump, hequal d e j hsd hse hjd hdump⟩

end Document
end ChordSheet
