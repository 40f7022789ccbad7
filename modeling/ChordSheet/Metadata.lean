import ChordSheet.Fault
import ChordSheet.Naming
import ChordSheet.Metadata.Entry

/-! What is known about a song: its title, the twelve fields and the naming of its chords.

* `Metadata.withEntry`: one entry put in its place.
* `Metadata.ofEntries`: many entries, of which the first for a keyword counts.
* `Metadata.present`: the fields that have something in them, in their order. -/
namespace ChordSheet
set_option autoImplicit false

structure Metadata where
  title : Option Text := none
  value : Field → Option Text := fun _ => none
  naming : Naming := .b

namespace Metadata

def setField (m : Metadata) (f : Field) (content : Text) : Metadata :=
  { m with value := fun g => if g = f then some content else m.value g }

/-- Only an `H`, in either case, asks for the naming `H`. -/
def namingOf (content : Text) : Naming :=
  if content = ['H'] ∨ content = ['h'] then .h else .b

def withEntry (m : Metadata) (e : Entry) : Except Fault Metadata :=
  match Keyword.ofName? e.keyword with
  | some .naming => .ok { m with naming := namingOf e.content }
  | some (.field f) => .ok (m.setField f e.content)
  | none => .error (.unknownKeyword e.keyword)

/-- `addEntries seen m es` leaves out the entries whose keywords have been seen. -/
def addEntries (seen : List Text) (m : Metadata) : List Entry → Except Fault Metadata
  | [] => .ok m
  | e :: es =>
    if seen.contains e.keyword then addEntries seen m es
    else match m.withEntry e with
      | .ok next => addEntries (e.keyword :: seen) next es
      | .error fault => .error fault

def ofEntries (title : Option Text) (es : List Entry) : Except Fault Metadata :=
  addEntries [] { title } es

/-- An empty value is as good as none. -/
def present (m : Metadata) : List Entry :=
  Field.all.filterMap fun f => match m.value f with
    | some (c :: s) => some ⟨f.name, c :: s⟩
    | _ => none

end Metadata
end ChordSheet
