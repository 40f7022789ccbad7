import ChordSheet.Text.Quoted

/-! Files, directories and links on a disk, and the paths that lead to them.

* `Path`: a path in parts, without the empty ones and without dots.
* `Disk`: what stands where, and the directory that a program works in.
* `Disk.find`: where a path leads.
* `Disk.read`, `Disk.openOut`: the bytes behind a path, and the place where bytes can be put, or why
  there are none.
* `Disk.put`: a disk with new bytes in a place. -/
namespace ChordSheet.Cli
set_option autoImplicit false

/-! ## Paths -/

def splitParts : Text → List Text
  | [] => [[]]
  | c :: s =>
    if c = '/' then [] :: splitParts s
    else match splitParts s with
      | [] => [[c]]
      | p :: ps => (c :: p) :: ps

structure Path where
  slashes : Nat
  parts : List Text
  deriving DecidableEq, Repr

namespace Path

/-- Two slashes at the start are kept, and more than two are one. -/
def rootSlashes (s : Text) : Nat :=
  let n := (s.takeWhile (· == '/')).length
  if n ≤ 2 then n else 1

def ofText (s : Text) : Path :=
  ⟨rootSlashes s, (splitParts s).filter (fun p => p != [] && p != ['.'])⟩

def text (p : Path) : Text :=
  if p.slashes = 0 ∧ p.parts = [] then ['.']
  else List.replicate p.slashes '/' ++ ['/'].intercalate p.parts

/-- No system takes a path with such a character. -/
def hasNul (p : Path) : Bool := p.parts.any (·.contains '\x00')

/-- The directory that a path starts from, seen from another one. -/
def start (p : Path) (here : List Text) : List Text := if p.slashes = 0 then here else []

end Path

/-! ## Faults of files -/

/-- Why a system does not do what it is asked for: a missing permission, a disk that can only be
read, or whatever it may be. -/
structure Refusal where
  number : Nat
  reason : Text
  deriving DecidableEq, Repr

def Refusal.denied : Refusal := ⟨13, "Permission denied".toList⟩

inductive FileFault
  | absent
  | notDirectory
  | isDirectory
  | nameTooLong
  | tooManyLinks
  | refused (r : Refusal)
  deriving DecidableEq, Repr

namespace FileFault

def number : FileFault → Nat
  | absent => 2
  | notDirectory => 20
  | isDirectory => 21
  | nameTooLong => 36
  | tooManyLinks => 40
  | refused r => r.number

def reason : FileFault → Text
  | absent => "No such file or directory".toList
  | notDirectory => "Not a directory".toList
  | isDirectory => "Is a directory".toList
  | nameTooLong => "File name too long".toList
  | tooManyLinks => "Too many levels of symbolic links".toList
  | refused r => r.reason

def message (e : FileFault) (p : Path) : Text :=
  "[Errno ".toList ++ Nat.toDigits 10 e.number ++ "] ".toList ++ e.reason ++ ": ".toList ++
    quoted p.text

end FileFault

/-! ## Disks -/

/-- What can stand on a disk; each may be closed to some uses. -/
inductive Thing
  | file (content : ByteArray) (noReading noWriting : Option Refusal)
  | directory (noEntering noAdding : Option Refusal)
  | link (target : Path)

/-- What stands where, by the parts of the way from the root, and the directory that relative paths
start from. Only what is reached through directories counts, and a file stands in one place. -/
structure Disk where
  thing? : List Text → Option Thing
  here : List Text := []

/-- Where a path leads: to a file, or to a name in a directory that nothing has. -/
inductive Place
  | file (parts : List Text)
  | free (directory : List Text) (name : Text)
  deriving DecidableEq, Repr

def Place.parts : Place → List Text
  | file parts => parts
  | free directory name => directory ++ [name]

def utf8Size : Text → Nat
  | [] => 0
  | c :: s => c.utf8Size + utf8Size s

/-- The most bytes of a name in a path. -/
def maxName : Nat := 255

/-- The most bytes of a whole path. -/
def maxPath : Nat := 4095

/-- The most links on a way. -/
def maxLinks : Nat := 40

namespace Disk

/-- Why no name can be looked up there. -/
def noEntering (disk : Disk) (parts : List Text) : Option FileFault :=
  match disk.thing? parts with
  | some (.directory r _) => r.map .refused
  | some _ => some .notDirectory
  | none => some .absent

/-- Follows the parts of a path from a directory; `follow` goes on behind a link. -/
def walkParts (disk : Disk) (follow : List Text → List Text → Except FileFault Place)
    (here : List Text) : List Text → Except FileFault Place
  | [] => .error .isDirectory
  | p :: ps => match disk.noEntering here with
    | some e => .error e
    | none =>
      if p = ['.', '.'] then walkParts disk follow here.dropLast ps
      else if maxName < utf8Size p then .error .nameTooLong
      else match disk.thing? (here ++ [p]) with
        | some (.directory ..) => walkParts disk follow (here ++ [p]) ps
        | some (.link target) => follow (target.start here) (target.parts ++ ps)
        | some (.file ..) => if ps = [] then .ok (.file (here ++ [p])) else .error .notDirectory
        | none => if ps = [] then .ok (.free here p) else .error .absent

/-- The number is that of the links which may still be followed. -/
def walk (disk : Disk) : Nat → List Text → List Text → Except FileFault Place
  | 0 => walkParts disk fun _ _ => .error .tooManyLinks
  | links + 1 => walkParts disk (walk disk links)

def find (disk : Disk) (p : Path) : Except FileFault Place :=
  if maxPath < utf8Size p.text then .error .nameTooLong
  else disk.walk maxLinks (p.start disk.here) p.parts

def readPlace (disk : Disk) (place : Place) : Except FileFault ByteArray :=
  match disk.thing? place.parts with
  | some (.file content none _) => .ok content
  | some (.file _ (some r) _) => .error (.refused r)
  | _ => .error .absent

def read (disk : Disk) (p : Path) : Except FileFault ByteArray := (disk.find p).bind disk.readPlace

def noWriting (disk : Disk) : Place → Option Refusal
  | .file parts => match disk.thing? parts with
    | some (.file _ _ r) => r
    | _ => none
  | .free directory _ => match disk.thing? directory with
    | some (.directory _ r) => r
    | _ => none

/-- The place where a path leads, if it may be written. -/
def openOut (disk : Disk) (p : Path) : Except FileFault Place :=
  (disk.find p).bind fun place => match disk.noWriting place with
    | some r => .error (.refused r)
    | none => .ok place

/-- A file keeps its permissions, and a new one has none against it. -/
def Thing.withContent (content : ByteArray) : Option Thing → Thing
  | some (.file _ r w) => .file content r w
  | _ => .file content none none

/-- The content of the place becomes the new one, whatever was there. -/
def put (disk : Disk) (content : ByteArray) (place : Place) : Disk :=
  { disk with thing? := fun parts =>
      if parts = place.parts then some (Thing.withContent content (disk.thing? parts))
      else disk.thing? parts }

end Disk
end ChordSheet.Cli
