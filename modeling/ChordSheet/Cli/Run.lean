import ChordSheet.Cli.Command
import ChordSheet.Cli.Disk
import ChordSheet.Dump

/-! Running a command on a disk.

* `Command.work`: what a command makes of its text.
* `Raw`: a text as it comes in and goes out; `Raw.encode?`, `decode?`.
* `Invocation.plan`: what is to be printed or saved, given the input.
* `Invocation.run`: reading the input from a disk, working, and delivering the result.
* `run?`: the same for a whole command line. -/
namespace ChordSheet.Cli
set_option autoImplicit false

/-! ## Work -/

/-- A result, the exit status that goes with it, and what was noticed on the way. -/
structure Work where
  result : Text
  exit : Nat := 0
  diagnostics : List Diagnostic

def dumpText (ear : Ear) (layout : Json.Layout) (d : Document) : Except Fault Text := do
  let m ← d.metadata
  let tree ← d.dump ear
  .ok ((Json.object [("metadata".toList, m.dump), ("document".toList, tree)]).write layout 0
    ++ ['\n'])

def checkLine (input : Text) (d : Diagnostic) : Text :=
  input ++ ':' :: ' ' :: d.message ++ ['\n']

def Command.work (ear : Ear) (c : Command) (s : Text) : Except Fault Work := do
  let t ← tokenize s
  match c with
  | .convert _ _ format naming n =>
    let f : Formatting := ⟨format.name, naming⟩
    let result ← if n = 0 then ChordSheet.convert s none f else transposeAndConvert s n none f
    .ok { result, diagnostics := t.diagnostics }
  | .check input =>
    .ok { result := t.diagnostics.flatMap (checkLine input),
          exit := if t.diagnostics.isEmpty then 0 else 1, diagnostics := t.diagnostics }
  | .tree _ _ layout =>
    let d ← Document.parse none t.tokens
    let result ← dumpText ear layout d
    .ok { result, diagnostics := t.diagnostics }

/-! ## Reports -/

def logLine (d : Diagnostic) : Text :=
  "DEBUG chorddown.parser.state_machine: Tokenizer diagnostic: ".toList ++ d.message ++ ['\n']

def writtenLine (p : Path) : Text :=
  "INFO chorddown.cli: Wrote output to ".toList ++ p.text ++ ['\n']

def fileLine (e : FileFault) (p : Path) : Text :=
  "Error reading or writing file: ".toList ++ e.message p ++ ['\n']

def faultLine (e : Fault) : Text := "Error converting file: ".toList ++ e.message ++ ['\n']

def Invocation.log (i : Invocation) (lines : List Text) : Text :=
  if i.verbose then lines.flatten else []

/-! ## Texts from outside -/

/-- A text as it comes in. Bytes that are no characters can come in as characters of their own, the
`strays`; a stray stands for nothing else, and passes for any other character until it is to be
encoded. -/
structure Raw where
  text : Text
  strays : List Char := []
  foreign : ∀ c ∈ strays, 0xF0000 ≤ c.toNat := by simp

/-- The line breaks of a file are made one kind; a byte-order mark is a character like any other. -/
def decode? (bytes : ByteArray) : Option Text :=
  (String.fromUTF8? bytes).map fun s => normalizeBreaks s.toList

def encode (s : Text) : ByteArray := (String.ofList s).toUTF8

/-- No encoding has the strays. -/
def Raw.encode? (r : Raw) : Option ByteArray :=
  if r.text.any r.strays.contains then none else some (encode r.text)

/-! ## Plans -/

/-- What is not reported, but breaks a run off. -/
inductive Escape
  | undecodable
  | unencodable
  | nul
  deriving DecidableEq, Repr

/-- What can come of reading or saving, if not all goes well: a fault of a file is reported. -/
inductive Stop
  | fault (e : FileFault)
  | escape (e : Escape)
  deriving DecidableEq, Repr

/-- What is left to do once the input has been read. -/
inductive Plan
  | print (exit : Nat) (out err : Text)
  | save (exit : Nat) (err : Text) (p : Path) (content : Raw)
  | breakOff (e : Escape)

abbrev Input := Except Stop Raw

/-- The input that the bytes of a file are, if they could be read. -/
def Input.ofFile : Except FileFault ByteArray → Input
  | .error e => .error (.fault e)
  | .ok bytes => match decode? bytes with
    | none => .error (.escape .undecodable)
    | some s => .ok { text := s }

namespace Invocation

/-- A stray that has come in is one still in the result. -/
def planWork (i : Invocation) (r : Raw) (w : Work) : Plan :=
  let log := i.log (w.diagnostics.map logLine)
  match i.command.output with
  | none => .print w.exit w.result log
  | some output => .save w.exit log (.ofText output) { r with text := w.result }

def plan (ear : Ear) (i : Invocation) : Input → Plan
  | .error (.fault e) => .print 2 [] (fileLine e (.ofText i.command.input))
  | .error (.escape e) => .breakOff e
  | .ok r => match i.command.work ear r.text with
    | .ok w => i.planWork r w
    | .error e => .print 2 [] (faultLine e)

/-- What is reported when the result could not be saved, and when it could. -/
def unsaved (err : Text) (p : Path) (e : FileFault) : Text := err ++ fileLine e p

def saved (i : Invocation) (err : Text) (p : Path) : Text := err ++ i.log [writtenLine p]

end Invocation

/-! ## Running on a disk -/

/-- The standard input and output. Of a text that is to be printed nothing goes out if the output
lacks one of its characters; it may have the strays or not. -/
structure Console where
  stdin : Raw
  prints : Char → Bool := fun _ => true

/-- Nothing comes in, and all can go out. -/
def Console.silent : Console := { stdin := { text := [] } }

/-- A single dash is the standard input. -/
def readInput (disk : Disk) (stdin : Raw) (input : Text) : Input :=
  if input = ['-'] then .ok { stdin with text := normalizeBreaks stdin.text }
  else if (Path.ofText input).hasNul then .error (.escape .nul)
  else .ofFile (disk.read (.ofText input))

/-- The output is opened, and thereby emptied, before the text is encoded. -/
def Disk.save (disk : Disk) (p : Path) (r : Raw) : Disk × Option Stop :=
  if p.hasNul then (disk, some (.escape .nul))
  else match disk.openOut p with
    | .error e => (disk, some (.fault e))
    | .ok place => match r.encode? with
      | some bytes => (disk.put bytes place, none)
      | none => (disk.put .empty place, some (.escape .unencodable))

structure Outcome where
  exit : Nat
  out : Text := []
  err : Text := []
  disk : Disk

/-- A run comes to its end, or it breaks off with nothing printed; what is on the disk then. -/
inductive Ending
  | finished (o : Outcome)
  | brokenOff (e : Escape) (disk : Disk)

def Invocation.run (ear : Ear) (i : Invocation) (disk : Disk) (console : Console) : Ending :=
  match i.plan ear (readInput disk console.stdin i.command.input) with
  | .breakOff e => .brokenOff e disk
  | .print exit out err =>
    if out.all console.prints then .finished { exit, out, err, disk }
    else .brokenOff .unencodable disk
  | .save exit err p content => match disk.save p content with
    | (changed, none) => .finished { exit, err := i.saved err p, disk := changed }
    | (changed, some (.fault e)) => .finished { exit := 2, err := unsaved err p e, disk := changed }
    | (changed, some (.escape e)) => .brokenOff e changed

/-- A command line that is wrong does not get as far as the disk. -/
def run? (ear : Ear) (args : List Text) (disk : Disk) (console : Console) : Option Ending :=
  (Invocation.read? args).map fun i => i.run ear disk console

end ChordSheet.Cli
