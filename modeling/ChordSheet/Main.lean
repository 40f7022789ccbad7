import ChordSheet.Chord.Standard
import ChordSheet.Cli.Run

/-! The command line in the real file system, with the standard ear for chords. -/
namespace ChordSheet.Cli
set_option autoImplicit false

/-- Systems give the number of a fault with either sign. -/
def unsigned (n : UInt32) : Nat := min n.toNat (0 - n).toNat

/-- The faults that commands report; any other stays an error of the system. -/
def fileFault? : IO.Error → Option FileFault
  | .noFileOrDirectory .. => some .absent
  | .inappropriateType _ n _ =>
    some (if unsigned n = FileFault.isDirectory.number then .isDirectory else .notDirectory)
  | .permissionDenied _ n reason => some (.refused ⟨unsigned n, reason.toList⟩)
  | .invalidArgument _ n _ =>
    [FileFault.nameTooLong, .tooManyLinks].find? (·.number == unsigned n)
  | _ => none

def attempt {α : Type} (act : IO α) : IO (Except FileFault α) := do
  match ← act.toBaseIO with
  | .ok a => return .ok a
  | .error e => match fileFault? e with
    | some fault => return .error fault
    | none => throw e

partial def readAll (s : IO.FS.Stream) (bytes : ByteArray) : IO ByteArray := do
  let more ← s.read 65536
  if more.isEmpty then return bytes else readAll s (bytes ++ more)

def readBytes (input : Text) : IO Input := do
  if input = ['-'] then return .ofFile (.ok (← readAll (← IO.getStdin) ByteArray.empty))
  let p := Path.ofText input
  if p.hasNul then return .error (.escape .nul)
  return .ofFile (← attempt (IO.FS.readBinFile (String.ofList p.text)))

def writeBytes (p : Path) (content : Raw) : IO (Option Stop) := do
  if p.hasNul then return some (.escape .nul)
  match ← attempt (IO.FS.writeBinFile (String.ofList p.text) (content.encode?.getD .empty)) with
  | .error e => return some (.fault e)
  | .ok () => return if content.encode?.isSome then none else some (.escape .unencodable)

def say (out err : Text) : IO Unit := do
  (← IO.getStdout).putStr (String.ofList out)
  (← IO.getStderr).putStr (String.ofList err)

def Escape.message : Escape → Text
  | undecodable => "The input is no text in UTF-8\n".toList
  | unencodable => "The result has no encoding in UTF-8\n".toList
  | nul => "A path has a NUL in it\n".toList

def breakOff (e : Escape) : IO UInt32 := do
  say [] e.message
  return 1

def Invocation.perform (i : Invocation) : IO UInt32 := do
  match i.plan .standard (← readBytes i.command.input) with
  | .breakOff e => breakOff e
  | .print exit out err =>
    say out err
    return exit.toUInt32
  | .save exit err p content => match ← writeBytes p content with
    | none =>
      say [] (i.saved err p)
      return exit.toUInt32
    | some (.fault e) =>
      say [] (unsaved err p e)
      return 2
    | some (.escape e) => breakOff e

end ChordSheet.Cli

def main (args : List String) : IO UInt32 := do
  match ChordSheet.Cli.Invocation.read? (args.map String.toList) with
  | some i => i.perform
  | none =>
    IO.eprintln "usage: chorddown [-v] \x7bconvert,check,tree\x7d ..."
    return 2
