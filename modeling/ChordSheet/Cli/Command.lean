import ChordSheet.Cli.Argument
import ChordSheet.Json
import ChordSheet.Render

/-! Commands, and the command lines that ask for them.

* `Command`: convert a sheet, check it, or dump its tree.
* `Invocation.read?`: the command of a command line, if it is a right one. -/
namespace ChordSheet.Cli
set_option autoImplicit false

inductive Command
  | convert (input : Text) (output : Option Text) (format : Format) (naming : Naming)
      (semitones : Int)
  | check (input : Text)
  | tree (input : Text) (output : Option Text) (layout : Json.Layout)

structure Invocation where
  verbose : Bool := false
  command : Command

/-! ## Switches -/

def verboseSwitch : Switch := ⟨some 'v', "verbose".toList, false⟩
def formatSwitch : Switch := ⟨some 'f', "format".toList, true⟩
def namingSwitch : Switch := ⟨some 'b', "b-notation".toList, true⟩
def transposeSwitch : Switch := ⟨some 't', "transpose".toList, true⟩
def outputSwitch : Switch := ⟨some 'o', "output".toList, true⟩
def prettySwitch : Switch := ⟨none, "pretty".toList, false⟩

namespace Command

def input : Command → Text
  | convert i .. => i
  | check i => i
  | tree i .. => i

def output : Command → Option Text
  | convert _ o .. => o
  | check _ => none
  | tree _ o _ => o

/-! ## Reading -/

def readConvert? (args : List Text) : Option Command := do
  let a ← Arguments.read? [formatSwitch, namingSwitch, transposeSwitch, outputSwitch] args
  let input ← a.operand?
  let output ← a.value? outputSwitch none (fun s => some (some s))
  let format ← a.value? formatSwitch .html (fun s => (Format.ofName s).toOption)
  let naming ← a.value? namingSwitch .b Naming.ofName?
  let semitones ← a.value? transposeSwitch 0 readInteger?
  some (convert input output format naming semitones)

def readCheck? (args : List Text) : Option Command := do
  let a ← Arguments.read? [] args
  let input ← a.operand?
  some (check input)

def readTree? (args : List Text) : Option Command := do
  let a ← Arguments.read? [outputSwitch, prettySwitch] args
  let input ← a.operand?
  let output ← a.value? outputSwitch none (fun s => some (some s))
  some (tree input output (if a.has prettySwitch then .indented else .oneLine))

def read? (name : Text) (args : List Text) : Option Command :=
  if name = "convert".toList then readConvert? args
  else if name = "check".toList then readCheck? args
  else if name = "tree".toList then readTree? args
  else none

end Command

/-- The switches before the name of the command are its own; all words after it belong to it. -/
def Invocation.read? : List Text → Option Invocation
  | [] => none
  | arg :: args => match Argument.read [verboseSwitch] arg with
    | .operand => (Command.read? arg args).map fun c => { command := c }
    | .switch s joined =>
      if Arguments.flagFits s joined then
        (read? args).map fun i => { i with verbose := true }
      else none
    | .unknown => none

end ChordSheet.Cli
