import Lox.Cbor
import Lox.Command
import Lox.Config.Document

/-!
The command line program: it reads files and standard input, writes the two output
channels and leaves all decisions to the commands.
-/

namespace Lox.Main

def textOf (s : Bytes) : String := String.ofList (Utf8.decodeLossy s)

def write (stream : IO.FS.Stream) (s : Bytes) : IO Unit := do
  stream.write (ByteArray.mk s.toArray)
  stream.flush

def emit (output : Command.Output) : IO Unit := do
  write (← IO.getStdout) output.out
  write (← IO.getStderr) output.err

/--
A path through a file cannot be opened, a directory can be opened but not read.  A
name that is too long is refused when it is opened, a malformed one before that.
-/
def faultOf : IO.Error → FileFault
  | .inappropriateType (some _) .. => .notDirectory
  | .inappropriateType none .. => .isDirectory
  | .permissionDenied .. => .denied
  | .invalidArgument (some _) .. => .tooLong
  | .invalidArgument none .. => .badName
  | _ => .missing

def readFile (path : Bytes) : IO (Except FileFault Bytes) := do
  try return .ok (← IO.FS.readBinFile (textOf path)).toList
  catch e => return .error (faultOf e)

def statFile (path : Bytes) : IO (Except FileFault Unit) := do
  try
    let _ ← ((← IO.currentDir) / textOf path).metadata
    return .ok ()
  catch e => return .error (faultOf e)

def libraries : Command.Libraries where
  overlay := Config.ofDocument
  codec := Cbor.codec

def host : IO (Host IO) := do
  let directory := (← IO.currentDir).toString
  let home := (← IO.getEnv "HOME").getD ""
  return {
    stat := statFile
    read := readFile
    directory := Path.resolve [] (utf8 directory)
    home := utf8 home
    clock := [(← IO.monoNanosNow : Nat)] }

def feed (repl : Command.Repl) : List Command.Input → IO (Option Command.Repl)
  | [] => return some repl
  | input :: rest => do
      let (output, next) := repl.step input
      emit output
      match next with
      | some repl => feed repl rest
      | none => return none

/-- Prompts only on a terminal, and reads one line after the other. -/
partial def converse (repl : Command.Repl) : IO Unit := do
  let input ← IO.getStdin
  if ← input.isTty then write (← IO.getStdout) repl.promptText
  let line ← input.getLine
  if line.isEmpty then emit Command.Repl.farewell
  else if let some repl ← feed repl (Command.inputs (utf8 line)) then converse repl

end Lox.Main

open Lox Main in
def main (arguments : List String) : IO UInt32 := do
  match ← Command.launch libraries (← host) (arguments.map utf8) with
  | .finished completion =>
      emit completion.output
      return completion.exit.toUInt32
  | .prompting repl =>
      write (← IO.getStdout) repl.banner
      converse repl
      return 0
