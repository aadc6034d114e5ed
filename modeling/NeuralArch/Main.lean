import NeuralArch.Command.Run
import NeuralArch.Json.Float

/-!
# The program

Runs the command that the command line asks for on the files of the machine.
-/

namespace NeuralArch

/-- The reason of a failed file operation, in the words of the system. -/
def systemReason : IO.Error → String
  | .noFileOrDirectory _ code details => details ++ " (os error " ++ toString code ++ ")"
  | .permissionDenied _ code details => details ++ " (os error " ++ toString code ++ ")"
  | .inappropriateType _ code details => details ++ " (os error " ++ toString code ++ ")"
  | e => toString e

/-- The text of a file. -/
def readFile (file : String) : IO (Except String String) := do
  try
    let handle ← IO.FS.Handle.mk file .read
    match String.fromUTF8? (← handle.readBinToEnd) with
    | some text => return .ok text
    | none => return .error "stream did not contain valid UTF-8"
  catch e => return .error (systemReason e)

/-- A result, once what it saves is saved. -/
def save : Command.Result → IO Command.Result
  | .saves file text => do
    try
      IO.FS.writeFile file text
      return .saves file text
    catch e => return .fails (.file (systemReason e))
  | r => return r

/-- A seed that differs from run to run. -/
def freshSeed : IO UInt64 := do
  return (← IO.getRandomBytes 8).foldl (fun n b => n * 256 + b.toUInt64) 0

/-- How the program is called. -/
def usage : List String :=
  ["Usage: neural-arch COMMAND",
   "  generate [--grammar FILE] [--seed N] [--max-depth N] [--count N] [--output FILE]",
   "  validate FILE [--rules FILE]",
   "  interpret FILE [--rules FILE]",
   "  grammar [--output FILE]"]

end NeuralArch

open NeuralArch in
def main (words : List String) : IO UInt32 := do
  match Command.ofWords? words with
  | none =>
    for line in usage do IO.eprintln line
    return Command.Result.usageStatus
  | some c =>
    let r ← save (← c.run readFile Json.FloatReader.arithmetic (← freshSeed))
    IO.print r.printed
    IO.eprint r.complaint
    return r.status
