import Shaping.CommandLine.CompileTool
import Shaping.CommandLine.SimulateTool

/-!
The program: the first argument names the tool, the others are the tool's.
-/

namespace Shaping

/-- The reason for a failed access to a file. A code may come with either sign. -/
def FileError.ofSystem : IO.Error → FileError
  | .noFileOrDirectory .. => .notFound
  | .permissionDenied .. => .permissionDenied
  | .inappropriateType _ code _ =>
    if code = 20 ∨ code = -20 then .notDirectory else .isDirectory
  | .invalidArgument file code details =>
    if code = 36 ∨ code = -36 then .nameTooLong
    else .other (toString (IO.Error.invalidArgument file code details))
  | e => .other (toString e)

namespace CommandLine

def systemHost : Host IO where
  readText path := do
    try
      match String.fromUTF8? (← IO.FS.readBinFile path) with
      | some text => return .ok text
      | none => return .error .invalidText
    catch e => return .error (FileError.ofSystem e)
  writeBytes path bytes := do
    try
      IO.FS.writeBinFile path ⟨bytes.toArray⟩
      return .ok ()
    catch e => return .error (FileError.ofSystem e)
  readInput := do return (← (← IO.getStdin).readBinToEnd).toList

/-- Prints what a tool leaves, and gives its exit code. -/
def Report.print (report : Report) : IO UInt32 := do
  IO.print report.stdout
  IO.eprint report.stderr
  return .ofNat report.exitCode

end CommandLine

end Shaping

open Shaping.CommandLine in
def main (args : List String) : IO UInt32 := do
  match args with
  | "compile" :: args => (← compileTool systemHost args).print
  | "simulate" :: args => (← simulateTool systemHost args).print
  | _ =>
    IO.eprintln "usage: shaping compile|simulate ARGUMENTS"
    return 1
