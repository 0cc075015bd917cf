import Shaping.CommandLine.Arguments
import Shaping.CommandLine.Host
import Shaping.Text.Run

/-!
The tool that processes the runs on its standard input, one on each line, with a job's lookups.
-/

namespace Shaping.CommandLine

def simulateUsage : List String :=
  ["glyphfsm-simulate: Apply a job's lookups to glyph runs from stdin.",
    "",
    "Usage: glyphfsm-simulate [OPTIONS] JOB.json",
    "",
    "Reads whitespace-separated glyph ids, one run per line.",
    "",
    "Options:",
    "  -r, --report   Also print the number of applied rules per line",
    "  -h, --help     Print this help"]

/-- The lines of an input, without their ends, which are a newline or a carriage return and a
newline. The bytes of the line that is being read are given newest first. -/
def linesFrom : (line : List UInt8) → List UInt8 → List (List UInt8)
  | [], [] => []
  | line, [] => [line.reverse]
  | line, b :: rest =>
    if b = 10 then
      (match line with
        | 13 :: line => line.reverse
        | line => line.reverse) :: linesFrom [] rest
    else linesFrom (b :: line) rest

def runLine (job : Job) (compiled : Compiled) (withReport : Bool) (ids : List GlyphId) :
    Except String String := do
  let simulation ← (job.simulate compiled (.ofIds ids)).mapError fun e => (JobError.edit e).message
  let text := simulation.run.format
  return if withReport then text ++ "\t[" ++ simulation.applied.repr ++ " applied]" else text

/-- Processes the lines of an input. A line without ids is passed over, one that holds anything else
is reported, and one that is not UTF-8 ends the input. -/
def runLines (job : Job) (compiled : Compiled) (withReport : Bool) :
    List (List UInt8) → Report → Report
  | [], report => report
  | bytes :: rest, report =>
    match String.fromUTF8? ⟨bytes.toArray⟩ with
    | none =>
      let message := "error reading stdin: " ++ FileError.invalidText.message
      { report with stderr := report.stderr ++ message ++ "\n" }
    | some line =>
      match GlyphId.ofLine line with
      | .ok [] => runLines job compiled withReport rest report
      | .ok ids =>
        match runLine job compiled withReport ids with
        | .ok text =>
          runLines job compiled withReport rest
            { report with stdout := report.stdout ++ text ++ "\n" }
        | .error e =>
          runLines job compiled withReport rest
            { report with stderr := report.stderr ++ "error: " ++ e ++ "\n" }
      | .error e =>
        runLines job compiled withReport rest
          { report with stderr := report.stderr ++ "error: " ++ e.message ++ "\n" }

/-- The machine of a job. Of the directives only `optimize` counts. -/
def simulateCompiled (job : Job) : Except JobError Compiled :=
  (compile job.lookups { optimize := job.has .optimize }).mapError .compile

def simulateTool {m : Type → Type} [Monad m] (host : Host m) (args : List String) : m Report := do
  if args.isEmpty || wantsHelp args then return .lines simulateUsage
  let withReport := args.any fun arg => arg = "-r" || arg = "--report"
  match args.find? (!·.startsWith "-") with
  | none => return .fatal { message := "no job file given" }
  | some path =>
    let result : Except Failure Report ← ExceptT.run do
      let job ← loadJob host path
      let compiled ← Stage.ofJob (simulateCompiled job)
      let input ← host.readInput
      return runLines job compiled withReport (linesFrom [] input) {}
    match result with
    | .ok report => return report
    | .error failure => return .fatal failure

end Shaping.CommandLine
