import Shaping.CommandLine.Arguments
import Shaping.CommandLine.Host
import Shaping.Machine.PackedBytes
import Shaping.Text.Run

/-!
The tool that runs a job and prints a summary. If the job packs and there is an output prefix, it
also writes the packed tables.
-/

namespace Shaping.CommandLine

def compileUsage : List String :=
  ["glyphfsm-compile: Run a compile job file.",
    "",
    "Usage: glyphfsm-compile [OPTIONS] JOB.json",
    "",
    "Options:",
    "  -o, --output PREFIX   Write PREFIX.states.bin and PREFIX.transitions.bin",
    "                        (requires the `pack` directive)",
    "  -h, --help            Print this help"]

/-- What is said of a packed machine. -/
def packedSummary (packed : Packed) : List String :=
  ["packed:      ", packed.stateBytes.length.repr, " + ", packed.transitionBytes.length.repr,
    " bytes, ", packed.matchers.size.repr, " matchers, ", packed.actions.size.repr, " actions\n"]

/-- The summary of a job, in the pieces in which it is written. -/
def jobSummary (job : Job) (outcome : JobOutcome) : List String :=
  let machine := outcome.compiled.machine
  ["lookups:     ", job.lookups.length.repr, "\n",
    "paths:       ", outcome.compiled.pathCount.repr, "\n",
    "direction:   ", machine.direction.name, "\n",
    "states:      ", machine.stateCount.repr, "\n",
    "transitions: ", machine.transitionCount.repr, "\n"] ++
  outcome.compiled.report.toList.flatMap (fun report =>
    ["optimized:   ", report.before.repr, " -> ", report.after.repr, " states in ",
      report.rounds.repr, " rounds\n"]) ++
  (if job.has .verify then ["verified:    ok\n"] else []) ++
  outcome.simulation.toList.flatMap (fun simulation =>
    ["applied:     ", simulation.applied.repr, "\n",
      "output:      ", simulation.run.format, "\n"]) ++
  outcome.packed.toList.flatMap packedSummary

/-- Writes the tables of a packed machine, and says so behind what has been written. -/
def writeTables {m : Type → Type} [Monad m] (host : Host m) (target : String) (packed : Packed)
    (written : List String) : Stage m (List String) :=
  [("states.bin", packed.stateBytes), ("transitions.bin", packed.transitionBytes)].foldlM
    (fun written (suffix, bytes) => do
      let path := target ++ "." ++ suffix
      match ← host.writeBytes path bytes with
      | .ok () => return written ++ ["wrote:       ", path, "\n"]
      | .error e =>
        throw { message := "failed to write " ++ path ++ ": " ++ e.message, written })
    written

/-- Runs the job file that the first argument names. -/
def compileJob {m : Type → Type} [Monad m] (host : Host m) (output : Option String)
    (path : String) : Stage m (List String) := do
  let job ← loadJob host path
  Stage.ofJob (job.checkOutput output)
  let outcome ← Stage.ofJob job.run
  let summary := jobSummary job outcome
  match outcome.packed, output with
  | some packed, some target => writeTables host target packed summary
  | _, _ => return summary

def compileTool {m : Type → Type} [Monad m] (host : Host m) (args : List String) : m Report := do
  match takeOption "--output" "-o" args with
  | .error arg => return .fatal { message := arg ++ " requires a value" }
  | .ok (_, []) => return .lines compileUsage
  | .ok (output, path :: others) =>
    if wantsHelp (path :: others) then return .lines compileUsage
    match ← compileJob host output path with
    | .ok pieces => return .printed pieces
    | .error failure => return .fatal failure

end Shaping.CommandLine
