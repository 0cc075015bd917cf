import Shaping.CommandLine.Outlet
import Shaping.Format.Job

/-!
What the tools need of the system they run on, and what they leave for it to print.
-/

namespace Shaping.CommandLine

/-- Access to files and to the standard input. -/
structure Host (m : Type → Type) where
  readText : (path : String) → m (Except FileError String)
  writeBytes : (path : String) → List UInt8 → m (Except FileError Unit)
  readInput : m (List UInt8)

structure Report where
  exitCode : Nat := 0
  stdout : String := ""
  stderr : String := ""
deriving DecidableEq, Repr

def Report.printed (pieces : List String) : Report := { stdout := .join pieces }

def Report.lines (lines : List String) : Report := .printed (lines.map (· ++ "\n"))

/-- Why a tool gives up, and the pieces of text that it has written until then. -/
structure Failure where
  message : String
  written : List String := []
deriving DecidableEq, Repr

/-- Prints an error, and of the text that was written what has left the buffer. -/
def Report.fatal (f : Failure) : Report where
  exitCode := 1
  stdout := (Outlet.ofPieces f.written).passed
  stderr := "error: " ++ f.message ++ "\n"

/-- A stage of a tool, which may end it. -/
abbrev Stage (m : Type → Type) := ExceptT Failure m

/-- Ends the tool with the message of a job's error. -/
def Stage.ofJob {m : Type → Type} [Monad m] {α : Type} (result : Except JobError α) : Stage m α :=
  ExceptT.mk (pure (result.mapError fun e => { message := e.message }))

def loadJob {m : Type → Type} [Monad m] (host : Host m) (path : String) : Stage m Job := do
  let text ← Stage.ofJob ((← host.readText path).mapError (.read path))
  Stage.ofJob (Job.ofText text)

end Shaping.CommandLine
