import Shaping.Compilation
import Shaping.Job.Directive
import Shaping.Json.Decoder
import Shaping.Simulation.Edit

/-!
What can go wrong with a job, from its file to its run, and how it is reported.
-/

namespace Shaping

/-- Why a file could not be read or written. -/
inductive FileError where
  | notFound
  | notDirectory
  | isDirectory
  | permissionDenied
  | nameTooLong
  | invalidText
  | other (message : String)
deriving DecidableEq, Repr

def FileError.message : FileError → String
  | .notFound => "No such file or directory (os error 2)"
  | .permissionDenied => "Permission denied (os error 13)"
  | .notDirectory => "Not a directory (os error 20)"
  | .isDirectory => "Is a directory (os error 21)"
  | .nameTooLong => "File name too long (os error 36)"
  | .invalidText => "stream did not contain valid UTF-8"
  | .other message => message

inductive JobError where
  | read (path : String) (source : FileError)
  | json (source : Json.DecodeError)
  | directives (violations : List Violation)
  | compile (source : CompileError)
  | edit (source : Fault)
  | outputWithoutPack
deriving DecidableEq, Repr

def JobError.message : JobError → String
  | .read path source => "failed to read " ++ path ++ ": " ++ source.message
  | .json source => "invalid job file: " ++ source.message
  | .directives violations =>
    "invalid directives: " ++ "; ".intercalate (violations.map (·.message))
  | .compile source => source.message
  | .edit source => source.message
  | .outputWithoutPack => "an output prefix was given but the job has no `pack` directive"

end Shaping
