import Shaping.Job.Error
import Shaping.Simulation.Basic

/-!
Jobs: lookups to compile, and what to do with the machine. A `Job` carries the proof that its
directives are in order, so running it can fail only where its lookups do not compile.
-/

namespace Shaping

structure Job where
  directives : List Directive
  options : SimulatorOptions := {}
  /-- The categories by which lookup flags pass over glyphs. -/
  categories : Option ClassDef := none
  /-- The lookups, highest priority first. -/
  lookups : List Lookup
  input : List GlyphId := []
  valid : Directive.violations directives input.length = []
deriving DecidableEq

structure JobOutcome where
  compiled : Compiled
  /-- The processed input, if the job simulates. -/
  simulation : Option Simulation
  packed : Option Packed

namespace Job

def ofParts (directives : List Directive) (options : SimulatorOptions)
    (categories : Option ClassDef) (lookups : List Lookup) (input : List GlyphId) :
    Except JobError Job :=
  if h : Directive.violations directives input.length = [] then
    .ok ⟨directives, options, categories, lookups, input, h⟩
  else .error (.directives (Directive.violations directives input.length))

def has (job : Job) (d : Directive) : Bool := job.directives.contains d

def compileOptions (job : Job) : CompileOptions where
  optimize := job.has .optimize
  verify := job.has .verify

/-- Checks that a job that is to write its tables packs them. -/
def checkOutput (job : Job) (output : Option String) : Except JobError Unit :=
  if output.isSome && !job.has .pack then .error .outputWithoutPack else .ok ()

/-- Processes a run with a machine made from the job's lookups. -/
def simulate (job : Job) (compiled : Compiled) (run : GlyphRun) : Except Fault Simulation :=
  { machine := compiled.machine, categories := job.categories, options := job.options
    : Simulator }.simulate run

def run (job : Job) : Except JobError JobOutcome := do
  let compiled ← (compile job.lookups job.compileOptions).mapError .compile
  let simulation ←
    if job.has .simulate then
      (job.simulate compiled (.ofIds job.input)).mapError .edit |>.map some
    else pure none
  let packed := if job.has .pack then some (Packed.pack compiled.machine) else none
  return { compiled, simulation, packed }

end Job

end Shaping
