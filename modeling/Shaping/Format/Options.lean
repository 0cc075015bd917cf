import Shaping.Compilation
import Shaping.Job.Directive
import Shaping.Json.Variants
import Shaping.Simulation.Basic

/-!
How directions, directives and options are written as JSON.
-/

namespace Shaping

open Json (Codec Fields Field Variant)

def Direction.codec : Codec Direction where
  encode
    | .forward => .str "Forward"
    | .backward => .str "Backward"
  decode := Variant.decode [⟨"Forward", .nothing .forward⟩, ⟨"Backward", .nothing .backward⟩]

def Directive.codec : Codec Directive where
  encode d := .str d.name
  decode := Variant.decode <|
    [compile, optimize, verify, simulate, pack].map fun d => ⟨d.name, .nothing d⟩

def CompileOptions.codec : Codec CompileOptions :=
  (Fields.cons (.optional "optimize" .bool true) <|
    .cons (.optional "verify" .bool false) .nil).codec.map
    (fun o => (o.optimize, o.verify, ()))
    fun (optimize, verify, ()) => ⟨optimize, verify⟩

def SimulatorOptions.codec : Codec SimulatorOptions :=
  (Fields.cons (.optional "max_match_depth" .uint64 256) .nil).codec.map
    (fun o => (o.maxMatchDepth, ()))
    fun (maxMatchDepth, ()) => ⟨maxMatchDepth⟩

end Shaping
