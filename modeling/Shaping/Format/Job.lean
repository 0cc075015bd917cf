import Shaping.Format.Lookup
import Shaping.Format.Options
import Shaping.Job.Basic

/-!
Job files. A job is written as one JSON object, and has no fields beyond its own.
-/

namespace Shaping.Job

open Json (Codec Fields)

/-- The fields of a job file, as a tuple. -/
abbrev Parts :=
  List Directive × SimulatorOptions × Option ClassDef × List Lookup × List GlyphId × Unit

def partsCodec : Codec Parts :=
  (Fields.cons (.required "directives" (.list Directive.codec)) <|
    .cons (.optional "options" SimulatorOptions.codec {}) <|
    .cons (.optional "glyph_categories" (.option ClassDef.codec) none) <|
    .cons (.required "lookups" (.list Lookup.codec)) <|
    .cons (.optional "input" (.list .uint16) []) .nil).codec true

def parts (job : Job) : Parts :=
  (job.directives, job.options, job.categories, job.lookups, job.input, ())

def toJson (job : Job) : Json := partsCodec.encode job.parts

/-- Reads a job file. Its directives are checked once all of the text is known to be good. -/
def ofText (text : String) : Except JobError Job := do
  let document := Json.Document.ofText text
  let (directives, options, categories, lookups, input, ()) ←
    (partsCodec.decode .document document.root).mapError .json
  if document.surplus then throw (.json (.cut .malformed))
  ofParts directives options categories lookups input

end Shaping.Job
