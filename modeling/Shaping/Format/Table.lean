import Shaping.Json.Variants
import Shaping.Table.ClassDef
import Shaping.Table.Coverage

/-!
How coverage tables and class definitions are written as JSON. Both are checked when they are read.
-/

namespace Shaping

open Json (Codec Fields Field Variant)

def CoverageRange.codec : Codec CoverageRange :=
  (Fields.cons (.required "first_coverage_index" .uint16) <|
    .cons (.required "min_glyph_id" .uint16) <|
    .cons (.required "max_glyph_id" .uint16) .nil).codec.map
    (fun r => (r.firstIndex, r.min, r.max, ()))
    fun (firstIndex, min, max, ()) => ⟨firstIndex, min, max⟩

namespace CoverageFormat

/-- The fields of a coverage written as a list. -/
def listFields : Fields (Option (Array GlyphId) × Unit) (Array GlyphId × Unit) :=
  .cons (.required "glyphs" (.array .uint16)) .nil

/-- The fields of a coverage written as ranges. -/
def rangeFields : Fields (Option (Array CoverageRange) × Unit) (Array CoverageRange × Unit) :=
  .cons (.required "ranges" (.array CoverageRange.codec)) .nil

def codec : Codec CoverageFormat where
  encode
    | .list glyphs => Variant.encode "List" (listFields.codec.encode (glyphs, ()))
    | .ranges rs => Variant.encode "Range" (rangeFields.codec.encode (rs, ()))
  decode := Variant.decode [
    ⟨"List", .fields fun source node => (listFields.decode false source node).map (.list ·.1)⟩,
    ⟨"Range", .fields fun source node => (rangeFields.decode false source node).map (.ranges ·.1)⟩]

end CoverageFormat

def Coverage.codec : Codec Coverage := CoverageFormat.codec.checked (·.format) ofFormat

def ClassRange.codec : Codec ClassRange :=
  (Fields.cons (.required "min_glyph_id" .uint16) <|
    .cons (.required "max_glyph_id" .uint16) <|
    .cons (.required "class" .uint16) .nil).codec.map
    (fun r => (r.min, r.max, r.cls, ()))
    fun (min, max, cls, ()) => ⟨min, max, cls⟩

namespace ClassDefFormat

/-- The fields of a class definition written as a list. -/
def listFields :
    Fields (Option GlyphId × Option (Array UInt16) × Unit) (GlyphId × Array UInt16 × Unit) :=
  .cons (.required "first_glyph_id" .uint16) <| .cons (.required "classes" (.array .uint16)) .nil

/-- The fields of a class definition written as ranges. -/
def rangeFields : Fields (Option (Array ClassRange) × Unit) (Array ClassRange × Unit) :=
  .cons (.required "ranges" (.array ClassRange.codec)) .nil

def codec : Codec ClassDefFormat where
  encode
    | .list first classes => Variant.encode "List" (listFields.codec.encode (first, classes, ()))
    | .ranges rs => Variant.encode "Range" (rangeFields.codec.encode (rs, ()))
  decode := Variant.decode [
    ⟨"List", .fields fun source node =>
      (listFields.decode false source node).map fun (first, classes, ()) => .list first classes⟩,
    ⟨"Range", .fields fun source node => (rangeFields.decode false source node).map (.ranges ·.1)⟩]

end ClassDefFormat

def ClassDef.codec : Codec ClassDef := ClassDefFormat.codec.checked (·.format) ofFormat

end Shaping
