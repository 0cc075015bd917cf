import Shaping.Json.Record
import Shaping.Table.Value

/-!
How glyphs of a run, value records and anchors are written as JSON.
-/

namespace Shaping

open Json (Codec Fields Field)

/-- Positions, whose adjustments are read as signed words of 32 bits. -/
def Position.codec : Codec Position :=
  let word := Codec.int (-2147483648) 2147483647
  (Fields.cons (.required "x_offset" word) <| .cons (.required "y_offset" word) <|
    .cons (.required "x_advance" word) <| .cons (.required "y_advance" word) .nil).codec.map
    (fun p => (p.xOffset, p.yOffset, p.xAdvance, p.yAdvance, ()))
    fun (xOffset, yOffset, xAdvance, yAdvance, ()) => ⟨xOffset, yOffset, xAdvance, yAdvance⟩

def ShapedGlyph.codec : Codec ShapedGlyph :=
  (Fields.cons (.required "id" .uint16) <|
    .cons (.optional "position" Position.codec {}) .nil).codec.map
    (fun g => (g.id, g.position, ()))
    fun (id, position, ()) => ⟨id, position⟩

/-- Value records, any field of which may be absent. -/
def ValueRecord.codec : Codec ValueRecord :=
  (Fields.cons (.optional "x_placement" .int16 0) <| .cons (.optional "y_placement" .int16 0) <|
    .cons (.optional "x_advance" .int16 0) <| .cons (.optional "y_advance" .int16 0) .nil).codec.map
    (fun r => (r.xPlacement, r.yPlacement, r.xAdvance, r.yAdvance, ()))
    fun (xPlacement, yPlacement, xAdvance, yAdvance, ()) =>
      ⟨xPlacement, yPlacement, xAdvance, yAdvance⟩

def Anchor.codec : Codec Anchor :=
  (Fields.cons (.required "x" .int16) <| .cons (.required "y" .int16) .nil).codec.map
    (fun a => (a.x, a.y, ()))
    fun (x, y, ()) => ⟨x, y⟩

end Shaping
