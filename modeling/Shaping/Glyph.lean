/-! Glyphs: the numeric id of a glyph in a font, and a glyph of a run, which carries the adjustments
made to its position so far. Positions are in font units and are kept in words of 32 bits; what
becomes of a sum that does not fit is a matter of the `Arithmetic` that forms it.
-/

namespace Shaping

/-- The id of a glyph in a font. It is a 16-bit word, and arithmetic on it wraps. -/
abbrev GlyphId := UInt16

/-- Accumulated adjustment of a glyph's offset and advance, in font units. -/
structure Position where
  xOffset : Int := 0
  yOffset : Int := 0
  xAdvance : Int := 0
  yAdvance : Int := 0
deriving DecidableEq, Repr, Inhabited

/-- Whether nothing has been adjusted. -/
def Position.isZero (p : Position) : Bool := p = {}

structure ShapedGlyph where
  id : GlyphId
  position : Position := {}
deriving DecidableEq, Repr, Inhabited

def ShapedGlyph.ofId (id : GlyphId) : ShapedGlyph := { id }

@[simp] theorem ShapedGlyph.id_ofId (id : GlyphId) : (ofId id).id = id := rfl

@[simp] theorem ShapedGlyph.position_ofId (id : GlyphId) : (ofId id).position = {} := rfl

end Shaping
