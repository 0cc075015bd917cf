import Shaping.Arithmetic
import Shaping.Glyph

/-!
Value records, which adjust a glyph's position, and anchors, the points where glyphs attach.
-/

namespace Shaping

/-- Placement and advance deltas for one glyph, in font units. -/
structure ValueRecord where
  xPlacement : Int16 := 0
  yPlacement : Int16 := 0
  xAdvance : Int16 := 0
  yAdvance : Int16 := 0
deriving DecidableEq, Repr, Hashable, Inhabited

namespace ValueRecord

def advance (x : Int16) : ValueRecord := { xAdvance := x }

def isZero (r : ValueRecord) : Bool := r = {}

/-- Adds the deltas of a record to a position, one after the other. -/
def applyTo (a : Arithmetic) (r : ValueRecord) (p : Position) : Except Fault Position := do
  let xOffset ← a.keep (p.xOffset + r.xPlacement.toInt)
  let yOffset ← a.keep (p.yOffset + r.yPlacement.toInt)
  let xAdvance ← a.keep (p.xAdvance + r.xAdvance.toInt)
  let yAdvance ← a.keep (p.yAdvance + r.yAdvance.toInt)
  return { xOffset, yOffset, xAdvance, yAdvance }

end ValueRecord

structure Anchor where
  x : Int16
  y : Int16
deriving DecidableEq, Repr, Hashable, Inhabited

end Shaping
