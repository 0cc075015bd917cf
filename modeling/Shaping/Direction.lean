/-!
The two orders in which a run of glyphs is processed.
-/

namespace Shaping

/-- The order in which the cursor visits the glyphs of a run: head to tail, or tail to head. -/
inductive Direction where
  | forward
  | backward
deriving DecidableEq, Repr, Hashable, Inhabited

def Direction.name : Direction → String
  | .forward => "forward"
  | .backward => "backward"

end Shaping
