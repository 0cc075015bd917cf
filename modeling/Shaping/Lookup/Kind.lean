import Shaping.Direction

/-!
The ten kinds of lookup, with the names that messages use and the direction each is processed in.
-/

namespace Shaping

/-- What a lookup does: five kinds of substitution and five of positioning. -/
inductive LookupKind where
  | singleDelta
  | singleReplace
  | multiple
  | ligature
  | reverseChain
  | singlePosition
  | pairPosition
  | classPairPosition
  | cursive
  | markToBase
deriving DecidableEq, Repr

namespace LookupKind

def name : LookupKind → String
  | .singleDelta => "single delta substitution"
  | .singleReplace => "single substitution"
  | .multiple => "multiple substitution"
  | .ligature => "ligature substitution"
  | .reverseChain => "reverse chaining substitution"
  | .singlePosition => "single positioning"
  | .pairPosition => "pair positioning"
  | .classPairPosition => "class pair positioning"
  | .cursive => "cursive attachment"
  | .markToBase => "mark-to-base attachment"

/-- Reverse chaining runs from the tail of a run to its head, every other kind from head to tail. -/
def direction : LookupKind → Direction
  | .reverseChain => .backward
  | _ => .forward

end LookupKind

end Shaping
