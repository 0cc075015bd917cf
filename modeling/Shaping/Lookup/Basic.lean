import Shaping.Lookup.Positioning
import Shaping.Lookup.Substitution

/-!
Lookups: the payload of one of the ten kinds, with the flags that say which glyphs it passes over.
-/

namespace Shaping

inductive Payload where
  | singleDelta (table : SingleDelta)
  | singleReplace (table : SingleReplace)
  | multiple (table : MultipleSubst)
  | ligature (table : LigatureSubst)
  | reverseChain (table : ReverseChainSubst)
  | singlePosition (table : SinglePosition)
  | pairPosition (table : PairPosition)
  | classPairPosition (table : ClassPairPosition)
  | cursive (table : CursiveAttachment)
  | markToBase (table : MarkToBase)
deriving DecidableEq

namespace Payload

def kind : Payload → LookupKind
  | .singleDelta _ => .singleDelta
  | .singleReplace _ => .singleReplace
  | .multiple _ => .multiple
  | .ligature _ => .ligature
  | .reverseChain _ => .reverseChain
  | .singlePosition _ => .singlePosition
  | .pairPosition _ => .pairPosition
  | .classPairPosition _ => .classPairPosition
  | .cursive _ => .cursive
  | .markToBase _ => .markToBase

/-- The coverage of the glyphs that the payload starts from; for mark-to-base, of the marks. -/
def coverage : Payload → Coverage
  | .singleDelta t => t.coverage
  | .singleReplace t => t.coverage
  | .multiple t => t.coverage
  | .ligature t => t.coverage
  | .reverseChain t => t.coverage
  | .singlePosition t => t.coverage
  | .pairPosition t => t.coverage
  | .classPairPosition t => t.coverage
  | .cursive t => t.coverage
  | .markToBase t => t.markCoverage

end Payload

structure Lookup where
  flags : LookupFlags := .none
  payload : Payload
deriving DecidableEq

namespace Lookup

def kind (l : Lookup) : LookupKind := l.payload.kind

def direction (l : Lookup) : Direction := l.kind.direction

end Lookup

end Shaping
