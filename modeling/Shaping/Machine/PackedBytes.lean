import Shaping.Machine.Packed

/-!
The binary form of packed tables. A state is 8 bytes, a transition 20, and all words are written low
byte first. The byte behind the kind of a transition and the two behind its flags are reserved.
-/

namespace Shaping

namespace Bytes

/-- The `width` low bytes of a number, lowest first. -/
def word : (width : Nat) → Nat → List UInt8
  | 0, _ => []
  | width + 1, n => UInt8.ofNat n :: word width (n / 256)

/-- The number that bytes spell, lowest first. -/
def toNat : List UInt8 → Nat
  | [] => 0
  | b :: rest => b.toNat + 256 * toNat rest

end Bytes

def PackedState.toBytes (s : PackedState) : List UInt8 :=
  Bytes.word 4 s.first.toNat ++ Bytes.word 4 s.count.toNat

def PackedTransition.toBytes (t : PackedTransition) : List UInt8 :=
  Bytes.word 1 t.kind.toNat ++ Bytes.word 1 0 ++ Bytes.word 2 t.offset.toUInt16.toNat ++
    Bytes.word 2 t.flags.toNat ++ Bytes.word 2 0 ++ Bytes.word 4 t.matcher.toNat ++
    Bytes.word 4 t.action.toNat ++ Bytes.word 4 t.target.toNat

namespace Packed

def stateBytes (p : Packed) : List UInt8 := p.states.toList.flatMap (·.toBytes)

def transitionBytes (p : Packed) : List UInt8 := p.transitions.toList.flatMap (·.toBytes)

end Packed

end Shaping
