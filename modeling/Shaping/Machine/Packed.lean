import Shaping.Machine.Basic
import Shaping.Rule.Basic

/-!
Packed machines: flat tables for embedding. The reachable states are numbered breadth first, each is
a stretch of one table of transitions, and matchers and actions are named by their number in a pool
without repetition. The numbers are stored in 32-bit words, and one that does not fit is cut off.
-/

namespace Shaping

/-- The transitions of a packed state: `count` of them from place `first` on. -/
structure PackedState where
  first : UInt32
  count : UInt32
deriving DecidableEq, Repr

/-- A packed transition. Its kind says what it does; `offset` and `flags` are 0 where there are
none. -/
structure PackedTransition where
  kind : UInt8
  offset : Int16
  flags : UInt16
  matcher : UInt32
  action : UInt32
  target : UInt32
deriving DecidableEq, Repr

/-- A machine as flat tables. The entry is state 0. -/
structure Packed where
  direction : Direction
  states : Array PackedState
  transitions : Array PackedTransition
  matchers : Array Matcher
  actions : Array Action
deriving DecidableEq

namespace Packed

/-! The kinds of transitions. -/

def probing : UInt8 := 0

def consuming : UInt8 := 1

def accepting : UInt8 := 2

/-- The word for a matcher or action that is absent. -/
def absent : UInt32 := 0xFFFFFFFF

/-! ### Packing -/

/-- The pools of a machine that is being packed. -/
structure Pools where
  matchers : Pool Matcher
  actions : Pool Action

namespace Pools

def empty : Pools where
  matchers := {}
  actions := {}

def matcher (x : Matcher) : StateM Pools UInt32 := fun p =>
  let (i, matchers) := p.matchers.intern x
  (.ofNat i, { p with matchers })

def action (x : Action) : StateM Pools UInt32 := fun p =>
  let (i, actions) := p.actions.intern x
  (.ofNat i, { p with actions })

end Pools

/-- The kind, offset, flags and matcher of a predicate. -/
def packPredicate : Predicate Matcher → StateM Pools (UInt8 × Int16 × UInt16 × UInt32)
  | .probe offset matcher flags => return (probing, offset, flags.bits, ← Pools.matcher matcher)
  | .consume matcher flags => return (consuming, 0, flags.bits, ← Pools.matcher matcher)
  | .accept => return (accepting, 0, 0, absent)

def packAction : Option Action → StateM Pools UInt32
  | some action => Pools.action action
  | none => return absent

/-- The transition with its parts numbered and its target numbered breadth first. -/
def packTransition (numbers : Pool StateId) (t : Transition Step) :
    StateM Pools PackedTransition := do
  let (kind, offset, flags, matcher) ← packPredicate t.label.predicate
  let action ← packAction t.label.action
  let target := .ofNat ((numbers.find? t.target).getD 0)
  return { kind, offset, flags, matcher, action, target }

/-- The stretches that tile a table, one for each row. -/
def stretches (first : Nat) : List Nat → List PackedState
  | [] => []
  | count :: rest => ⟨.ofNat first, .ofNat count⟩ :: stretches (first + count) rest

/-- Packs the states that the entry leads to. -/
def pack (m : Machine Step) : Packed :=
  let numbers := m.discovery
  let rows := numbers.items.map m.row
  let (transitions, pools) := (rows.flatten.mapM (packTransition numbers)).run .empty
  { direction := m.direction
    states := (stretches 0 (rows.toList.map (·.size))).toArray
    transitions
    matchers := pools.matchers.items
    actions := pools.actions.items }

/-! ### Unpacking -/

/-- The predicate of a packed transition, if its matcher is in the pool. Reserved bits of the flags
are dropped, and any further kind accepts. -/
def unpackPredicate? (p : Packed) (t : PackedTransition) : Option (Predicate Matcher) :=
  let flags := .ofBits t.flags
  if t.kind = probing then p.matchers[t.matcher.toNat]?.map (.probe t.offset · flags)
  else if t.kind = consuming then p.matchers[t.matcher.toNat]?.map (.consume · flags)
  else some .accept

/-- The action of a packed transition, if it is absent or in the pool. -/
def unpackAction? (p : Packed) (t : PackedTransition) : Option (Option Action) :=
  if t.action = absent then some none else p.actions[t.action.toNat]?.map some

/-- The transition that a packed one stands for, if it names members of the pools. -/
def unpackTransition? (p : Packed) (t : PackedTransition) : Option (Transition Step) := do
  let predicate ← p.unpackPredicate? t
  let action ← p.unpackAction? t
  return ⟨{ predicate, action }, t.target.toNat⟩

/-- The machine that the tables describe, if every number in them is in range. -/
def unpack? (p : Packed) : Option (Machine Step) := do
  let states ← p.states.mapM fun s =>
    let first := s.first.toNat
    let last := first + s.count.toNat
    if last ≤ p.transitions.size then (p.transitions.extract first last).mapM p.unpackTransition?
    else none
  return { states, direction := p.direction }

end Packed

end Shaping
