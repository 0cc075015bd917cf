import Shaping.Direction
import Shaping.Pool

/-!
Machines: states with labelled transitions in priority order, an entry state, and the direction in
which the machine consumes a run. The label type is a parameter. States refer to each other by
number, so a machine may share states and contain cycles.
-/

namespace Shaping

abbrev StateId := Nat

structure Transition (ℓ : Type) where
  label : ℓ
  target : StateId
deriving DecidableEq

/-- A machine: the transitions of each state in priority order, the entry state, the direction. -/
structure Machine (ℓ : Type) where
  states : Array (Array (Transition ℓ)) := #[#[]]
  entry : StateId := 0
  direction : Direction := .forward
deriving DecidableEq

namespace Machine

variable {ℓ : Type}

/-- The transitions of a state, in priority order. -/
def row (m : Machine ℓ) (s : StateId) : Array (Transition ℓ) := m.states.getD s #[]

/-- The entry and all targets are states of the machine. -/
def WellFormed (m : Machine ℓ) : Prop :=
  m.entry < m.states.size ∧ ∀ row ∈ m.states, ∀ t ∈ row, t.target < m.states.size

instance (m : Machine ℓ) : Decidable m.WellFormed := by unfold WellFormed; infer_instance

def successors (m : Machine ℓ) (s : StateId) : List StateId := (m.row s).toList.map (·.target)

/-- The states that the entry leads to, numbered in breadth-first order. -/
def discovery (m : Machine ℓ) : Pool StateId := Pool.discover m.successors m.states.size m.entry

/-- The states that the entry leads to, in breadth-first order. -/
def reachable (m : Machine ℓ) : Array StateId := m.discovery.items

def stateCount (m : Machine ℓ) : Nat := m.reachable.size

def transitionCount (m : Machine ℓ) : Nat :=
  m.reachable.foldl (fun n s => n + (m.row s).size) 0

/-- Whether the machine has no rule. -/
def isEmpty (m : Machine ℓ) : Bool := (m.row m.entry).isEmpty

end Machine

end Shaping
