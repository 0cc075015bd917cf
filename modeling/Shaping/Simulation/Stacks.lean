import Shaping.Simulation.Search

/-!
A search over buffers that are set up once for a whole run. The states and the places of the path
are kept at their depths, so going back only lowers the depth, and the place at the top is that of
the transition to try next. A new search starts at depth 0 and clears nothing above it. Reading or
writing outside the buffers, or following a state that the machine does not have, has no result.
-/

namespace Shaping

/-- The buffers of a search. What stands above `depth` is left over from earlier paths. -/
structure Stacks where
  /-- The number of places in the buffers of states and places. -/
  size : Nat
  depth : Nat := 0
  /-- The state at each depth. -/
  states : Array StateId
  /-- The place of the transition taken at each depth, and at the top of the one to try next. -/
  places : Array Nat
  consumed : Array Nat := #[]
  probed : Array (Int16 × Nat) := #[]
deriving DecidableEq, Repr

namespace Stacks

/-- Buffers for paths of at most `depth` transitions, with the bounds of `Scene.search`. -/
def new (depth : Nat) : Stacks :=
  let size := max 1 (min depth searchLimit)
  { size, states := Array.replicate size 0, places := Array.replicate size 0 }

def write? {α : Type} (buffer : Array α) (i : Nat) (x : α) : Option (Array α) :=
  if i < buffer.size then some (buffer.setIfInBounds i x) else none

/-- Starts a new search at the entry of a machine. -/
def reset? (s : Stacks) (entry : StateId) : Option Stacks := do
  let states ← write? s.states 0 entry
  let places ← write? s.places 0 0
  return { s with depth := 0, states, places, consumed := #[], probed := #[] }

/-- Takes the transition at place `i` of the current state to `target`. -/
def push? (s : Stacks) (i : Nat) (target : StateId) : Option Stacks := do
  let depth := s.depth + 1
  let places ← write? s.places s.depth i
  let states ← write? s.states depth target
  let places ← write? places depth 0
  return { s with depth, states, places }

def record (s : Stacks) : Hit → Stacks
  | .probed offset index => { s with probed := s.probed.push (offset, index) }
  | .consumed index => { s with consumed := s.consumed.push index }
  | .accepted => s

/-- Takes back what a transition with this predicate has recorded last. -/
def forget (s : Stacks) : Predicate Matcher → Stacks
  | .probe .. => { s with probed := s.probed.pop }
  | .consume .. => { s with consumed := s.consumed.pop }
  | .accept => s

/-- Goes back to the state before the last transition was taken, about to try the one behind it. -/
def back? (machine : Machine Step) (s : Stacks) : Option Stacks := do
  let depth := s.depth - 1
  let state ← s.states[depth]?
  let taken ← s.places[depth]?
  let row ← machine.states[state]?
  let t ← row[taken]?
  let places ← write? s.places depth (taken + 1)
  return { s.forget t.label.predicate with depth, places }

/-- The path that the buffers hold below the top. -/
def path (s : Stacks) : Match where
  taken := (s.states.zip s.places).extract 0 s.depth
  consumed := s.consumed
  probed := s.probed

/-- One step of a search: takes the first transition that can be taken, or goes back. The outcome is
there if the search has ended. -/
def step? (sc : Scene) (s : Stacks) : Option (Stacks × Option Outcome) := do
  let state ← s.states[s.depth]?
  let start ← s.places[s.depth]?
  let row ← sc.machine.states[state]?
  match Trail.firstHit (sc.test s.consumed) row (row.size - start) start with
  | some (i, _, .accepted) =>
    let places ← write? s.places s.depth i
    let s := { s with places }
    return (s, some (.matched s.path))
  | some (i, target, hit) =>
    if s.size ≤ s.depth + 1 then return (s, some .limitReached)
    else
      let s ← (s.record hit).push? i target
      return (s, none)
  | none =>
    if s.depth = 0 then return (s, some .exhausted)
    else
      let s ← s.back? sc.machine
      return (s, none)

/-- At most `fuel` steps. -/
def run? (sc : Scene) : (fuel : Nat) → Stacks → Option (Stacks × Outcome)
  | 0, s => some (s, .limitReached)
  | fuel + 1, s => do
    match ← s.step? sc with
    | (s, none) => run? sc fuel s
    | (s, some outcome) => return (s, outcome)

/-- A search over buffers that an earlier one may have left. -/
def search? (sc : Scene) (s : Stacks) : Option (Stacks × Outcome) := do
  let s ← s.reset? sc.machine.entry
  run? sc searchLimit s

/-- The outcomes of searches one after the other, all over the same buffers. -/
def searches? (s : Stacks) : List Scene → Option (List Outcome)
  | [] => some []
  | sc :: scs => do
    let (s, outcome) ← s.search? sc
    let outcomes ← searches? s scs
    return outcome :: outcomes

end Stacks

end Shaping
