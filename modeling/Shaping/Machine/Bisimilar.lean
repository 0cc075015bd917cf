import Shaping.Machine.Basic

/-!
Comparison of two machines. Both are walked from their entries in step, and each pair of states that
is met must have the same labels in the same order.
-/

namespace Shaping.Machine

variable {ℓ : Type} [DecidableEq ℓ]

/-- Whether two states have the same labels in the same order. -/
def sameLabels (l r : Machine ℓ) (p : StateId × StateId) : Bool :=
  (l.row p.1).map (·.label) = (r.row p.2).map (·.label)

/-- The pairs of targets of two states, transition by transition; none if their labels differ. -/
def pairSuccessors (l r : Machine ℓ) (p : StateId × StateId) : List (StateId × StateId) :=
  if l.sameLabels r p then (l.successors p.1).zip (r.successors p.2) else []

/-- The pairs of states that are met when both machines are walked in step. -/
def pairs (l r : Machine ℓ) : Array (StateId × StateId) :=
  (Pool.discover (l.pairSuccessors r) (l.states.size * r.states.size) (l.entry, r.entry)).items

/-- Whether two machines behave alike. -/
def bisimilar (l r : Machine ℓ) : Bool :=
  l.direction = r.direction && (l.pairs r).all (l.sameLabels r)

end Shaping.Machine
