import Shaping.Machine.Basic

/-!
Minimization. States that cannot be told apart are merged: starting from one class, the classes of
the reachable states are split by signature, which is a state's class with its labels and the
classes of its targets, until their number stays the same. The classes are then numbered breadth
first.

Signatures are gathered in buckets by a 64-bit key. Within a bucket they are compared, so the choice
of key affects no result.
-/

namespace Shaping

/-- What a state looks like to one round of splitting. -/
structure Signature (ℓ : Type) where
  cls : Nat
  steps : List (ℓ × Nat)
deriving DecidableEq, Hashable

/-- Signatures numbered in order of first appearance, in buckets by key. -/
structure Buckets (ℓ : Type) where
  table : Std.HashMap UInt64 (List (Signature ℓ × Nat)) := ∅
  count : Nat := 0

/-- The number of a signature, which is added if it is new. -/
def Buckets.number {ℓ : Type} [DecidableEq ℓ] (b : Buckets ℓ) (key : Signature ℓ → UInt64)
    (sig : Signature ℓ) : Nat × Buckets ℓ :=
  let bucket := b.table.getD (key sig) []
  match bucket.find? (·.1 = sig) with
  | some (_, n) => (n, b)
  | none => (b.count, ⟨b.table.insert (key sig) ((sig, b.count) :: bucket), b.count + 1⟩)

/-- The class of each state, and the number of classes. -/
structure Partition where
  classes : Array Nat
  count : Nat

def Partition.classOf (p : Partition) (s : StateId) : Nat := p.classes.getD s 0

structure MinimizeReport where
  before : Nat
  after : Nat
  rounds : Nat
deriving DecidableEq, Repr

/-- The number of states that were merged away. -/
def MinimizeReport.merged (r : MinimizeReport) : Nat := r.before - r.after

namespace Machine

variable {ℓ : Type} [DecidableEq ℓ]

/-- The signature of a state under a partition. -/
def signature (m : Machine ℓ) (p : Partition) (s : StateId) : Signature ℓ :=
  ⟨p.classOf s, (m.row s).toList.map fun t => (t.label, p.classOf t.target)⟩

/-- One round: the states of `states`, in order, are classed by signature. -/
def refine (key : Signature ℓ → UInt64) (m : Machine ℓ) (states : Array StateId) (p : Partition) :
    Partition :=
  let (buckets, classes) := states.foldl
    (fun (b, classes) s =>
      let (n, b) := b.number key (m.signature p s)
      (b, classes.setIfInBounds s n))
    (({} : Buckets ℓ), p.classes)
  ⟨classes, buckets.count⟩

/-- Rounds until the number of classes stays the same, at most `fuel` of them, with their number. -/
def refineAll (key : Signature ℓ → UInt64) (m : Machine ℓ) (states : Array StateId) :
    (fuel : Nat) → Partition → Partition × Nat
  | 0, p => (p, 0)
  | fuel + 1, p =>
    let q := m.refine key states p
    if q.count = p.count then (q, 1)
    else
      let (r, rounds) := refineAll key m states fuel q
      (r, rounds + 1)

/-- The first state of each class. -/
def representatives (p : Partition) (states : Array StateId) : Array StateId :=
  states.foldl (fun firsts s => if p.classOf s = firsts.size then firsts.push s else firsts) #[]

/-- The machine whose states are the classes of a partition, numbered breadth first. -/
def quotient (m : Machine ℓ) (p : Partition) (firsts : Array StateId) : Machine ℓ :=
  let rowOf (c : Nat) := m.row (firsts.getD c 0)
  let classes := Pool.discover (fun c => (rowOf c).toList.map fun t => p.classOf t.target)
    firsts.size (p.classOf m.entry)
  { states := classes.items.map fun c => (rowOf c).map fun t =>
      ⟨t.label, (classes.find? (p.classOf t.target)).getD 0⟩
    direction := m.direction }

/-- The machine with the states merged that no sequence of transitions tells apart. -/
def minimizeBy (key : Signature ℓ → UInt64) (m : Machine ℓ) : Machine ℓ × MinimizeReport :=
  let states := m.reachable
  let (p, rounds) := m.refineAll key states states.size ⟨Array.replicate m.states.size 0, 1⟩
  (m.quotient p (representatives p states), ⟨states.size, p.count, rounds⟩)

/-- `minimizeBy` with signatures gathered by their hash. -/
def minimize [Hashable ℓ] (m : Machine ℓ) : Machine ℓ × MinimizeReport := m.minimizeBy hash

end Machine

end Shaping
