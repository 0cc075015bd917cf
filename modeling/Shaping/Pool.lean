import Std.Data.HashMap

/-!
Numbering distinct values in the order of their first appearance, and breadth-first discovery, which
numbers the nodes of a graph in the order a search finds them. Main statement: `intern_spec`, a
value gets the number of its place among the items, and earlier items keep their places.
-/

namespace Shaping

/-- Distinct values, each with the number of its place. -/
structure Pool (α : Type) [BEq α] [LawfulBEq α] [Hashable α] where
  items : Array α := #[]
  index : Std.HashMap α Nat := ∅
  index_iff : ∀ (a : α) (i : Nat), index[a]? = some i ↔ items[i]? = some a := by simp

namespace Pool

variable {α : Type} [BEq α] [LawfulBEq α] [Hashable α]

/-- The number of a value, if it is in the pool. -/
def find? (p : Pool α) (a : α) : Option Nat := p.index[a]?

theorem find?_eq_some_iff {p : Pool α} {a : α} {i : Nat} :
    p.find? a = some i ↔ p.items[i]? = some a := p.index_iff a i

theorem getElem?_ne_of_find?_eq_none {p : Pool α} {a : α} (h : p.find? a = none) (i : Nat) :
    p.items[i]? ≠ some a := fun hi => by
  rw [find?_eq_some_iff.2 hi] at h; exact Option.some_ne_none i h

theorem index_push {p : Pool α} {a : α} (h : p.find? a = none) (b : α) (i : Nat) :
    (p.index.insert a p.items.size)[b]? = some i ↔ (p.items.push a)[i]? = some b := by
  have ha := getElem?_ne_of_find?_eq_none h
  rw [Std.HashMap.getElem?_insert, Array.getElem?_push]
  by_cases hb : a = b
  · subst hb
    by_cases hi : i = p.items.size <;> simp_all [eq_comm]
  · rw [if_neg (by simpa using hb), p.index_iff b i]
    by_cases hi : i = p.items.size
    · subst hi; simp [hb]
    · rw [if_neg hi]

/-- Adds a value that the pool does not have. -/
def push (p : Pool α) (a : α) (h : p.find? a = none) : Pool α :=
  let number := p.items.size
  { items := p.items.push a
    index := p.index.insert a number
    index_iff := index_push h }

/-- The number of a value, which is added if the pool does not have it. -/
def intern (p : Pool α) (a : α) : Nat × Pool α :=
  match h : p.find? a with
  | some i => (i, p)
  | none => (p.items.size, p.push a h)

theorem intern_spec (p : Pool α) (a : α) : (p.intern a).2.items[(p.intern a).1]? = some a := by
  unfold intern
  split
  · rename_i h; exact find?_eq_some_iff.1 h
  · simp [push]

/-! ### Breadth-first discovery -/

/-- Adds the successors of the items, from place `next` on and in order, for at most `fuel` items.
The items that are added wait behind the others, so the items are also the queue of the search. -/
def discoverFrom (succ : α → List α) : (fuel next : Nat) → Pool α → Pool α
  | 0, _, p => p
  | fuel + 1, next, p =>
    match p.items[next]? with
    | none => p
    | some a => discoverFrom succ fuel (next + 1) ((succ a).foldl (fun q b => (q.intern b).2) p)

/-- The nodes that `start` leads to, in breadth-first order, for a graph of at most `bound`
nodes. -/
def discover (succ : α → List α) (bound : Nat) (start : α) : Pool α :=
  discoverFrom succ bound 0 (intern {} start).2

end Pool

end Shaping
