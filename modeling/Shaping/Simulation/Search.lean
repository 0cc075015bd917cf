import Shaping.GlyphRun
import Shaping.Machine.Basic
import Shaping.Rule.Basic

/-!
The search for a rule at one position of a run. It walks the machine depth first in transition order
and backtracks where no transition can be taken, until a transition accepts. The walk is a loop over
an explicit state, bounded in depth and in steps, so cyclic machines cannot hold it up.
-/

namespace Shaping

/-- The most steps a search takes, and the greatest depth it can reach. -/
def searchLimit : Nat := 100000

/-- What a predicate reads: glyph categories, a run, and the position to match at. -/
structure View where
  categories : Option ClassDef
  run : GlyphRun
  cursor : Nat

/-- What a search reads: a view and a machine. -/
structure Scene extends View where
  machine : Machine Step

/-- Whether a lookup with these flags passes over a glyph. Without categories none is passed
over. -/
def skips (categories : Option ClassDef) (flags : LookupFlags) (glyph : ShapedGlyph) : Bool :=
  flags.filtersGlyphs && categories.any fun d => flags.skips (d.categoryOf glyph.id)

/-- What taking a transition records. -/
inductive Hit where
  /-- The glyph at `index` was tested from a distance of `offset`. -/
  | probed (offset : Int16) (index : Nat)
  | consumed (index : Nat)
  | accepted
deriving DecidableEq, Repr

namespace View

/-- Whether the glyph at an index is there, is not skipped, and is accepted. -/
def accepts (v : View) (index : Nat) (matcher : Matcher) (flags : LookupFlags) : Bool :=
  v.run[index]?.any fun g => !skips v.categories flags g && matcher.accepts g.id

def probeIndex? (v : View) (offset : Int16) (flags : LookupFlags) : Option Nat :=
  v.run.stepFiltered (skips v.categories flags) (if offset < 0 then .backward else .forward)
    offset.toInt.natAbs v.cursor

/-- The index that the next consuming step tests, after the glyphs consumed so far. -/
def nextIndex? (v : View) (consumed : Array Nat) (flags : LookupFlags) : Option Nat :=
  match consumed.back? with
  | none => some v.cursor
  | some last => v.run.stepFiltered (skips v.categories flags) .forward 1 last

/-- What a predicate records if it holds, after the glyphs consumed so far. -/
def test (v : View) (consumed : Array Nat) : Predicate Matcher → Option Hit
  | .accept => some .accepted
  | .probe offset matcher flags =>
    ((v.probeIndex? offset flags).filter (v.accepts · matcher flags)).map (.probed offset)
  | .consume matcher flags =>
    ((v.nextIndex? consumed flags).filter (v.accepts · matcher flags)).map .consumed

end View

/-- A path from the entry, with what its transitions recorded, each in order. -/
structure Match where
  /-- The transitions, each as the state it leaves and its place there. -/
  taken : Array (StateId × Nat) := #[]
  consumed : Array Nat := #[]
  probed : Array (Int16 × Nat) := #[]
deriving DecidableEq, Repr

/-- How a search ends. -/
inductive Outcome where
  /-- The rule at the end of this path matches. -/
  | matched (path : Match)
  | exhausted
  /-- The search gave up. -/
  | limitReached
deriving DecidableEq, Repr

/-- The state of a search: the path taken, the state it has reached, and the place of the next
transition to try there. -/
structure Trail where
  path : Match := {}
  state : StateId
  next : Nat := 0
deriving DecidableEq, Repr

namespace Trail

/-- The first of at most `fuel` transitions from place `i` on that can be taken, with its hit. -/
def firstHit (test : Predicate Matcher → Option Hit) (row : Array (Transition Step)) :
    (fuel i : Nat) → Option (Nat × StateId × Hit)
  | 0, _ => none
  | fuel + 1, i =>
    match row[i]? with
    | none => none
    | some t =>
      match test t.label.predicate with
      | some hit => some (i, t.target, hit)
      | none => firstHit test row fuel (i + 1)

/-- The trail after the transition at place `i` to `target` has been taken. -/
def descend (t : Trail) (i : Nat) (target : StateId) (hit : Hit) : Trail :=
  let ⟨⟨taken, consumed, probed⟩, state, _⟩ := t
  let taken := taken.push (state, i)
  let path := match hit with
    | .probed offset index => ⟨taken, consumed, probed.push (offset, index)⟩
    | .consumed index => ⟨taken, consumed.push index, probed⟩
    | .accepted => ⟨taken, consumed, probed⟩
  { path, state := target }

/-- The trail before its last transition was taken, about to try the one behind it. -/
def ascend (machine : Machine Step) (t : Trail) : Option Trail :=
  let ⟨⟨taken, consumed, probed⟩, _, _⟩ := t
  match taken.back? with
  | none => none
  | some (state, i) =>
    let taken := taken.pop
    let path := match (machine.row state)[i]?.map (·.label.predicate) with
      | some (.consume ..) => ⟨taken, consumed.pop, probed⟩
      | some (.probe ..) => ⟨taken, consumed, probed.pop⟩
      | _ => ⟨taken, consumed, probed⟩
    some { path, state, next := i + 1 }

/-- One step: takes the first transition that can be taken, or goes back. A path of `depth`
transitions is not entered. -/
def step (sc : Scene) (depth : Nat) (t : Trail) : Trail ⊕ Outcome :=
  let row := sc.machine.row t.state
  match firstHit (sc.test t.path.consumed) row (row.size - t.next) t.next with
  | some (_, _, .accepted) => .inr (.matched t.path)
  | some (i, target, hit) =>
    if depth ≤ t.path.taken.size + 1 then .inr .limitReached else .inl (t.descend i target hit)
  | none =>
    match t.ascend sc.machine with
    | some t => .inl t
    | none => .inr .exhausted

/-- At most `fuel` steps. -/
def search (sc : Scene) (depth : Nat) : (fuel : Nat) → Trail → Outcome
  | 0, _ => .limitReached
  | fuel + 1, t =>
    match t.step sc depth with
    | .inl t => search sc depth fuel t
    | .inr outcome => outcome

end Trail

/-- Finds the rule with the highest priority that matches at the cursor, along at most `depth`
transitions. Depths below 1 count as 1, and those that the step limit puts out of reach as the
limit. -/
def Scene.search (sc : Scene) (depth : Nat) : Outcome :=
  Trail.search sc (max 1 (min depth searchLimit)) searchLimit { state := sc.machine.entry }

end Shaping
