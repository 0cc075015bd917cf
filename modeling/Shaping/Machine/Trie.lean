import Shaping.Machine.Basic

/-!
Tries: machines grown by adding paths. A new path follows a transition only if it is the last of its
state and has the same label; where it cannot, the rest of the path goes behind everything that is
there. So the paths of a trie, depth first, are the added paths in the order they were added, and an
earlier path keeps its priority over every later one.
-/

namespace Shaping

/-- A machine under construction, with the number of paths added so far. -/
structure Trie (ℓ : Type) where
  machine : Machine ℓ := {}
  pathCount : Nat := 0

/-- The attempt to change the direction of a trie that has paths. -/
structure DirectionConflict where
  fixed : Direction
  requested : Direction
deriving DecidableEq, Repr

def DirectionConflict.message (e : DirectionConflict) : String :=
  "cannot change processing direction from " ++ e.fixed.name ++ " to " ++ e.requested.name ++
    " once paths exist"

namespace Machine

variable {ℓ : Type}

/-- Adds a state, and a transition to it behind those of `s`. -/
def grow (m : Machine ℓ) (s : StateId) (label : ℓ) : Machine ℓ :=
  let target := m.states.size
  { m with states := (m.states.modify s (·.push ⟨label, target⟩)).push #[] }

/-- The state behind `label`: the target of the last transition of `s` if it has this label,
otherwise a new state. -/
def follow [DecidableEq ℓ] (m : Machine ℓ) (s : StateId) (label : ℓ) : StateId × Machine ℓ :=
  match (m.row s).back? with
  | some t => if t.label = label then (t.target, m) else (m.states.size, m.grow s label)
  | none => (m.states.size, m.grow s label)

/-- Adds a path that starts in state `s`. -/
def addFrom [DecidableEq ℓ] : Machine ℓ → StateId → List ℓ → Machine ℓ
  | m, _, [] => m
  | m, s, label :: rest =>
    let (next, grown) := m.follow s label
    addFrom grown next rest

end Machine

namespace Trie

variable {ℓ : Type}

/-- Fixes the direction. Once there are paths it can only be what it is. -/
def setDirection (t : Trie ℓ) (d : Direction) : Except DirectionConflict (Trie ℓ) :=
  if 0 < t.pathCount ∧ t.machine.direction ≠ d then .error ⟨t.machine.direction, d⟩
  else .ok { t with machine := { t.machine with direction := d } }

/-- Adds a path. The empty path changes nothing. -/
def addPath [DecidableEq ℓ] (t : Trie ℓ) (path : List ℓ) : Trie ℓ :=
  if path.isEmpty then t else ⟨t.machine.addFrom t.machine.entry path, t.pathCount + 1⟩

theorem addPath_of_ne_nil [DecidableEq ℓ] {t : Trie ℓ} {path : List ℓ} (h : path ≠ []) :
    t.addPath path = ⟨t.machine.addFrom t.machine.entry path, t.pathCount + 1⟩ :=
  if_neg (by simpa using h)

/-- Adds the paths of a list, one after the other. -/
def addPaths [DecidableEq ℓ] (t : Trie ℓ) (paths : List (List ℓ)) : Trie ℓ := paths.foldl addPath t

end Trie

end Shaping
