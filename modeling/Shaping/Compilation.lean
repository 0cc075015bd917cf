import Shaping.Machine.Bisimilar
import Shaping.Machine.Minimal
import Shaping.Machine.Packed
import Shaping.Machine.Trie
import Shaping.Rule.Expansion

/-!
Compilation: a list of lookups, highest priority first, becomes one machine. All lookups must be
processed in one direction; the first that is not stops the compilation.
-/

namespace Shaping

/-- What to do with a machine once it is built. -/
structure CompileOptions where
  optimize : Bool := true
  verify : Bool := false
deriving DecidableEq, Repr

/-- The reason why a machine was not accepted. -/
inductive CompileFault where
  /-- The trie already has paths of the other direction. -/
  | build (source : DirectionConflict)
  /-- The lookup does not run in the direction it was expanded for. -/
  | expand (source : DirectionMismatch)
deriving DecidableEq, Repr

def CompileFault.message : CompileFault → String
  | .build source => source.message
  | .expand source => source.message

/-- Why a list of lookups did not compile. -/
inductive CompileError where
  | lookup (index : Nat) (kind : LookupKind) (fault : CompileFault)
  /-- The machine differs from its minimized form. -/
  | minimizedDiffers
  /-- The minimized machine differs from the built one. -/
  | builtDiffers
  | notMinimal
deriving DecidableEq, Repr

def CompileError.message : CompileError → String
  | .lookup index kind fault => s!"lookup {index} (" ++ kind.name ++ "): " ++ fault.message
  | .minimizedDiffers => "verification failed: built automaton differs from its minimized form"
  | .builtDiffers => "verification failed: optimized automaton differs from the built automaton"
  | .notMinimal =>
    "verification failed: optimized automaton is not a fixed point of the optimizer"

/-- A machine and what it took to make it. -/
structure Compiled where
  machine : Machine Step
  /-- The number of rules in it. -/
  pathCount : Nat
  report : Option MinimizeReport
deriving DecidableEq

namespace Lookup

/-- Adds the rules of a lookup to a trie. -/
def addTo (l : Lookup) (t : Trie Step) : Except CompileFault (Trie Step) :=
  match t.setDirection l.direction with
  | .error e => .error (.build e)
  | .ok t =>
    match l.expand l.direction with
    | .error e => .error (.expand e)
    | .ok rules => .ok (t.addPaths rules)

/-- The trie of the rules of all lookups, of which the first is numbered `index`. -/
def addAll : (index : Nat) → List Lookup → Trie Step → Except CompileError (Trie Step)
  | _, [], t => .ok t
  | index, l :: rest, t =>
    match l.addTo t with
    | .ok t => addAll (index + 1) rest t
    | .error e => .error (.lookup index l.kind e)

end Lookup

/-- Compiles a list of lookups, highest priority first. -/
def compile (lookups : List Lookup) (options : CompileOptions := {}) :
    Except CompileError Compiled := do
  let trie ← Lookup.addAll 0 lookups {}
  let built := trie.machine
  if options.optimize then
    let (machine, report) := built.minimize
    if options.verify then
      if !built.bisimilar machine then throw .builtDiffers
      if machine.minimize.1 ≠ machine then throw .notMinimal
    return ⟨machine, trie.pathCount, some report⟩
  else
    if options.verify && !built.bisimilar built.minimize.1 then throw .minimizedDiffers
    return ⟨built, trie.pathCount, none⟩

end Shaping
