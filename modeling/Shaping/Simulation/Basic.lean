import Shaping.Simulation.Edit

/-!
Running a machine over a run of glyphs. At each cursor position the rule with the highest priority
is carried out, and where none matches the cursor moves on by one glyph.
-/

namespace Shaping

structure SimulatorOptions where
  /-- The longest path of transitions that a match may follow. -/
  maxMatchDepth : UInt64 := 256
deriving DecidableEq, Repr

structure Simulation where
  run : GlyphRun
  cursor : Option Nat
  /-- The number of rules carried out. -/
  applied : Nat := 0
  /-- The number of positions where the search gave up. -/
  limitHits : Nat := 0
deriving DecidableEq, Repr

/-- A machine with what it needs to process runs, and how sums of positions are formed. -/
structure Simulator where
  machine : Machine Step
  categories : Option ClassDef := none
  options : SimulatorOptions := {}
  /-- Releases are built without overflow checks. -/
  arithmetic : Arithmetic := .wrapping

namespace Simulator

def advance (sim : Simulator) (s : Simulation) (cursor : Nat) : Except Fault Simulation :=
  let ⟨run, _, applied, limitHits⟩ := s
  let scene : Scene := ⟨⟨sim.categories, run, cursor⟩, sim.machine⟩
  let onward := run.step sim.machine.direction 1 cursor
  match scene.search sim.options.maxMatchDepth.toNat with
  | .matched path => do
    let (run, next) ← path.apply sim.arithmetic sim.machine cursor run
    return ⟨run, next, applied + 1, limitHits⟩
  | .exhausted => .ok ⟨run, onward, applied, limitHits⟩
  | .limitReached => .ok ⟨run, onward, applied, limitHits + 1⟩

/-- Processes at most `fuel` glyphs. -/
def loop (sim : Simulator) : (fuel : Nat) → Simulation → Except Fault Simulation
  | 0, s => .ok s
  | fuel + 1, s =>
    match s.cursor with
    | none => .ok s
    | some cursor => do
      let s ← sim.advance s cursor
      loop sim fuel s

/-- Processes a run from its start. The cursor moves by at least one glyph at a time, so it visits
no more positions than the run has glyphs. -/
def simulate (sim : Simulator) (run : GlyphRun) : Except Fault Simulation :=
  sim.loop run.size { run, cursor := run.start sim.machine.direction }

end Simulator

end Shaping
