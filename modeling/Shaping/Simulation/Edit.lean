import Shaping.Simulation.Search

/-!
Carrying out a matched rule. The actions of its consuming transitions run in order. Since actions
may change the length of the run, the distance between where a glyph was found and where it is now
is kept as a running shift, and the places of the consumed glyphs are kept, newest first. An action
that edits an index outside the run is a fault, and so is a sum of positions that the arithmetic
does not keep.
-/

namespace Shaping

namespace GlyphRun

/-- Changes the position of the glyph at an index, if there is one. -/
def reposition (run : GlyphRun) (index : Nat) (f : Position → Position) : GlyphRun :=
  run.modify index fun g => { g with position := f g.position }

/-- Changes the id of the glyph at an index, if there is one. -/
def rename (run : GlyphRun) (index : Nat) (f : GlyphId → GlyphId) : GlyphRun :=
  run.modify index fun g => { g with id := f g.id }

/-- Takes out the glyphs at the indices of a list, one after the other. -/
def removeAll (run : GlyphRun) : List Nat → Except Fault GlyphRun
  | [] => .ok run
  | index :: rest =>
    if h : index < run.size then removeAll (run.eraseIdx index) rest
    else .error (.edit index run.size)

/-- Adds a record to the position of the glyph at an index, if there is one. -/
def adjust (a : Arithmetic) (run : GlyphRun) (record : ValueRecord) (index : Nat) :
    Except Fault GlyphRun :=
  match run[index]? with
  | none => .ok run
  | some g => do
    let position ← record.applyTo a g.position
    return run.reposition index fun _ => position

/-- Lays the entry of the glyph at `index` on the exit of the glyph at `front`. -/
def link (a : Arithmetic) (run : GlyphRun) (table : CursiveAttachment) (front index : Nat) :
    Except Fault GlyphRun :=
  let anchors (i : Nat) := run[i]?.bind fun g => table.entryExit? g.id
  match (anchors front).bind (·.exit), (anchors index).bind (·.entry) with
  | some exit, some entry => do
    let y := (run[front]?.map (·.position.yOffset)).getD 0
    let y ← a.keep (y + exit.y.toInt)
    let yOffset ← a.keep (y - entry.y.toInt)
    return (run.reposition front fun p => { p with xAdvance := exit.x.toInt }).reposition index
      fun p => { p with xOffset := -entry.x.toInt, yOffset }
  | _, _ => .ok run

/-- Adds up the advances of the glyphs from `first` up to `last`. -/
def sumAdvances (a : Arithmetic) (run : GlyphRun) (first last : Nat) : Except Fault Int :=
  if first ≤ last ∧ last ≤ run.size then
    (run.extract first last).foldlM (fun sum g => a.keep (sum + g.position.xAdvance)) 0
  else .ok 0

/-- Lays the anchor of the mark at `index` on the anchor of the base at `base`. -/
def attach (a : Arithmetic) (run : GlyphRun) (table : MarkToBase) (base index : Nat) :
    Except Fault GlyphRun :=
  match run[base]?, run[index]? with
  | some baseGlyph, some markGlyph =>
    match table.mark? markGlyph.id with
    | none => .ok run
    | some mark =>
      match table.baseAnchor? baseGlyph.id mark.cls with
      | none => .ok run
      | some anchor => do
        let p := baseGlyph.position
        let advance ← run.sumAdvances a base index
        let x ← a.keep (p.xOffset + anchor.x.toInt)
        let x ← a.keep (x - mark.anchor.x.toInt)
        let xOffset ← a.keep (x - advance)
        let y ← a.keep (p.yOffset + anchor.y.toInt)
        let yOffset ← a.keep (y - mark.anchor.y.toInt)
        return run.reposition index fun q => { q with xOffset, yOffset }
  | _, _ => .ok run

end GlyphRun

/-- The progress of a rule's actions: the run, the present places of the glyphs consumed so far, and
how much longer the run has become. -/
structure Edit where
  run : GlyphRun
  placed : List Nat := []
  shift : Int := 0

namespace Edit

/-- Merges the newest `components` placed glyphs into the first of them, at least one and at most
all of them. -/
def ligate (e : Edit) (glyph : GlyphId) (components : Nat) : Except Fault Edit :=
  let merged := max 1 (min components e.placed.length) - 1
  match e.placed.drop merged with
  | [] => .ok e
  | first :: earlier => do
    let run := e.run.modify first fun _ => .ofId glyph
    let run ← GlyphRun.removeAll run (e.placed.take merged)
    return { run, placed := first :: earlier, shift := e.shift - merged }

/-- Carries out an action on the newest placed glyph. -/
def act (a : Arithmetic) (e : Edit) (base? : Option Nat) (action : Action) : Except Fault Edit :=
  match e.placed with
  | [] => .ok e
  | index :: earlier =>
    match action with
    | .delta d => .ok { e with run := e.run.rename index (· + d.toUInt16) }
    | .replace map => .ok { e with run := e.run.rename index fun g => (map.find? g).getD g }
    | .expand glyphs =>
      let size := e.run.size
      match e.run.splice? index (glyphs.map .ofId) with
      | some run => .ok { e with run, shift := e.shift + glyphs.length - 1 }
      | none => .error (.edit index size)
    | .ligate glyph components => e.ligate glyph components.toNat
    | .adjust record => do
      let run ← e.run.adjust a record index
      return { e with run }
    | .adjustPair first second =>
      match earlier with
      | previous :: _ => do
        let run ← e.run.adjust a first previous
        let run ← run.adjust a second index
        return { e with run }
      | [] => do
        let run ← e.run.adjust a second index
        return { e with run }
    | .linkCursive table =>
      match earlier with
      | previous :: _ => do
        let run ← e.run.link a table previous index
        return { e with run }
      | [] => .ok e
    | .attachMark table =>
      match base? with
      | some base => do
        let run ← e.run.attach a table base index
        return { e with run }
      | none => .ok e

/-- The action, if there is one, of a transition that consumes a glyph. -/
def actionAt? (machine : Machine Step) : StateId × Nat → Option (Option Action)
  | (state, i) => (machine.row state)[i]?.bind fun t =>
    match t.label.predicate with
    | .consume .. => some t.label.action
    | _ => none

/-- The actions of the consuming transitions of a path, each with the index of the glyph that its
transition consumed. -/
def plan (machine : Machine Step) (path : Match) : List (Nat × Option Action) :=
  path.consumed.toList.zip (path.taken.toList.filterMap (actionAt? machine))

/-- How the actions of a rule end. -/
inductive Result where
  | done (edit : Edit)
  /-- A glyph's place fell in front of the run, and the remaining actions were dropped. -/
  | lost (run : GlyphRun)

def perform (a : Arithmetic) (base? : Option Nat) :
    Edit → List (Nat × Option Action) → Except Fault Result
  | e, [] => .ok (.done e)
  | e, (found, action?) :: rest =>
    let index := found + e.shift
    if index < 0 then .ok (.lost e.run)
    else
      let e := { e with placed := index.toNat :: e.placed }
      match action? with
      | none => perform a base? e rest
      | some action => do
        let e ← e.act a base? action
        perform a base? e rest

/-- Where the cursor goes in a forward run after the actions of a plan: behind the last consumed
glyph, or onto it if the rule retains it and that is beyond the cursor. -/
def nextForward (cursor : Nat) (plan : List (Nat × Option Action)) (e : Edit) : Option Nat :=
  let last := (plan.getLast?.map (·.1)).getD cursor
  let retains := (plan.getLast?.bind (·.2)).any (·.retainsLast)
  let stop := last + 1 + e.shift
  if stop < 0 then none
  else
    let next := if retains && (cursor : Int) + 1 < stop then stop - 1 else stop
    if next < e.run.size then some next.toNat else none

/-- Carries out a plan at the cursor. The result is the run, and the next cursor if the run is not
done. -/
def carryOut (a : Arithmetic) (base? : Option Nat) (d : Direction) (cursor : Nat) (run : GlyphRun)
    (plan : List (Nat × Option Action)) : Except Fault (GlyphRun × Option Nat) := do
  match ← perform a base? { run } plan with
  | .lost run => return (run, none)
  | .done e =>
    match d with
    | .forward => return (e.run, nextForward cursor plan e)
    | .backward => return (e.run, if cursor = 0 then none else some (cursor - 1))

end Edit

namespace Match

/-- The index of the base that a rule found in front of its mark. -/
def base? (path : Match) : Option Nat := (path.probed.find? (·.1 = -1)).map (·.2)

/-- Carries out the rule at the end of a path. The result is the run, and the next cursor if the run
is not done. -/
def apply (a : Arithmetic) (path : Match) (machine : Machine Step) (cursor : Nat) (run : GlyphRun) :
    Except Fault (GlyphRun × Option Nat) :=
  Edit.carryOut a path.base? machine.direction cursor run (Edit.plan machine path)

end Match

end Shaping
