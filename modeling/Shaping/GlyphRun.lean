import Shaping.Direction
import Shaping.Glyph

/-!
Runs of glyphs, addressed by index in logical order: stepping along a run, with or without passing
over skipped glyphs, and the two edits that change its length. Stepping never leaves the run, and an
edit at an index outside the run has no result.
-/

namespace Shaping

/-- A sequence of glyphs in logical order. -/
abbrev GlyphRun := Array ShapedGlyph

namespace GlyphRun

/-- The run of the glyphs `ids`, all at their natural positions. -/
def ofIds (ids : List GlyphId) : GlyphRun := (ids.map ShapedGlyph.ofId).toArray

def ids (run : GlyphRun) : List GlyphId := run.toList.map (·.id)

@[simp] theorem ids_ofIds (l : List GlyphId) : ids (ofIds l) = l := by
  simp [ids, ofIds, Function.comp_def]

/-! ### Stepping -/

/-- The index processing starts from: the head or the tail of a run that is not empty. -/
def start (run : GlyphRun) (d : Direction) : Option Nat :=
  if run.isEmpty then none
  else match d with
    | .forward => some 0
    | .backward => some (run.size - 1)

/-- The index `count` places from `index`, if both are in the run. -/
def step (run : GlyphRun) (d : Direction) (count index : Nat) : Option Nat :=
  if index < run.size then
    match d with
    | .forward => if index + count < run.size then some (index + count) else none
    | .backward => if count ≤ index then some (index - count) else none
  else none

/-- The number of glyphs of the run that lie strictly beyond `index`. -/
def room (run : GlyphRun) : Direction → Nat → Nat
  | .forward, index => run.size - 1 - index
  | .backward, index => index

/-- The index next to `index`; it is in the run while there is room. -/
def neighbour : Direction → Nat → Nat
  | .forward, index => index + 1
  | .backward, index => index - 1

/-- Walks at most `fuel` places from `index`, until `count` glyphs that are not skipped have been
passed. -/
def walk (run : GlyphRun) (skip : ShapedGlyph → Bool) (d : Direction) :
    (fuel count index : Nat) → Option Nat
  | _, 0, index => some index
  | 0, _ + 1, _ => none
  | fuel + 1, count + 1, index =>
    let next := neighbour d index
    if run[next]?.any skip then walk run skip d fuel (count + 1) next
    else walk run skip d fuel count next

/-- The index reached from `index` by counting `count` glyphs that are not skipped. The glyph at
`index` itself is not tested. -/
def stepFiltered (run : GlyphRun) (skip : ShapedGlyph → Bool) (d : Direction) (count index : Nat) :
    Option Nat :=
  if index < run.size then walk run skip d (room run d index) count index else none

/-! ### Edits -/

/-- Puts `replacement` in the place of the glyph at `index`. The replacement may be empty, which
deletes the glyph, or longer than one glyph. -/
def splice? (run : GlyphRun) (index : Nat) (replacement : List ShapedGlyph) : Option GlyphRun :=
  if index < run.size then
    match replacement with
    | [] => some (run.eraseIdxIfInBounds index)
    | [glyph] => some (run.setIfInBounds index glyph)
    | _ =>
      let rest := run.extract (index + 1) run.size
      some (run.shrink index ++ replacement ++ rest)
  else none

/-- Takes the glyph at `index` out of the run. -/
def remove? (run : GlyphRun) (index : Nat) : Option (ShapedGlyph × GlyphRun) :=
  if h : index < run.size then some (run[index], run.eraseIdx index) else none

end GlyphRun

end Shaping
