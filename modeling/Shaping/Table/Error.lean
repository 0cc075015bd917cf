import Shaping.Glyph
import Shaping.Lookup.Kind

/-!
What can be wrong with a table, and how each fault is reported.
-/

namespace Shaping

/-- The two tables that may be written as glyph ranges. -/
inductive RangeTable where
  | coverage
  | classDefinition
deriving DecidableEq, Repr

def RangeTable.name : RangeTable → String
  | .coverage => "coverage table"
  | .classDefinition => "class definition"

/-- A broken invariant of a table. -/
inductive TableError where
  /-- A glyph list in which `second` follows `first` and is not greater. -/
  | unsortedGlyphs (first second : GlyphId)
  /-- A glyph list with more glyphs than there are coverage indices. -/
  | tooManyGlyphs
  /-- A range whose first glyph is above its last. -/
  | reversedRange (table : RangeTable) (min max : GlyphId)
  /-- A range that starts at or before the last glyph of the range in front of it. -/
  | unorderedRanges (table : RangeTable) (min max frontMin frontMax : GlyphId)
  /-- A range whose coverage indices leave 16 bits. -/
  | indexOverflow (min : GlyphId)
  /-- A range that starts at a coverage index at or before the last one of the range in front. -/
  | unorderedIndices (index : UInt16) (frontLast : Nat)
  /-- A class list that runs past the last glyph id. -/
  | classesPastEnd (count : Nat) (first : GlyphId)
  /-- A payload that does not have one entry for each coverage index. -/
  | payloadLength (kind : LookupKind) (expected actual : Nat)
  /-- A ligature of more components than a 16-bit count holds. -/
  | tooManyComponents (ligature : GlyphId)
  /-- A context of more glyphs on one side than a probe can reach. -/
  | contextTooLong
  /-- A row of a class matrix that is not as long as the first. -/
  | raggedMatrix (row columns : Nat)
  | missingRow (cls : UInt16) (rows : Nat)
  | missingColumn (cls : UInt16) (columns : Nat)
  | undeclaredMarkClass (cls count : UInt16)
  /-- A base without one anchor for each mark class. -/
  | anchorCount (base : Nat) (count : UInt16)
deriving DecidableEq, Repr

namespace TableError

def subject : TableError → String
  | .unsortedGlyphs .. | .tooManyGlyphs | .indexOverflow _ | .unorderedIndices .. =>
    RangeTable.coverage.name
  | .classesPastEnd .. => RangeTable.classDefinition.name
  | .reversedRange table .. | .unorderedRanges table .. => table.name
  | .payloadLength kind .. => kind.name
  | .tooManyComponents _ => LookupKind.ligature.name
  | .contextTooLong => LookupKind.reverseChain.name
  | .raggedMatrix .. | .missingRow .. | .missingColumn .. => LookupKind.classPairPosition.name
  | .undeclaredMarkClass .. | .anchorCount .. => LookupKind.markToBase.name

def detail : TableError → String
  | .unsortedGlyphs a b => s!"glyph list is not strictly ascending ({a} followed by {b})"
  | .tooManyGlyphs => "more glyphs than coverage indices"
  | .reversedRange _ min max => s!"range {min}..={max} has min above max"
  | .unorderedRanges _ min max frontMin frontMax =>
    s!"range {min}..={max} overlaps or precedes {frontMin}..={frontMax}"
  | .indexOverflow min => s!"range starting at glyph {min} overflows coverage indices"
  | .unorderedIndices index frontLast =>
    s!"coverage index {index} repeats or decreases after index {frontLast}"
  | .classesPastEnd count first =>
    s!"{count} classes starting at glyph {first} run past the last glyph id"
  | .payloadLength _ expected actual =>
    s!"payload has {actual} entries, coverage expects {expected}"
  | .tooManyComponents ligature => s!"ligature {ligature} has too many components"
  | .contextTooLong => "context is longer than the probe range"
  | .raggedMatrix row columns => s!"class row {row} does not have {columns} columns"
  | .missingRow cls rows => s!"first class {cls} has no row in a {rows}-row matrix"
  | .missingColumn cls columns => s!"second class {cls} has no column in a {columns}-column matrix"
  | .undeclaredMarkClass cls count => s!"mark class {cls} is outside the {count} declared classes"
  | .anchorCount base count => s!"base record {base} does not have {count} anchors"

def message (e : TableError) : String := "malformed " ++ e.subject ++ ": " ++ e.detail

/-- Builds a table whose check found no fault. -/
def checked {α : Type} : (fault? : Option TableError) → (fault? = none → α) → Except TableError α
  | none, build => .ok (build rfl)
  | some e, _ => .error e

theorem checked_eq_ok_iff {α : Type} {fault? : Option TableError} {build : fault? = none → α}
    {a : α} : checked fault? build = .ok a ↔ ∃ h, build h = a := by
  cases fault? <;> simp [checked]

end TableError

end Shaping
