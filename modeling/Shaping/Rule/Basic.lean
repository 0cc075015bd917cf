import Shaping.Lookup.Positioning
import Shaping.Rule.GlyphSet

/-!
Rules: what a lookup becomes. A rule is a list of steps, each a predicate on the run with an
optional action, ended by the step that accepts. The parts of a step are parameters, so that a step
that names its matcher and action by number has the same shape.
-/

namespace Shaping

/-- A test of one glyph. -/
inductive Matcher where
  | glyph (glyph : GlyphId)
  | set (glyphs : GlyphSet)
  /-- The glyph is in class `cls` of a definition. Glyphs that it does not mention are in class
  0. -/
  | inClass (classes : ClassDef) (cls : UInt16)
deriving DecidableEq, Hashable

def Matcher.accepts : Matcher → GlyphId → Bool
  | .glyph g, id => g = id
  | .set glyphs, id => glyphs.contains id
  | .inClass classes cls, id => classes.classOf id = cls

/-- A change to the glyph that its step consumes. -/
inductive Action where
  /-- Adds to the glyph id, wrapping at 16 bits. -/
  | delta (delta : Int16)
  /-- Replaces the glyph through a map; a glyph outside the map stays. -/
  | replace (map : GlyphMap)
  /-- Puts a sequence in the place of the glyph. -/
  | expand (glyphs : List GlyphId)
  /-- Merges the last `components` consumed glyphs into `glyph`. -/
  | ligate (glyph : GlyphId) (components : UInt16)
  | adjust (record : ValueRecord)
  /-- Adjusts the glyph consumed before and this one. -/
  | adjustPair (first second : ValueRecord)
  /-- Links the exit of the glyph consumed before to the entry of this one. -/
  | linkCursive (table : CursiveAttachment)
  /-- Attaches this mark to the base that a probe found in front of it. -/
  | attachMark (table : MarkToBase)
deriving DecidableEq, Hashable

/-- Whether the consumed glyph can start the next match. It can if the rule has linked it, or has
left it as it was as the second of a pair. -/
def Action.retainsLast : Action → Bool
  | .adjustPair _ second => second.isZero
  | .linkCursive _ => true
  | _ => false

/-- What a step tests. -/
inductive Predicate (μ : Type) where
  /-- Tests the glyph `offset` places from the cursor, skipped glyphs not counted, and consumes
  nothing. -/
  | probe (offset : Int16) (matcher : μ) (flags : LookupFlags)
  /-- Tests the next glyph that is not skipped, and consumes it. -/
  | consume (matcher : μ) (flags : LookupFlags)
  /-- Tests nothing: the rule has matched. -/
  | accept
deriving DecidableEq, Hashable

structure Label (μ α : Type) where
  predicate : Predicate μ
  action : Option α := none
deriving DecidableEq, Hashable

abbrev Step := Label Matcher Action

/-- A rule: the steps from the first test to the one that accepts. -/
abbrev Rule := List Step

namespace Label

def probe {μ α : Type} (offset : Int16) (matcher : μ) (flags : LookupFlags) : Label μ α :=
  { predicate := .probe offset matcher flags }

def consume {μ α : Type} (matcher : μ) (flags : LookupFlags) (action : Option α := none) :
    Label μ α := { predicate := .consume matcher flags, action }

def accept {μ α : Type} : Label μ α := { predicate := .accept }

end Label

end Shaping
