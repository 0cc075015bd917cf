import Shaping.Lookup.Basic
import Shaping.Rule.Basic

/-!
The rules of a lookup, highest priority first. Each rule tests its context, lookahead before
lookback, then consumes its glyphs, the last one with the lookup's action, and then accepts.
-/

namespace Shaping

namespace Rule

/-- The rule that consumes one glyph and acts on it. -/
def single (matcher : Matcher) (flags : LookupFlags) (action : Action) : Rule :=
  [.consume matcher flags action, .accept]

/-- The rule that consumes two glyphs and acts on the second. -/
def pair (first second : Matcher) (flags : LookupFlags) (action : Action) : Rule :=
  [.consume first flags, .consume second flags action, .accept]

/-- The rule that consumes the glyphs of a list, which is not empty, and acts on the last. -/
def sequence (flags : LookupFlags) (action : Action) : List GlyphId → Rule
  | [] => [.accept]
  | [glyph] => single (.glyph glyph) flags action
  | glyph :: rest => .consume (.glyph glyph) flags :: sequence flags action rest

end Rule

def Coverage.matcher (c : Coverage) : Matcher := .set (GlyphSet.ofList c.glyphs)

/-- One rule that acts on any covered glyph; none if nothing is covered. -/
def Coverage.rules (c : Coverage) (flags : LookupFlags) (action : Action) : List Rule :=
  if c.isEmpty then [] else [.single c.matcher flags action]

/-- A rule for each ligature of each covered glyph. -/
def LigatureSubst.rules (t : LigatureSubst) (flags : LookupFlags) : List Rule :=
  t.pairs.flatMap fun (first, ligatures) => ligatures.map fun l =>
    .sequence flags (.ligate l.glyph (UInt16.ofNat l.componentCount)) (first :: l.components)

/-- The lookahead probes, the lookback probes, and the substitution. -/
def ReverseChainSubst.rules (t : ReverseChainSubst) (flags : LookupFlags) : List Rule :=
  if t.coverage.isEmpty then []
  else
    let ahead := t.lookahead.zipIdx.map fun (c, i) =>
      Label.probe (1 + Int16.ofNat i) c.matcher flags
    let back := t.backtrack.zipIdx.map fun (c, i) =>
      Label.probe (-1 - Int16.ofNat i) c.matcher flags
    [ahead ++ back ++
      Rule.single t.coverage.matcher flags (.replace (GlyphMap.ofList t.pairs))]

/-- One rule for a shared record, otherwise a rule for each covered glyph. -/
def SinglePosition.rules (t : SinglePosition) (flags : LookupFlags) : List Rule :=
  match t.values with
  | .shared record => t.coverage.rules flags (.adjust record)
  | .perGlyph _ => t.pairs.map fun (glyph, record) => .single (.glyph glyph) flags (.adjust record)

def PairPosition.rules (t : PairPosition) (flags : LookupFlags) : List Rule :=
  t.pairs.flatMap fun (first, values) => values.map fun v =>
    .pair (.glyph first) (.glyph v.second) flags (.adjustPair v.firstRecord v.secondRecord)

/-- A rule for each first class with a covered glyph and each column. The columns are counted in the
16-bit words that number classes. -/
def ClassPairPosition.rules (t : ClassPairPosition) (flags : LookupFlags) : List Rule :=
  let byClass := Sorted.group (t.coverage.glyphs.map fun g => (t.firstClasses.classOf g, g))
  byClass.flatMap fun (first, glyphs) =>
    let matcher := Matcher.set (GlyphSet.ofList glyphs)
    (List.range (UInt16.ofNat t.columnCount).toNat).filterMap fun column =>
      let second := UInt16.ofNat column
      (t.record? first second).map fun v =>
        .pair matcher (.inClass t.secondClasses second) flags
          (.adjustPair v.firstRecord v.secondRecord)

/-- The rule that links a glyph with an exit to a glyph with an entry. -/
def CursiveAttachment.rules (t : CursiveAttachment) (flags : LookupFlags) : List Rule :=
  let exits := t.glyphsWithExit
  let entries := t.glyphsWithEntry
  if exits.isEmpty || entries.isEmpty then []
  else
    [.pair (.set (GlyphSet.ofList exits)) (.set (GlyphSet.ofList entries)) flags (.linkCursive t)]

/-- The rule that finds the base in front of a mark, over other marks, and attaches the mark. -/
def MarkToBase.rules (t : MarkToBase) (flags : LookupFlags) : List Rule :=
  if t.markCoverage.isEmpty || t.baseCoverage.isEmpty then []
  else
    [.probe (-1) t.baseCoverage.matcher (flags.union .ignoreMarks) ::
      Rule.single t.markCoverage.matcher flags (.attachMark t)]

namespace Lookup

/-- The rules of a lookup, highest priority first. -/
def rules (l : Lookup) : List Rule :=
  match l.payload with
  | .singleDelta t => t.coverage.rules l.flags (.delta t.delta)
  | .singleReplace t => t.coverage.rules l.flags (.replace (GlyphMap.ofList t.pairs))
  | .multiple t => t.pairs.map fun (glyph, sequence) =>
    .single (.glyph glyph) l.flags (.expand sequence)
  | .ligature t => t.rules l.flags
  | .reverseChain t => t.rules l.flags
  | .singlePosition t => t.rules l.flags
  | .pairPosition t => t.rules l.flags
  | .classPairPosition t => t.rules l.flags
  | .cursive t => t.rules l.flags
  | .markToBase t => t.rules l.flags

end Lookup

/-- A lookup that is to be processed against its direction. -/
structure DirectionMismatch where
  kind : LookupKind
  required : Direction
  requested : Direction
deriving DecidableEq, Repr

def DirectionMismatch.message (e : DirectionMismatch) : String :=
  e.kind.name ++ " must be processed " ++ e.required.name ++ ", not " ++ e.requested.name

/-- The rules of a lookup, if it is processed in the direction `requested`. -/
def Lookup.expand (l : Lookup) (requested : Direction) : Except DirectionMismatch (List Rule) :=
  if l.direction = requested then .ok l.rules
  else .error ⟨l.kind, l.direction, requested⟩

end Shaping
