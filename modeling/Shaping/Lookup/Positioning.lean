import Shaping.Table.ClassDef
import Shaping.Table.Coverage
import Shaping.Table.Value

/-!
The payloads of the five kinds of positioning. Like those of substitution, they carry the proof that
their parts fit together.
-/

namespace Shaping

/-! ### Single glyphs -/

/-- The records of a single positioning: one for all covered glyphs, or one for each coverage
index. -/
inductive SingleValues where
  | shared (record : ValueRecord)
  | perGlyph (records : Array ValueRecord)
deriving DecidableEq, Repr

/-- What is wrong with the records of a single positioning. -/
def SingleValues.fault? (coverage : Coverage) : SingleValues → Option TableError
  | .shared _ => none
  | .perGlyph records => coverage.lengthFault? .singlePosition records.size

/-- Positioning of the covered glyphs, each on its own. -/
structure SinglePosition where
  coverage : Coverage
  values : SingleValues
  valid : values.fault? coverage = none
deriving DecidableEq

namespace SinglePosition

def ofParts (coverage : Coverage) (values : SingleValues) : Except TableError SinglePosition :=
  TableError.checked _ fun h => ⟨coverage, values, h⟩

/-- The covered glyphs with their records, in coverage order. -/
def pairs (t : SinglePosition) : List (GlyphId × ValueRecord) :=
  match t.values with
  | .shared record => t.coverage.glyphs.map (·, record)
  | .perGlyph records => t.coverage.zip records

end SinglePosition

/-! ### Pairs -/

/-- The records for a pair of glyphs whose second glyph is `second`. -/
structure PairValue where
  second : GlyphId
  firstRecord : ValueRecord := {}
  secondRecord : ValueRecord := {}
deriving DecidableEq, Repr

/-- Positioning of pairs: each covered first glyph has the records of its second glyphs. -/
structure PairPosition where
  coverage : Coverage
  sets : Array (List PairValue)
  valid : coverage.lengthFault? .pairPosition sets.size = none
deriving DecidableEq

namespace PairPosition

def ofParts (coverage : Coverage) (sets : Array (List PairValue)) :
    Except TableError PairPosition :=
  TableError.checked (coverage.lengthFault? .pairPosition sets.size) fun h => ⟨coverage, sets, h⟩

/-- The covered glyphs with their pair sets, in coverage order. -/
def pairs (t : PairPosition) : List (GlyphId × List PairValue) := t.coverage.zip t.sets

end PairPosition

/-- The records in one cell of a class matrix. -/
structure ClassPairValue where
  firstRecord : ValueRecord := {}
  secondRecord : ValueRecord := {}
deriving DecidableEq, Repr, Inhabited

def ClassPairValue.isZero (v : ClassPairValue) : Bool :=
  v.firstRecord.isZero && v.secondRecord.isZero

namespace ClassMatrix

/-- The number of columns, which is the length of the first row. -/
def columns (records : Array (Array ClassPairValue)) : Nat := (records[0]?.map (·.size)).getD 0

/-- What is wrong with a matrix for these class definitions. A matrix without rows fits any. -/
def fault? (firstClasses secondClasses : ClassDef) (records : Array (Array ClassPairValue)) :
    Option TableError :=
  match records.findIdx? (·.size ≠ columns records) with
  | some row => some (.raggedMatrix row (columns records))
  | none =>
    if records.size = 0 then none
    else if records.size ≤ firstClasses.maxClass.toNat then
      some (.missingRow firstClasses.maxClass records.size)
    else if columns records ≤ secondClasses.maxClass.toNat then
      some (.missingColumn secondClasses.maxClass (columns records))
    else none

end ClassMatrix

/-- Positioning of pairs by the classes of the two glyphs. -/
structure ClassPairPosition where
  coverage : Coverage
  firstClasses : ClassDef
  secondClasses : ClassDef
  records : Array (Array ClassPairValue)
  valid : ClassMatrix.fault? firstClasses secondClasses records = none
deriving DecidableEq

namespace ClassPairPosition

def ofParts (coverage : Coverage) (firstClasses secondClasses : ClassDef)
    (records : Array (Array ClassPairValue)) : Except TableError ClassPairPosition :=
  TableError.checked _ fun h => ⟨coverage, firstClasses, secondClasses, records, h⟩

def rowCount (t : ClassPairPosition) : Nat := t.records.size

def columnCount (t : ClassPairPosition) : Nat := ClassMatrix.columns t.records

def record? (t : ClassPairPosition) (first second : UInt16) : Option ClassPairValue :=
  t.records[first.toNat]?.bind (·[second.toNat]?)

end ClassPairPosition

/-! ### Attachment -/

/-- Where a glyph is linked to the glyph in front of it and to the one behind. -/
structure EntryExit where
  entry : Option Anchor := none
  exit : Option Anchor := none
deriving DecidableEq, Repr, Hashable, Inhabited

/-- Cursive attachment: the exit of one glyph is linked to the entry of the next. -/
structure CursiveAttachment where
  coverage : Coverage
  entryExits : Array EntryExit
  valid : coverage.lengthFault? .cursive entryExits.size = none
deriving DecidableEq

namespace CursiveAttachment

instance : Hashable CursiveAttachment where hash t := mixHash (hash t.coverage) (hash t.entryExits)

def ofParts (coverage : Coverage) (entryExits : Array EntryExit) :
    Except TableError CursiveAttachment :=
  TableError.checked (coverage.lengthFault? .cursive entryExits.size) fun h =>
    ⟨coverage, entryExits, h⟩

/-- The anchors of a glyph, if it is covered. -/
def entryExit? (t : CursiveAttachment) (glyph : GlyphId) : Option EntryExit :=
  t.coverage.entry? t.entryExits glyph

/-- The covered glyphs whose anchors satisfy `p`, ascending. -/
def glyphsWhere (t : CursiveAttachment) (p : EntryExit → Bool) : List GlyphId :=
  ((t.coverage.zip t.entryExits).filter (p ·.2)).map Prod.fst

def glyphsWithExit (t : CursiveAttachment) : List GlyphId := t.glyphsWhere (·.exit.isSome)

def glyphsWithEntry (t : CursiveAttachment) : List GlyphId := t.glyphsWhere (·.entry.isSome)

end CursiveAttachment

/-- The attachment class of a mark and the point that is laid on a base's anchor. -/
structure MarkRecord where
  cls : UInt16
  anchor : Anchor
deriving DecidableEq, Repr, Hashable

/-- The anchors of a base, one for each mark class; a class may have none. -/
abbrev BaseAnchors := Array (Option Anchor)

namespace MarkToBaseParts

/-- The first thing wrong with the parts of a mark-to-base attachment. -/
def fault? (markCoverage baseCoverage : Coverage) (classCount : UInt16) (marks : Array MarkRecord)
    (bases : Array BaseAnchors) : Option TableError :=
  markCoverage.lengthFault? .markToBase marks.size <|>
  baseCoverage.lengthFault? .markToBase bases.size <|>
  (marks.find? fun m => classCount ≤ m.cls).map (fun m => .undeclaredMarkClass m.cls classCount) <|>
  (bases.findIdx? fun row => row.size ≠ classCount.toNat).map fun row => .anchorCount row classCount

end MarkToBaseParts

/-- Attachment of marks to the bases in front of them. -/
structure MarkToBase where
  markCoverage : Coverage
  baseCoverage : Coverage
  classCount : UInt16
  marks : Array MarkRecord
  bases : Array BaseAnchors
  valid : MarkToBaseParts.fault? markCoverage baseCoverage classCount marks bases = none
deriving DecidableEq

namespace MarkToBase

instance : Hashable MarkToBase where
  hash t := mixHash (hash (t.markCoverage, t.baseCoverage)) (hash (t.classCount, t.marks, t.bases))

def ofParts (markCoverage baseCoverage : Coverage) (classCount : UInt16) (marks : Array MarkRecord)
    (bases : Array BaseAnchors) : Except TableError MarkToBase :=
  TableError.checked _ fun h => ⟨markCoverage, baseCoverage, classCount, marks, bases, h⟩

def mark? (t : MarkToBase) (glyph : GlyphId) : Option MarkRecord :=
  t.markCoverage.entry? t.marks glyph

/-- The anchor of a base for the marks of a class. -/
def baseAnchor? (t : MarkToBase) (base : GlyphId) (cls : UInt16) : Option Anchor :=
  (t.baseCoverage.entry? t.bases base).bind fun row => row[cls.toNat]?.join

end MarkToBase

end Shaping
