import Shaping.Sorted
import Shaping.Table.Error

/-!
Coverage tables: which glyphs a lookup affects, and the index of each into the lookup's payload. A
coverage is written as a list of glyphs or as a list of ranges; both must ascend, so a `Coverage`
carries the proof that its format passed the check.
-/

namespace Shaping

/-- The glyphs `min` to `max`, with consecutive coverage indices from `firstIndex`. -/
structure CoverageRange where
  firstIndex : UInt16
  min : GlyphId
  max : GlyphId
deriving DecidableEq, Repr, Hashable

namespace CoverageRange

def glyphCount (r : CoverageRange) : Nat := r.max.toNat + 1 - r.min.toNat

/-- One past the last coverage index of a range. -/
def indexEnd (r : CoverageRange) : Nat := r.firstIndex.toNat + r.glyphCount

def entries (r : CoverageRange) : List (Nat × GlyphId) :=
  (List.range r.glyphCount).map fun k => (r.firstIndex.toNat + k, UInt16.ofNat (r.min.toNat + k))

/-- What is wrong with a range on its own. -/
def fault? (r : CoverageRange) : Option TableError :=
  if r.max < r.min then some (.reversedRange .coverage r.min r.max)
  else if 65536 < r.indexEnd then some (.indexOverflow r.min)
  else none

/-- What is wrong with a range behind the range `front`. -/
def orderFault? (front r : CoverageRange) : Option TableError :=
  if r.min ≤ front.max then
    some (.unorderedRanges .coverage r.min r.max front.min front.max)
  else if r.firstIndex.toNat < front.indexEnd then
    some (.unorderedIndices r.firstIndex (front.indexEnd - 1))
  else none

/-- The first thing wrong with ranges that come behind `front`. -/
def listFault? : (front : Option CoverageRange) → List CoverageRange → Option TableError
  | _, [] => none
  | front, r :: rest =>
    r.fault? <|> front.bind (orderFault? · r) <|> listFault? (some r) rest

end CoverageRange

/-- The first glyph of a list that is not greater than the one in front of it. -/
def unsortedGlyph? : List GlyphId → Option TableError
  | a :: b :: rest => if a < b then unsortedGlyph? (b :: rest) else some (.unsortedGlyphs a b)
  | _ => none

inductive CoverageFormat where
  /-- The coverage index of a glyph is its place in the list. -/
  | list (glyphs : Array GlyphId)
  | ranges (ranges : Array CoverageRange)
deriving DecidableEq, Repr, Hashable

namespace CoverageFormat

def fault? : CoverageFormat → Option TableError
  | .list glyphs => unsortedGlyph? glyphs.toList <|>
    if 65536 < glyphs.size then some .tooManyGlyphs else none
  | .ranges rs => CoverageRange.listFault? none rs.toList

end CoverageFormat

/-- A coverage whose glyphs and indices ascend. -/
structure Coverage where
  format : CoverageFormat
  valid : format.fault? = none
deriving DecidableEq

namespace Coverage

instance : Hashable Coverage where hash c := hash c.format

def ofFormat (format : CoverageFormat) : Except TableError Coverage :=
  TableError.checked format.fault? fun h => ⟨format, h⟩

def empty : Coverage := ⟨.list #[], rfl⟩

instance : Inhabited Coverage := ⟨empty⟩

/-- The coverage indices and glyphs, in index order. -/
def entries (c : Coverage) : List (Nat × GlyphId) :=
  match c.format with
  | .list glyphs => glyphs.toList.zipIdx.map fun (g, i) => (i, g)
  | .ranges rs => rs.toList.flatMap (·.entries)

def glyphs (c : Coverage) : List GlyphId := c.entries.map Prod.snd

/-- The map from coverage indices to glyphs, as its pairs with the indices ascending. -/
def indexMap (c : Coverage) : List (UInt16 × GlyphId) :=
  Sorted.latest (c.entries.map fun e => (UInt16.ofNat e.1, e.2))

def index? (c : Coverage) (glyph : GlyphId) : Option Nat :=
  match c.format with
  | .list glyphs =>
    let i := Sorted.partitionPoint (· < glyph) glyphs
    if glyphs[i]? = some glyph then some i else none
  | .ranges rs =>
    match rs[Sorted.partitionPoint (·.max < glyph) rs]? with
    | some r =>
      if r.min ≤ glyph then some (r.firstIndex.toNat + (glyph.toNat - r.min.toNat)) else none
    | none => none

def contains (c : Coverage) (glyph : GlyphId) : Bool := (c.index? glyph).isSome

def glyphCount (c : Coverage) : Nat :=
  match c.format with
  | .list glyphs => glyphs.size
  | .ranges rs => rs.foldl (fun n r => n + r.glyphCount) 0

/-- One past the largest coverage index. A payload has exactly this many entries. -/
def indexBound (c : Coverage) : Nat :=
  match c.format with
  | .list glyphs => glyphs.size
  | .ranges rs => (rs.back?.map (·.indexEnd)).getD 0

def isEmpty (c : Coverage) : Bool := c.glyphCount == 0

/-- Pairs each covered glyph with its entry in a payload. -/
def zip {β : Type} (c : Coverage) (payload : Array β) : List (GlyphId × β) :=
  c.entries.filterMap fun (i, g) => payload[i]?.map (g, ·)

def entry? {β : Type} (c : Coverage) (payload : Array β) (glyph : GlyphId) : Option β :=
  (c.index? glyph).bind (payload[·]?)

/-- What is wrong with a payload that does not have one entry for each coverage index. -/
def lengthFault? (c : Coverage) (kind : LookupKind) (actual : Nat) : Option TableError :=
  if actual = c.indexBound then none else some (.payloadLength kind c.indexBound actual)

end Coverage

end Shaping
