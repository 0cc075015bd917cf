import Shaping.Flags
import Shaping.Sorted
import Shaping.Table.Error

/-!
Glyph class definitions: a partition of the glyphs into numbered classes, in which every glyph that
is not mentioned is in class 0. A definition is written as a list of classes or as a list of ranges,
and a `ClassDef` carries the proof that its format passed the check.
-/

namespace Shaping

/-- The glyphs `min` to `max` are in class `cls`. -/
structure ClassRange where
  min : GlyphId
  max : GlyphId
  cls : UInt16
deriving DecidableEq, Repr, Hashable

namespace ClassRange

def entries (r : ClassRange) : List (GlyphId × UInt16) :=
  (List.range (r.max.toNat + 1 - r.min.toNat)).map fun k => (UInt16.ofNat (r.min.toNat + k), r.cls)

/-- The first range that ends before it starts. -/
def reversed? (ranges : List ClassRange) : Option TableError :=
  (ranges.find? fun r => r.max < r.min).map fun r => .reversedRange .classDefinition r.min r.max

/-- The first range that does not start behind the range in front of it. -/
def unordered? : List ClassRange → Option TableError
  | a :: b :: rest =>
    if b.min ≤ a.max then some (.unorderedRanges .classDefinition b.min b.max a.min a.max)
    else unordered? (b :: rest)
  | _ => none

end ClassRange

inductive ClassDefFormat where
  /-- The classes of consecutive glyphs, from `first` on. -/
  | list (first : GlyphId) (classes : Array UInt16)
  | ranges (ranges : Array ClassRange)
deriving DecidableEq, Repr, Hashable

namespace ClassDefFormat

def fault? : ClassDefFormat → Option TableError
  | .list first classes =>
    if 65536 < first.toNat + classes.size && classes.size != 0 then
      some (.classesPastEnd classes.size first)
    else none
  | .ranges rs => ClassRange.reversed? rs.toList <|> ClassRange.unordered? rs.toList

end ClassDefFormat

/-- A class definition that gives each glyph one class. -/
structure ClassDef where
  format : ClassDefFormat
  valid : format.fault? = none
deriving DecidableEq

namespace ClassDef

instance : Hashable ClassDef where hash d := hash d.format

def ofFormat (format : ClassDefFormat) : Except TableError ClassDef :=
  TableError.checked format.fault? fun h => ⟨format, h⟩

def empty : ClassDef := ⟨.ranges #[], rfl⟩

instance : Inhabited ClassDef := ⟨empty⟩

/-- The class of a glyph; 0 if the definition does not mention it. -/
def classOf (d : ClassDef) (glyph : GlyphId) : UInt16 :=
  match d.format with
  | .list first classes =>
    if first ≤ glyph then classes.getD (glyph.toNat - first.toNat) 0 else 0
  | .ranges rs =>
    match rs[Sorted.partitionPoint (·.max < glyph) rs]? with
    | some r => if r.min ≤ glyph then r.cls else 0
    | none => 0

/-- The mentioned glyphs with their classes, in glyph order. -/
def entries (d : ClassDef) : List (GlyphId × UInt16) :=
  match d.format with
  | .list first classes =>
    classes.toList.zipIdx.map fun (c, i) => (UInt16.ofNat (first.toNat + i), c)
  | .ranges rs => rs.toList.flatMap (·.entries)

/-- The mentioned glyphs of each class, classes and glyphs ascending. -/
def assignments (d : ClassDef) : List (UInt16 × List GlyphId) :=
  Sorted.group (d.entries.map fun (g, c) => (c, g))

/-- The largest class that is assigned; 0 if none is. -/
def maxClass (d : ClassDef) : UInt16 := d.entries.foldl (fun m e => max m e.2) 0

/-- Whether the definition is written without any class or range. -/
def isEmpty (d : ClassDef) : Bool :=
  match d.format with
  | .list _ classes => classes.isEmpty
  | .ranges rs => rs.isEmpty

/-- The category of a glyph, where the definition numbers categories. -/
def categoryOf (d : ClassDef) (glyph : GlyphId) : GlyphCategory := .ofClass (d.classOf glyph)

end ClassDef

end Shaping
