import Shaping.Glyph
import Shaping.Sorted

/-!
Finite sets of glyphs and finite maps between glyphs, kept in ascending order without repetition, so
that equal sets are equal values.
-/

namespace Shaping

/-- A set of glyphs, in ascending order. -/
structure GlyphSet where
  glyphs : Array GlyphId
  ascending : glyphs.toList.Pairwise (· < ·)
deriving DecidableEq

namespace GlyphSet

instance : Hashable GlyphSet where hash s := hash s.glyphs

/-- The glyphs of a list in ascending order, each once. -/
def sort (l : List GlyphId) : List GlyphId := (Sorted.byKey id l).foldr Sorted.insert []

theorem pairwise_sort (l : List GlyphId) : (sort l).Pairwise (· < ·) := by
  rw [sort]
  generalize Sorted.byKey id l = sorted
  induction sorted with
  | nil => simp
  | cons g rest ih => exact Sorted.pairwise_insert ih

def ofList (l : List GlyphId) : GlyphSet := ⟨(sort l).toArray, by simpa using pairwise_sort l⟩

def contains (s : GlyphSet) (glyph : GlyphId) : Bool :=
  s.glyphs[Sorted.partitionPoint (· < glyph) s.glyphs]? = some glyph

end GlyphSet

/-- A map between glyphs, with its arguments in ascending order. -/
structure GlyphMap where
  entries : Array (GlyphId × GlyphId)
  ascending : (entries.toList.map Prod.fst).Pairwise (· < ·)
deriving DecidableEq

namespace GlyphMap

instance : Hashable GlyphMap where hash m := hash m.entries

/-- The map of a list of pairs. Of two pairs for one glyph the later one counts. -/
def ofList (l : List (GlyphId × GlyphId)) : GlyphMap :=
  ⟨(Sorted.latest l).toArray, by simpa using Sorted.pairwise_latest l⟩

def find? (m : GlyphMap) (glyph : GlyphId) : Option GlyphId :=
  match m.entries[Sorted.partitionPoint (·.1 < glyph) m.entries]? with
  | some (g, image) => if g = glyph then some image else none
  | none => none

end GlyphMap

end Shaping
