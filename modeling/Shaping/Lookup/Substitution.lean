import Shaping.Table.Coverage

/-!
The payloads of the five kinds of substitution. A payload that lists one entry for each coverage
index carries the proof that it does, so a payload that exists is a well-formed one.
-/

namespace Shaping

/-- Substitution that adds a constant to the ids of the covered glyphs. -/
structure SingleDelta where
  coverage : Coverage
  delta : Int16
deriving DecidableEq

/-- Substitution of each covered glyph by the glyph at its coverage index. -/
structure SingleReplace where
  coverage : Coverage
  substitutes : Array GlyphId
  valid : coverage.lengthFault? .singleReplace substitutes.size = none
deriving DecidableEq

namespace SingleReplace

def ofParts (coverage : Coverage) (substitutes : Array GlyphId) : Except TableError SingleReplace :=
  TableError.checked (coverage.lengthFault? .singleReplace substitutes.size) fun h =>
    ⟨coverage, substitutes, h⟩

/-- The substitute of a glyph, if it is covered. -/
def substitute? (t : SingleReplace) (glyph : GlyphId) : Option GlyphId :=
  t.coverage.entry? t.substitutes glyph

/-- The covered glyphs with their substitutes, in coverage order. -/
def pairs (t : SingleReplace) : List (GlyphId × GlyphId) := t.coverage.zip t.substitutes

end SingleReplace

/-- Substitution of each covered glyph by a sequence, which may be empty. -/
structure MultipleSubst where
  coverage : Coverage
  sequences : Array (List GlyphId)
  valid : coverage.lengthFault? .multiple sequences.size = none
deriving DecidableEq

namespace MultipleSubst

def ofParts (coverage : Coverage) (sequences : Array (List GlyphId)) :
    Except TableError MultipleSubst :=
  TableError.checked (coverage.lengthFault? .multiple sequences.size) fun h =>
    ⟨coverage, sequences, h⟩

/-- The covered glyphs with their sequences, in coverage order. -/
def pairs (t : MultipleSubst) : List (GlyphId × List GlyphId) := t.coverage.zip t.sequences

end MultipleSubst

/-- The covered glyph and the glyphs `components` after it form the glyph `glyph`. -/
structure Ligature where
  glyph : GlyphId
  components : List GlyphId
deriving DecidableEq, Repr, Hashable

/-- The number of components, the covered first glyph included. -/
def Ligature.componentCount (l : Ligature) : Nat := l.components.length + 1

/-- Substitution of several glyphs by one. The ligatures of a set are tried in order. -/
structure LigatureSubst where
  coverage : Coverage
  sets : Array (List Ligature)
  valid : (coverage.lengthFault? .ligature sets.size <|>
    (sets.toList.flatten.find? fun l => 65535 < l.componentCount).map fun l =>
      .tooManyComponents l.glyph) = none
deriving DecidableEq

namespace LigatureSubst

def ofParts (coverage : Coverage) (sets : Array (List Ligature)) :
    Except TableError LigatureSubst :=
  TableError.checked _ fun h => ⟨coverage, sets, h⟩

/-- The covered glyphs with their ligature sets, in coverage order. -/
def pairs (t : LigatureSubst) : List (GlyphId × List Ligature) := t.coverage.zip t.sets

end LigatureSubst

/-- Single substitution in context. The glyph `i + 1` places in front of the covered glyph must be
in `backtrack[i]`, the glyph `i + 1` places behind it in `lookahead[i]`. -/
structure ReverseChainSubst where
  coverage : Coverage
  backtrack : List Coverage
  lookahead : List Coverage
  substitutes : Array GlyphId
  valid : (coverage.lengthFault? .reverseChain substitutes.size <|>
    if 32767 < backtrack.length || 32767 < lookahead.length then some .contextTooLong
    else none) = none
deriving DecidableEq

namespace ReverseChainSubst

def ofParts (coverage : Coverage) (backtrack lookahead : List Coverage)
    (substitutes : Array GlyphId) : Except TableError ReverseChainSubst :=
  TableError.checked _ fun h => ⟨coverage, backtrack, lookahead, substitutes, h⟩

/-- The covered glyphs with their substitutes, in coverage order. -/
def pairs (t : ReverseChainSubst) : List (GlyphId × GlyphId) := t.coverage.zip t.substitutes

end ReverseChainSubst

end Shaping
