/-!
Lookup flags, a 16-bit word whose three reserved bits are always clear, and the glyph categories
that the flags tell a lookup to pass over.
-/

namespace Shaping

/-- What a category class definition says a glyph is. -/
inductive GlyphCategory where
  | unclassified
  | base
  | ligature
  | mark
  | component
deriving DecidableEq, Repr

namespace GlyphCategory

/-- The category numbered `c`; numbers without a category leave a glyph unclassified. -/
def ofClass (c : UInt16) : GlyphCategory :=
  if c = 1 then .base
  else if c = 2 then .ligature
  else if c = 3 then .mark
  else if c = 4 then .component
  else .unclassified

def name : GlyphCategory → String
  | .unclassified => "unclassified"
  | .base => "base"
  | .ligature => "ligature"
  | .mark => "mark"
  | .component => "component"

end GlyphCategory

/-- The flags of a lookup. The high byte holds a mark attachment class, which is stored and not
interpreted; bits 5 to 7 are reserved and clear. -/
structure LookupFlags where
  bits : UInt16
  reserved_clear : bits &&& 0x00E0 = 0
deriving DecidableEq

namespace LookupFlags

instance : Hashable LookupFlags where hash f := hash f.bits

instance : Repr LookupFlags where reprPrec f n := reprPrec f.bits n

/-- The flags of a raw word, without its reserved bits. -/
def ofBits (bits : UInt16) : LookupFlags where
  bits := bits &&& 0xFF1F
  reserved_clear := by
    rw [UInt16.and_assoc, show (0xFF1F : UInt16) &&& 0x00E0 = 0 from by decide, UInt16.and_zero]

/-- To drop the reserved bits of flags changes nothing. -/
@[simp] theorem ofBits_bits (f : LookupFlags) : ofBits f.bits = f := by
  obtain ⟨bits, hclear⟩ := f
  have hclear' : bits.toBitVec &&& 0x00E0#16 = 0#16 := congrArg UInt16.toBitVec hclear
  have hbits : bits.toBitVec &&& 0xFF1F#16 = bits.toBitVec :=
    calc bits.toBitVec &&& 0xFF1F#16
        = bits.toBitVec &&& 0xFF1F#16 ||| bits.toBitVec &&& 0x00E0#16 := by
          rw [hclear', BitVec.or_zero]
      _ = bits.toBitVec &&& (0xFF1F#16 ||| 0x00E0#16) := BitVec.and_or_distrib_left.symm
      _ = bits.toBitVec := BitVec.and_allOnes
  have hword : bits &&& 0xFF1F = bits := UInt16.toBitVec_inj.1 hbits
  simp only [ofBits, hword]

def none : LookupFlags := ⟨0, by decide⟩

instance : Inhabited LookupFlags := ⟨none⟩

/-- The last glyph of a cursive sequence sits on the baseline. -/
def rightToLeft : LookupFlags := ⟨0x0001, by decide⟩

def ignoreBaseGlyphs : LookupFlags := ⟨0x0002, by decide⟩

def ignoreLigatures : LookupFlags := ⟨0x0004, by decide⟩

def ignoreMarks : LookupFlags := ⟨0x0008, by decide⟩

/-- A mark filtering set follows the lookup. It is stored and not interpreted. -/
def useMarkFilteringSet : LookupFlags := ⟨0x0010, by decide⟩

theorem or_and_eq_zero {a b m : UInt16} (ha : a &&& m = 0) (hb : b &&& m = 0) :
    (a ||| b) &&& m = 0 := by
  rw [← UInt16.toBitVec_inj] at *
  simp only [UInt16.toBitVec_and, UInt16.toBitVec_or] at *
  rw [BitVec.and_comm, BitVec.and_or_distrib_left, BitVec.and_comm _ a.toBitVec,
    BitVec.and_comm _ b.toBitVec, ha, hb]
  rfl

def union (f g : LookupFlags) : LookupFlags where
  bits := f.bits ||| g.bits
  reserved_clear := or_and_eq_zero f.reserved_clear g.reserved_clear

/-- Whether every named flag of `g` is set in `f`; the mark attachment class does not count. -/
def contains (f g : LookupFlags) : Bool :=
  f.bits &&& (g.bits &&& 0x001F) = g.bits &&& 0x001F

def skips (f : LookupFlags) : GlyphCategory → Bool
  | .base => f.contains ignoreBaseGlyphs
  | .ligature => f.contains ignoreLigatures
  | .mark => f.contains ignoreMarks
  | .unclassified | .component => false

/-- Whether any category is passed over. -/
def filtersGlyphs (f : LookupFlags) : Bool := f.bits &&& 0x000E ≠ 0

end LookupFlags

end Shaping
