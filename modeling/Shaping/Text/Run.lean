import Shaping.GlyphRun
import Shaping.Text.Blank
import Shaping.Text.Quoted

/-!
Runs of glyphs as lines of text. A glyph is written as its id; one whose position has been adjusted
has its offsets and its horizontal advance behind it. Only ids are read.
-/

namespace Shaping

/-! ### Writing -/

/-- A glyph as `id`, or as `id@x,y+advance` if its position has been adjusted. -/
def ShapedGlyph.format (g : ShapedGlyph) : String :=
  let id := g.id.toNat.repr
  if g.position.isZero then id
  else
    let p := g.position
    id ++ "@" ++ p.xOffset.repr ++ "," ++ p.yOffset.repr ++ "+" ++ p.xAdvance.repr

/-- The glyphs of a run, with spaces between them. -/
def GlyphRun.format (run : GlyphRun) : String := " ".intercalate (run.toList.map (·.format))

/-! ### Reading -/

/-- What is wrong with the text of a glyph id. -/
inductive IdFault where
  | invalidDigit
  | tooLarge
deriving DecidableEq, Repr

def IdFault.message : IdFault → String
  | .invalidDigit => "invalid digit found in string"
  | .tooLarge => "number too large to fit in target type"

/-- A word of a line that is no glyph id. -/
structure IdError where
  word : List Char
  fault : IdFault
deriving DecidableEq, Repr

def IdError.message (e : IdError) : String :=
  "invalid glyph id " ++ Text.quote e.word ++ ": " ++ e.fault.message

namespace GlyphId

/-- Reads decimal digits behind those of `n`. The first character that is no digit, or takes the
number out of range, is the fault. -/
def ofDigits (n : Nat) : List Char → Except IdFault GlyphId
  | [] => .ok (.ofNat n)
  | c :: rest =>
    if c.isDigit then
      let n := 10 * n + (c.toNat - '0'.toNat)
      if 65535 < n then .error .tooLarge else ofDigits n rest
    else .error .invalidDigit

/-- Reads a glyph id, which may have a plus sign in front. -/
def ofChars : List Char → Except IdFault GlyphId
  | [] | ['+'] => .error .invalidDigit
  | '+' :: digits => ofDigits 0 digits
  | digits => ofDigits 0 digits

/-- Reads the glyph ids of a line, with blanks between them. -/
def ofLine (line : String) : Except IdError (List GlyphId) :=
  (Text.words line.toList).mapM fun word =>
    match ofChars word with
    | .ok id => .ok id
    | .error fault => .error ⟨word, fault⟩

end GlyphId

end Shaping
