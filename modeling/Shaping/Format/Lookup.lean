import Shaping.Format.Table
import Shaping.Format.Value
import Shaping.Lookup.Basic

/-!
How payloads and lookups are written as JSON. A payload is checked when it is read.
-/

namespace Shaping

open Json (Codec Fields Field Variant Decoder)

/-! ### Substitution -/

def SingleDelta.codec : Codec SingleDelta :=
  (Fields.cons (.required "coverage" Coverage.codec) <|
    .cons (.required "delta" .int16) .nil).codec.map
    (fun t => (t.coverage, t.delta, ()))
    fun (coverage, delta, ()) => ⟨coverage, delta⟩

def SingleReplace.codec : Codec SingleReplace :=
  (Fields.cons (.required "coverage" Coverage.codec) <|
    .cons (.required "substitutes" (.array .uint16)) .nil).codec.checked
    (fun t => (t.coverage, t.substitutes, ()))
    fun (coverage, substitutes, ()) => ofParts coverage substitutes

def MultipleSubst.codec : Codec MultipleSubst :=
  (Fields.cons (.required "coverage" Coverage.codec) <|
    .cons (.required "sequences" (.array (.list .uint16))) .nil).codec.checked
    (fun t => (t.coverage, t.sequences, ()))
    fun (coverage, sequences, ()) => ofParts coverage sequences

def Ligature.codec : Codec Ligature :=
  (Fields.cons (.required "glyph" .uint16) <|
    .cons (.required "components" (.list .uint16)) .nil).codec.map
    (fun l => (l.glyph, l.components, ()))
    fun (glyph, components, ()) => ⟨glyph, components⟩

def LigatureSubst.codec : Codec LigatureSubst :=
  (Fields.cons (.required "coverage" Coverage.codec) <|
    .cons (.required "ligature_sets" (.array (.list Ligature.codec))) .nil).codec.checked
    (fun t => (t.coverage, t.sets, ()))
    fun (coverage, sets, ()) => ofParts coverage sets

def ReverseChainSubst.codec : Codec ReverseChainSubst :=
  (Fields.cons (.required "coverage" Coverage.codec) <|
    .cons (.required "backtrack" (.list Coverage.codec)) <|
    .cons (.required "lookahead" (.list Coverage.codec)) <|
    .cons (.required "substitutes" (.array .uint16)) .nil).codec.checked
    (fun t => (t.coverage, t.backtrack, t.lookahead, t.substitutes, ()))
    fun (coverage, backtrack, lookahead, substitutes, ()) =>
      ofParts coverage backtrack lookahead substitutes

/-! ### Positioning -/

def SingleValues.codec : Codec SingleValues where
  encode
    | .shared record => Variant.encode "Shared" (ValueRecord.codec.encode record)
    | .perGlyph records => Variant.encode "PerGlyph" (ValueRecord.codec.array.encode records)
  decode := Variant.decode [
    ⟨"Shared", .value fun source node => (ValueRecord.codec.decode source node).map .shared⟩,
    ⟨"PerGlyph", .value fun source node =>
      (ValueRecord.codec.array.decode source node).map .perGlyph⟩]

def SinglePosition.codec : Codec SinglePosition :=
  (Fields.cons (.required "coverage" Coverage.codec) <|
    .cons (.required "values" SingleValues.codec) .nil).codec.checked
    (fun t => (t.coverage, t.values, ()))
    fun (coverage, values, ()) => ofParts coverage values

def PairValue.codec : Codec PairValue :=
  (Fields.cons (.required "second_glyph" .uint16) <|
    .cons (.optional "first" ValueRecord.codec {}) <|
    .cons (.optional "second" ValueRecord.codec {}) .nil).codec.map
    (fun v => (v.second, v.firstRecord, v.secondRecord, ()))
    fun (second, firstRecord, secondRecord, ()) => ⟨second, firstRecord, secondRecord⟩

def PairPosition.codec : Codec PairPosition :=
  (Fields.cons (.required "coverage" Coverage.codec) <|
    .cons (.required "pair_sets" (.array (.list PairValue.codec))) .nil).codec.checked
    (fun t => (t.coverage, t.sets, ()))
    fun (coverage, sets, ()) => ofParts coverage sets

def ClassPairValue.codec : Codec ClassPairValue :=
  (Fields.cons (.optional "first" ValueRecord.codec {}) <|
    .cons (.optional "second" ValueRecord.codec {}) .nil).codec.map
    (fun v => (v.firstRecord, v.secondRecord, ()))
    fun (firstRecord, secondRecord, ()) => ⟨firstRecord, secondRecord⟩

def ClassPairPosition.codec : Codec ClassPairPosition :=
  (Fields.cons (.required "coverage" Coverage.codec) <|
    .cons (.required "first_classes" ClassDef.codec) <|
    .cons (.required "second_classes" ClassDef.codec) <|
    .cons (.required "records" (.array (.array ClassPairValue.codec))) .nil).codec.checked
    (fun t => (t.coverage, t.firstClasses, t.secondClasses, t.records, ()))
    fun (coverage, firstClasses, secondClasses, records, ()) =>
      ofParts coverage firstClasses secondClasses records

def EntryExit.codec : Codec EntryExit :=
  (Fields.cons (.optional "entry" (.option Anchor.codec) none) <|
    .cons (.optional "exit" (.option Anchor.codec) none) .nil).codec.map
    (fun e => (e.entry, e.exit, ()))
    fun (entry, exit, ()) => ⟨entry, exit⟩

def CursiveAttachment.codec : Codec CursiveAttachment :=
  (Fields.cons (.required "coverage" Coverage.codec) <|
    .cons (.required "entry_exits" (.array EntryExit.codec)) .nil).codec.checked
    (fun t => (t.coverage, t.entryExits, ()))
    fun (coverage, entryExits, ()) => ofParts coverage entryExits

def MarkRecord.codec : Codec MarkRecord :=
  (Fields.cons (.required "class" .uint16) <|
    .cons (.required "anchor" Anchor.codec) .nil).codec.map
    (fun m => (m.cls, m.anchor, ()))
    fun (cls, anchor, ()) => ⟨cls, anchor⟩

def MarkToBase.codec : Codec MarkToBase :=
  (Fields.cons (.required "mark_coverage" Coverage.codec) <|
    .cons (.required "base_coverage" Coverage.codec) <|
    .cons (.required "class_count" .uint16) <|
    .cons (.required "marks" (.array MarkRecord.codec)) <|
    .cons (.required "bases" (.array (.array (.option Anchor.codec)))) .nil).codec.checked
    (fun t => (t.markCoverage, t.baseCoverage, t.classCount, t.marks, t.bases, ()))
    fun (markCoverage, baseCoverage, classCount, marks, bases, ()) =>
      ofParts markCoverage baseCoverage classCount marks bases

/-! ### Lookups -/

namespace LookupKind

def key : LookupKind → String
  | .singleDelta => "SingleDelta"
  | .singleReplace => "SingleReplace"
  | .multiple => "Multiple"
  | .ligature => "Ligature"
  | .reverseChain => "ReverseChainSingle"
  | .singlePosition => "SinglePosition"
  | .pairPosition => "PairPosition"
  | .classPairPosition => "ClassPairPosition"
  | .cursive => "CursiveAttachment"
  | .markToBase => "MarkToBase"

def all : List LookupKind :=
  [.singleDelta, .singleReplace, .multiple, .ligature, .reverseChain, .singlePosition,
    .pairPosition, .classPairPosition, .cursive, .markToBase]

def ofKey? (key : String) : Option LookupKind := all.find? (·.key = key)

end LookupKind

namespace Payload

def encodeTable : Payload → Json
  | .singleDelta t => SingleDelta.codec.encode t
  | .singleReplace t => SingleReplace.codec.encode t
  | .multiple t => MultipleSubst.codec.encode t
  | .ligature t => LigatureSubst.codec.encode t
  | .reverseChain t => ReverseChainSubst.codec.encode t
  | .singlePosition t => SinglePosition.codec.encode t
  | .pairPosition t => PairPosition.codec.encode t
  | .classPairPosition t => ClassPairPosition.codec.encode t
  | .cursive t => CursiveAttachment.codec.encode t
  | .markToBase t => MarkToBase.codec.encode t

/-- Reads the payload of a lookup of a given kind. -/
def decodeTable : LookupKind → Decoder Payload
  | .singleDelta, s, n => (SingleDelta.codec.decode s n).map .singleDelta
  | .singleReplace, s, n => (SingleReplace.codec.decode s n).map .singleReplace
  | .multiple, s, n => (MultipleSubst.codec.decode s n).map .multiple
  | .ligature, s, n => (LigatureSubst.codec.decode s n).map .ligature
  | .reverseChain, s, n => (ReverseChainSubst.codec.decode s n).map .reverseChain
  | .singlePosition, s, n => (SinglePosition.codec.decode s n).map .singlePosition
  | .pairPosition, s, n => (PairPosition.codec.decode s n).map .pairPosition
  | .classPairPosition, s, n => (ClassPairPosition.codec.decode s n).map .classPairPosition
  | .cursive, s, n => (CursiveAttachment.codec.decode s n).map .cursive
  | .markToBase, s, n => (MarkToBase.codec.decode s n).map .markToBase

def codec : Codec Payload where
  encode p := Variant.encode p.kind.key p.encodeTable
  decode := Variant.decode (LookupKind.all.map fun kind => ⟨kind.key, .value (decodeTable kind)⟩)

end Payload

/-- Flags, whose reserved bits are dropped. -/
def LookupFlags.codec : Codec LookupFlags := Codec.uint16.map (·.bits) ofBits

def Lookup.codec : Codec Lookup :=
  (Fields.cons (.optional "flags" LookupFlags.codec .none) <|
    .cons (.required "kind" Payload.codec) .nil).codec.map
    (fun l => (l.flags, l.payload, ()))
    fun (flags, payload, ()) => ⟨flags, payload⟩

end Shaping
