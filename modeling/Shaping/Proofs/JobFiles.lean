import Shaping.Format.Job
import Shaping.Proofs.Codecs

/-!
Job files keep their jobs. The codec of each table is lawful, since the check that a table passes
when it is read is the one that the table carries the proof of. So a job is read back from the text
it is written as, whatever its lookups, categories, options and input.
-/

namespace Shaping

open Json (Codec Fields Field Variant)
open Json.Codec (lawful_uint16 lawful_int16 lawful_uint64)

/-! ### Tables -/

lemma CoverageRange.lawful_codec : CoverageRange.codec.Lawful := by
  refine Codec.Lawful.map (Fields.Lawful.codec ?_) fun _ => rfl
  exact .cons lawful_uint16 (by decide) <| .cons lawful_uint16 (by decide) <|
    .cons lawful_uint16 (by decide) .nil

namespace CoverageFormat

lemma lawful_listCodec : listFields.codec.Lawful :=
  Fields.Lawful.codec <| .cons lawful_uint16.array (by decide) .nil

lemma lawful_rangeCodec : rangeFields.codec.Lawful :=
  Fields.Lawful.codec <| .cons CoverageRange.lawful_codec.array (by decide) .nil

lemma lawful_codec : codec.Lawful where
  fits
    | .list glyphs => Variant.fits_encode (lawful_listCodec.fits (glyphs, ()))
    | .ranges rs => Variant.fits_encode (lawful_rangeCodec.fits (rs, ()))
  decode_encode
    | .list glyphs =>
      Variant.decode_encode lawful_listCodec (fun t => list t.1) rfl
        (fun node => by cases node <;> rfl) (glyphs, ())
    | .ranges rs =>
      Variant.decode_encode lawful_rangeCodec (fun t => ranges t.1) rfl
        (fun node => by cases node <;> rfl) (rs, ())

end CoverageFormat

lemma Coverage.lawful_codec : Coverage.codec.Lawful :=
  CoverageFormat.lawful_codec.checked fun c => TableError.checked_eq_ok_iff.2 ⟨c.valid, rfl⟩

lemma ClassRange.lawful_codec : ClassRange.codec.Lawful := by
  refine Codec.Lawful.map (Fields.Lawful.codec ?_) fun _ => rfl
  exact .cons lawful_uint16 (by decide) <| .cons lawful_uint16 (by decide) <|
    .cons lawful_uint16 (by decide) .nil

namespace ClassDefFormat

lemma lawful_listCodec : listFields.codec.Lawful :=
  Fields.Lawful.codec <| .cons lawful_uint16 (by decide) <|
    .cons lawful_uint16.array (by decide) .nil

lemma lawful_rangeCodec : rangeFields.codec.Lawful :=
  Fields.Lawful.codec <| .cons ClassRange.lawful_codec.array (by decide) .nil

lemma lawful_codec : codec.Lawful where
  fits
    | .list first classes => Variant.fits_encode (lawful_listCodec.fits (first, classes, ()))
    | .ranges rs => Variant.fits_encode (lawful_rangeCodec.fits (rs, ()))
  decode_encode
    | .list first classes =>
      Variant.decode_encode lawful_listCodec (fun t => list t.1 t.2.1) rfl
        (fun node => by cases node <;> rfl) (first, classes, ())
    | .ranges rs =>
      Variant.decode_encode lawful_rangeCodec (fun t => ranges t.1) rfl
        (fun node => by cases node <;> rfl) (rs, ())

end ClassDefFormat

lemma ClassDef.lawful_codec : ClassDef.codec.Lawful :=
  ClassDefFormat.lawful_codec.checked fun d => TableError.checked_eq_ok_iff.2 ⟨d.valid, rfl⟩

/-- Neither format of a class definition is written as null. -/
lemma ClassDef.lawful_option : ClassDef.codec.option.Lawful := by
  refine ClassDef.lawful_codec.option fun d => ?_
  obtain ⟨format, -⟩ := d
  cases format <;> nofun

lemma ValueRecord.lawful_codec : ValueRecord.codec.Lawful := by
  refine Codec.Lawful.map (Fields.Lawful.codec ?_) fun _ => rfl
  exact .cons lawful_int16 (by decide) <| .cons lawful_int16 (by decide) <|
    .cons lawful_int16 (by decide) <| .cons lawful_int16 (by decide) .nil

lemma Anchor.lawful_codec : Anchor.codec.Lawful := by
  refine Codec.Lawful.map (Fields.Lawful.codec ?_) fun _ => rfl
  exact .cons lawful_int16 (by decide) <| .cons lawful_int16 (by decide) .nil

/-- An anchor is written as an object, so null always stands for an absent one. -/
lemma Anchor.lawful_option : Anchor.codec.option.Lawful :=
  Anchor.lawful_codec.option fun _ => nofun

/-! ### Substitution -/

lemma SingleDelta.lawful_codec : SingleDelta.codec.Lawful := by
  refine Codec.Lawful.map (Fields.Lawful.codec ?_) fun _ => rfl
  exact .cons Coverage.lawful_codec (by decide) <| .cons lawful_int16 (by decide) .nil

lemma SingleReplace.lawful_codec : SingleReplace.codec.Lawful := by
  refine Codec.Lawful.checked (Fields.Lawful.codec ?_) fun t =>
    TableError.checked_eq_ok_iff.2 ⟨t.valid, rfl⟩
  exact .cons Coverage.lawful_codec (by decide) <| .cons lawful_uint16.array (by decide) .nil

lemma MultipleSubst.lawful_codec : MultipleSubst.codec.Lawful := by
  refine Codec.Lawful.checked (Fields.Lawful.codec ?_) fun t =>
    TableError.checked_eq_ok_iff.2 ⟨t.valid, rfl⟩
  exact .cons Coverage.lawful_codec (by decide) <| .cons lawful_uint16.list.array (by decide) .nil

lemma Ligature.lawful_codec : Ligature.codec.Lawful := by
  refine Codec.Lawful.map (Fields.Lawful.codec ?_) fun _ => rfl
  exact .cons lawful_uint16 (by decide) <| .cons lawful_uint16.list (by decide) .nil

lemma LigatureSubst.lawful_codec : LigatureSubst.codec.Lawful := by
  refine Codec.Lawful.checked (Fields.Lawful.codec ?_) fun t =>
    TableError.checked_eq_ok_iff.2 ⟨t.valid, rfl⟩
  exact .cons Coverage.lawful_codec (by decide) <|
    .cons Ligature.lawful_codec.list.array (by decide) .nil

lemma ReverseChainSubst.lawful_codec : ReverseChainSubst.codec.Lawful := by
  refine Codec.Lawful.checked (Fields.Lawful.codec ?_) fun t =>
    TableError.checked_eq_ok_iff.2 ⟨t.valid, rfl⟩
  exact .cons Coverage.lawful_codec (by decide) <|
    .cons Coverage.lawful_codec.list (by decide) <|
    .cons Coverage.lawful_codec.list (by decide) <| .cons lawful_uint16.array (by decide) .nil

/-! ### Positioning -/

lemma SingleValues.lawful_codec : SingleValues.codec.Lawful where
  fits
    | .shared record => Variant.fits_encode (ValueRecord.lawful_codec.fits record)
    | .perGlyph records => Variant.fits_encode (ValueRecord.lawful_codec.array.fits records)
  decode_encode
    | .shared record =>
      Variant.decode_encode ValueRecord.lawful_codec shared rfl (fun _ => rfl) record
    | .perGlyph records =>
      Variant.decode_encode ValueRecord.lawful_codec.array perGlyph rfl (fun _ => rfl) records

lemma SinglePosition.lawful_codec : SinglePosition.codec.Lawful := by
  refine Codec.Lawful.checked (Fields.Lawful.codec ?_) fun t =>
    TableError.checked_eq_ok_iff.2 ⟨t.valid, rfl⟩
  exact .cons Coverage.lawful_codec (by decide) <| .cons SingleValues.lawful_codec (by decide) .nil

lemma PairValue.lawful_codec : PairValue.codec.Lawful := by
  refine Codec.Lawful.map (Fields.Lawful.codec ?_) fun _ => rfl
  exact .cons lawful_uint16 (by decide) <| .cons ValueRecord.lawful_codec (by decide) <|
    .cons ValueRecord.lawful_codec (by decide) .nil

lemma PairPosition.lawful_codec : PairPosition.codec.Lawful := by
  refine Codec.Lawful.checked (Fields.Lawful.codec ?_) fun t =>
    TableError.checked_eq_ok_iff.2 ⟨t.valid, rfl⟩
  exact .cons Coverage.lawful_codec (by decide) <|
    .cons PairValue.lawful_codec.list.array (by decide) .nil

lemma ClassPairValue.lawful_codec : ClassPairValue.codec.Lawful := by
  refine Codec.Lawful.map (Fields.Lawful.codec ?_) fun _ => rfl
  exact .cons ValueRecord.lawful_codec (by decide) <|
    .cons ValueRecord.lawful_codec (by decide) .nil

lemma ClassPairPosition.lawful_codec : ClassPairPosition.codec.Lawful := by
  refine Codec.Lawful.checked (Fields.Lawful.codec ?_) fun t =>
    TableError.checked_eq_ok_iff.2 ⟨t.valid, rfl⟩
  exact .cons Coverage.lawful_codec (by decide) <| .cons ClassDef.lawful_codec (by decide) <|
    .cons ClassDef.lawful_codec (by decide) <|
    .cons ClassPairValue.lawful_codec.array.array (by decide) .nil

lemma EntryExit.lawful_codec : EntryExit.codec.Lawful := by
  refine Codec.Lawful.map (Fields.Lawful.codec ?_) fun _ => rfl
  exact .cons Anchor.lawful_option (by decide) <| .cons Anchor.lawful_option (by decide) .nil

lemma CursiveAttachment.lawful_codec : CursiveAttachment.codec.Lawful := by
  refine Codec.Lawful.checked (Fields.Lawful.codec ?_) fun t =>
    TableError.checked_eq_ok_iff.2 ⟨t.valid, rfl⟩
  exact .cons Coverage.lawful_codec (by decide) <|
    .cons EntryExit.lawful_codec.array (by decide) .nil

lemma MarkRecord.lawful_codec : MarkRecord.codec.Lawful := by
  refine Codec.Lawful.map (Fields.Lawful.codec ?_) fun _ => rfl
  exact .cons lawful_uint16 (by decide) <| .cons Anchor.lawful_codec (by decide) .nil

lemma MarkToBase.lawful_codec : MarkToBase.codec.Lawful := by
  refine Codec.Lawful.checked (Fields.Lawful.codec ?_) fun t =>
    TableError.checked_eq_ok_iff.2 ⟨t.valid, rfl⟩
  exact .cons Coverage.lawful_codec (by decide) <| .cons Coverage.lawful_codec (by decide) <|
    .cons lawful_uint16 (by decide) <| .cons MarkRecord.lawful_codec.array (by decide) <|
    .cons Anchor.lawful_option.array.array (by decide) .nil

/-! ### Lookups -/

lemma LookupKind.find?_key {α : Type} (content : LookupKind → Json.Content α) (kind : LookupKind) :
    (all.map fun kind => (⟨kind.key, content kind⟩ : Variant α)).find? (·.name = kind.key) =
      some ⟨kind.key, content kind⟩ := by
  cases kind <;> rfl

lemma Payload.lawful_codec : Payload.codec.Lawful where
  fits p := by
    refine Variant.fits_encode ?_
    cases p with
    | singleDelta t => exact SingleDelta.lawful_codec.fits t
    | singleReplace t => exact SingleReplace.lawful_codec.fits t
    | multiple t => exact MultipleSubst.lawful_codec.fits t
    | ligature t => exact LigatureSubst.lawful_codec.fits t
    | reverseChain t => exact ReverseChainSubst.lawful_codec.fits t
    | singlePosition t => exact SinglePosition.lawful_codec.fits t
    | pairPosition t => exact PairPosition.lawful_codec.fits t
    | classPairPosition t => exact ClassPairPosition.lawful_codec.fits t
    | cursive t => exact CursiveAttachment.lawful_codec.fits t
    | markToBase t => exact MarkToBase.lawful_codec.fits t
  decode_encode p := by
    have hfind := LookupKind.find?_key (fun kind => .value (decodeTable kind)) p.kind
    cases p with
    | singleDelta t =>
      exact Variant.decode_encode SingleDelta.lawful_codec singleDelta hfind (fun _ => rfl) t
    | singleReplace t =>
      exact Variant.decode_encode SingleReplace.lawful_codec singleReplace hfind (fun _ => rfl) t
    | multiple t =>
      exact Variant.decode_encode MultipleSubst.lawful_codec multiple hfind (fun _ => rfl) t
    | ligature t =>
      exact Variant.decode_encode LigatureSubst.lawful_codec ligature hfind (fun _ => rfl) t
    | reverseChain t =>
      exact Variant.decode_encode ReverseChainSubst.lawful_codec reverseChain hfind
        (fun _ => rfl) t
    | singlePosition t =>
      exact Variant.decode_encode SinglePosition.lawful_codec singlePosition hfind (fun _ => rfl) t
    | pairPosition t =>
      exact Variant.decode_encode PairPosition.lawful_codec pairPosition hfind (fun _ => rfl) t
    | classPairPosition t =>
      exact Variant.decode_encode ClassPairPosition.lawful_codec classPairPosition hfind
        (fun _ => rfl) t
    | cursive t =>
      exact Variant.decode_encode CursiveAttachment.lawful_codec cursive hfind (fun _ => rfl) t
    | markToBase t =>
      exact Variant.decode_encode MarkToBase.lawful_codec markToBase hfind (fun _ => rfl) t

lemma LookupFlags.lawful_codec : LookupFlags.codec.Lawful := lawful_uint16.map ofBits_bits

lemma Lookup.lawful_codec : Lookup.codec.Lawful := by
  refine Codec.Lawful.map (Fields.Lawful.codec ?_) fun _ => rfl
  exact .cons LookupFlags.lawful_codec (by decide) <| .cons Payload.lawful_codec (by decide) .nil

/-! ### Jobs -/

lemma Directive.lawful_codec : Directive.codec.Lawful where
  fits d := .str d.name
  decode_encode d := by
    cases d <;> exact Variant.decode_str rfl

lemma SimulatorOptions.lawful_codec : SimulatorOptions.codec.Lawful := by
  refine Codec.Lawful.map (Fields.Lawful.codec ?_) fun _ => rfl
  exact .cons lawful_uint64 (by decide) .nil

namespace Job

lemma lawful_partsCodec : partsCodec.Lawful := by
  refine Fields.Lawful.codec ?_
  exact .cons Directive.lawful_codec.list (by decide) <|
    .cons SimulatorOptions.lawful_codec (by decide) <|
    .cons ClassDef.lawful_option (by decide) <|
    .cons Lookup.lawful_codec.list (by decide) <| .cons lawful_uint16.list (by decide) .nil

lemma ofParts_eq (job : Job) :
    ofParts job.directives job.options job.categories job.lookups job.input = .ok job :=
  dif_pos job.valid

/-- **Job files keep their jobs.** What a job is written as is read back as the same job. -/
theorem ofText_render (job : Job) : ofText job.toJson.render = .ok job := by
  have hdocument := Json.Document.ofText_render_of_fits (lawful_partsCodec.fits job.parts)
  have hparts := lawful_partsCodec.decode_encode job.parts
  rw [ofText, toJson, hdocument]
  simp only [hparts]
  exact ofParts_eq job

end Job

end Shaping
