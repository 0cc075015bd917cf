import Shaping.Json.Variants
import Shaping.Proofs.Reading

/-!
Codecs that lose nothing. A codec is lawful if what it writes fits 64 bits and is read back as the
value that was written. Lists, records and variants of lawful codecs are lawful, and so is a codec
with a check that every value passes.
-/

namespace Shaping.Json

variable {α β π τ : Type} {c : Codec α}

/-- A codec that reads back what it writes, in a document. -/
structure Codec.Lawful (c : Codec α) : Prop where
  fits (a : α) : Fits (c.encode a)
  decode_encode (a : α) : c.decode .document (.ofJson (c.encode a)) = .ok a

namespace Codec

/-! ### Numbers -/

lemma lawful_ofInt {lo hi : Int} {toInt : α → Int} {ofInt : Int → α}
    (hlo : -9223372036854775808 ≤ lo) (hhi : hi ≤ 18446744073709551615)
    (hrange : ∀ a, lo ≤ toInt a ∧ toInt a ≤ hi) (hinverse : ∀ a, ofInt (toInt a) = a) :
    (Codec.ofInt lo hi toInt ofInt).Lawful where
  fits a := by
    obtain ⟨hge, hle⟩ := hrange a
    exact .int (by omega) (by omega)
  decode_encode a := by
    have hread : (int lo hi).decode .document (.int (toInt a)) = .ok (toInt a) :=
      if_pos (hrange a)
    rw [Codec.ofInt, Node.ofJson]
    simp only [hread]
    exact congrArg Except.ok (hinverse a)

lemma lawful_uint16 : uint16.Lawful := by
  refine lawful_ofInt (by omega) (by omega) (fun a => ?_) fun a => ?_
  · have hlt : a.toNat < 65536 := a.toNat_lt
    constructor <;> omega
  · simp

lemma lawful_int16 : int16.Lawful := by
  refine lawful_ofInt (by omega) (by omega) (fun a => ⟨?_, ?_⟩) fun a => ?_
  · exact Int16.minValue_le_toInt a
  · exact Int16.toInt_le a
  · exact Int16.ofInt_toInt a

lemma lawful_uint64 : uint64.Lawful := by
  refine lawful_ofInt (by omega) (by omega) (fun a => ?_) fun a => ?_
  · have hlt : a.toNat < 18446744073709551616 := a.toNat_lt
    constructor <;> omega
  · simp

/-! ### Options, lists and checks -/

lemma Lawful.option (h : c.Lawful) (hnull : ∀ a, c.encode a ≠ .null) : c.option.Lawful where
  fits
    | none => .null
    | some a => h.fits a
  decode_encode
    | none => rfl
    | some a => by
      have hread := h.decode_encode a
      have hne := hnull a
      unfold Codec.option
      dsimp only
      -- decoding an option looks at the node before the codec does
      cases hj : c.encode a with
      | null => exact absurd hj hne
      | _ =>
        rw [hj] at hread
        simp only [Node.ofJson] at hread ⊢
        rw [hread]
        rfl

lemma mapM_decode (h : c.Lawful) (as : List α) :
    (Node.ofItems (as.map c.encode)).mapM (c.decode .document) = .ok as := by
  induction as with
  | nil => rfl
  | cons a as ih =>
    rw [List.map_cons, Node.ofItems, List.mapM_cons, h.decode_encode, ih]
    rfl

lemma Lawful.list (h : c.Lawful) : c.list.Lawful where
  fits as := .arr (List.forall_mem_map.2 fun a _ => h.fits a)
  decode_encode as := by
    show (do
      let as ← (Node.ofItems (as.map c.encode)).mapM (c.decode .document)
      stopAt none
      return as) = .ok as
    rw [mapM_decode h]
    rfl

lemma Lawful.array (h : c.Lawful) : c.array.Lawful where
  fits as := h.list.fits as.toList
  decode_encode as := by
    show (c.list.decode .document (.ofJson (c.list.encode as.toList))).map List.toArray = .ok as
    rw [h.list.decode_encode]
    rfl

lemma Lawful.checked (h : c.Lawful) {parts : β → α} {of : α → Except TableError β}
    (hof : ∀ b, of (parts b) = .ok b) : (c.checked parts of).Lawful where
  fits b := h.fits (parts b)
  decode_encode b := by
    simp only [Codec.checked, h.decode_encode, bind, Except.bind, hof]
    rfl

lemma Lawful.map (h : c.Lawful) {parts : β → α} {of : α → β} (hof : ∀ b, of (parts b) = b) :
    (c.map parts of).Lawful :=
  h.checked fun b => congrArg Except.ok (hof b)

end Codec

/-! ### Records -/

namespace Fields

def names : {π τ : Type} → Fields π τ → List String
  | _, _, .nil => []
  | _, _, .cons field rest => field.name :: rest.names

/-- The fields of a record are lawful if their codecs are and no two share a name. -/
inductive Lawful : {π τ : Type} → Fields π τ → Prop where
  | nil : Lawful .nil
  | cons {γ ρ σ : Type} {field : Field γ} {rest : Fields ρ σ} (codec_lawful : field.codec.Lawful)
    (name_new : field.name ∉ rest.names) (rest_lawful : Lawful rest) : Lawful (.cons field rest)

/-- All fields of a record have been found. -/
def found : {π τ : Type} → Fields π τ → τ → π
  | _, _, .nil, () => ()
  | _, _, .cons _ rest, (a, others) => (some a, rest.found others)

lemma complete_found (fields : Fields π τ) (t : τ) : fields.complete (fields.found t) = .ok t := by
  induction fields with
  | nil => rfl
  | cons field rest ih =>
    obtain ⟨a, others⟩ := t
    simp only [found, complete, bind, Except.bind, ih]
    rfl

lemma map_fst_encode (fields : Fields π τ) (t : τ) :
    (fields.encode t).map Prod.fst = fields.names := by
  induction fields with
  | nil => rfl
  | cons field rest ih =>
    obtain ⟨a, others⟩ := t
    rw [encode, List.map_cons, ih, names]

/-- Members that are not the first field are read as members of the rest. -/
lemma readMembers_cons (field : Field α) (rest : Fields π τ) (isSealed : Bool) (source : Source)
    {members : List (String × Json)} (hname : field.name ∉ members.map Prod.fst) (a? : Option α)
    (others : π) :
    (cons field rest).readMembers isSealed source (Node.ofMembers members) (a?, others) =
      (rest.readMembers isSealed source (Node.ofMembers members) others).map (a?, ·) := by
  induction members generalizing others with
  | nil => rfl
  | cons m members ih =>
    obtain ⟨key, value⟩ := m
    rw [List.map_cons, List.mem_cons, not_or] at hname
    obtain ⟨hkey, hmembers⟩ := hname
    simp only [Node.ofMembers, readMembers, Quoted.decode, bind, Except.bind, find,
      if_neg hkey]
    cases rest.find source key (Node.ofJson value) others with
    | some result =>
      cases result with
      | ok others' => exact ih hmembers others'
      | error e => rfl
    | none =>
      simp only [Option.map_none]
      cases isSealed with
      | true => rfl
      | false =>
        cases (Node.ofJson value).skip with
        | ok u => exact ih hmembers others
        | error e => rfl

/-- **Each field of a record is found** among the members that the record is written as. -/
theorem Lawful.readMembers_encode {fields : Fields π τ} (h : fields.Lawful) (isSealed : Bool)
    (t : τ) : fields.readMembers isSealed .document (Node.ofMembers (fields.encode t))
      fields.unfound = .ok (fields.found t) := by
  induction h with
  | nil => rfl
  | @cons α π τ field rest hcodec hname hrest ih =>
    obtain ⟨a, others⟩ := t
    -- the first member is the first field, and none of the others has its name
    have hnew : field.name ∉ (rest.encode others).map Prod.fst := by rwa [map_fst_encode]
    have hothers := readMembers_cons field rest isSealed .document hnew (some a) rest.unfound
    simp only [encode, Node.ofMembers, readMembers, Quoted.decode, bind, Except.bind, unfound, find,
      if_pos, hcodec.decode_encode, pure, Except.pure]
    rw [hothers, ih, found]
    rfl

lemma Lawful.fits_encode {fields : Fields π τ} (h : fields.Lawful) (t : τ) :
    ∀ m ∈ fields.encode t, Fits m.2 := by
  induction h with
  | nil => simp [encode]
  | cons hcodec _ _ ih =>
    obtain ⟨a, others⟩ := t
    rw [encode, List.forall_mem_cons]
    exact ⟨hcodec.fits a, ih others⟩

lemma Lawful.codec {fields : Fields π τ} (h : fields.Lawful) {isSealed : Bool} :
    (fields.codec isSealed).Lawful where
  fits t := .obj (h.fits_encode t)
  decode_encode t := by
    simp only [Fields.codec, Node.ofJson, decode, Node.arrange, h.readMembers_encode, bind,
      Except.bind, ObjectEnd.cut?, stopAt, complete_found]

end Fields

/-! ### Variants -/

namespace Variant

variable {variants : List (Variant α)} {name : String} {v : Variant α}

lemma decode_encode {c : Codec β} (h : c.Lawful) (f : β → α)
    (hfind : variants.find? (·.name = name) = some v)
    (hread : ∀ node, v.read .document node = (c.decode .document node).map f) (b : β) :
    decode variants .document (.ofJson (encode name (c.encode b))) = .ok (f b) := by
  simp only [encode, Node.ofJson, Node.ofMembers, decode, ofDocument, Quoted.decode, named, hfind,
    hread, h.decode_encode, bind, Except.bind]
  rfl

lemma decode_str {a : α} (h : variants.find? (·.name = name) = some ⟨name, .nothing a⟩) :
    decode variants .document (.ofJson (.str name)) = .ok a := by
  simp only [Node.ofJson, decode, plain, Quoted.decode, named, h, bind, Except.bind]

lemma fits_encode {content : Json} (h : Fits content) : Fits (encode name content) :=
  .obj (List.forall_mem_singleton.2 h)

end Variant

end Shaping.Json
