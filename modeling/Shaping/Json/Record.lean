import Shaping.Json.Decoder

/-!
Records: values of several named fields. A record is written as an object with all its fields in
order. It is read from an object, whose members may come in any order, or from an array of the
fields in order. A field with a default may be absent, and a field that is met twice is refused.
-/

namespace Shaping.Json

structure Field (α : Type) where
  name : String
  codec : Codec α
  default? : Option α := none

def Field.required {α : Type} (name : String) (codec : Codec α) : Field α := { name, codec }

/-- A field that has a value where it is absent. -/
def Field.optional {α : Type} (name : String) (codec : Codec α) (default : α) : Field α :=
  { name, codec, default? := some default }

/-- The fields of a record, in order. Of the two types, `τ` is the tuple of all fields, and `π` the
tuple of the fields found so far. -/
inductive Fields : (π τ : Type) → Type 1 where
  | nil : Fields Unit Unit
  | cons {α π τ : Type} (field : Field α) (rest : Fields π τ) : Fields (Option α × π) (α × τ)

namespace Fields

/-- No field has been found. -/
def unfound {π τ : Type} : Fields π τ → π
  | .nil => ()
  | .cons _ rest => (none, rest.unfound)

def absent {α : Type} (field : Field α) : Except DecodeError α :=
  match field.default? with
  | some a => .ok a
  | none => .error .shape

/-- The record of the fields that were found. -/
def complete {π τ : Type} : Fields π τ → π → Except DecodeError τ
  | .nil, () => .ok ()
  | .cons field rest, (found, others) => do
    let a ← match found with
      | some a => .ok a
      | none => absent field
    return (a, ← rest.complete others)

/-- Reads the field named `key`; there is no result if no field has this name. -/
def find {π τ : Type} (source : Source) (key : String) (value : Node) :
    Fields π τ → π → Option (Except DecodeError π)
  | .nil, () => none
  | .cons field rest, (found, others) =>
    if field.name = key then
      some <|
        match found with
        | some _ => .error .shape
        | none => do return (some (← field.codec.decode source value), others)
    else (rest.find source key value others).map fun others => others.map (found, ·)

/-- Reads the members of an object. A member that is no field is passed over, but a sealed record
refuses it. -/
def readMembers {π τ : Type} (fields : Fields π τ) (isSealed : Bool) (source : Source) :
    List (Quoted × Node) → π → Except DecodeError π
  | [], found => .ok found
  | (key, value) :: rest, found => do
    let key ← key.decode
    match fields.find source key value found with
    | some result => do
      let found ← result
      readMembers fields isSealed source rest found
    | none => do
      if isSealed then throw .shape
      value.skip
      readMembers fields isSealed source rest found

/-- Reads the items of an array as the fields, in order. -/
def readItems {π τ : Type} (source : Source) (stop : Option Cut) :
    Fields π τ → List Node → Except DecodeError τ
  | .nil, [] => stopAt stop
  | .nil, _ :: _ =>
    .error <|
      match source with
      | .document => .cut .malformed
      | .memory => .shape
  | .cons field rest, items => do
    match items with
    | item :: items =>
      let a ← field.codec.decode source item
      return (a, ← rest.readItems source stop items)
    | [] =>
      stopAt stop
      return (← absent field, ← rest.readItems source stop [])

def decode {π τ : Type} (fields : Fields π τ) (isSealed : Bool := false) : Decoder τ :=
  fun source node =>
    match node with
    | .object members stop => do
      let found ← fields.readMembers isSealed source (Node.arrange source members) fields.unfound
      stopAt stop.cut?
      fields.complete found
    | .array items stop => fields.readItems source stop items
    | node => .error node.misfit

def encode {π τ : Type} : Fields π τ → τ → List (String × Json)
  | .nil, () => []
  | .cons field rest, (a, others) => (field.name, field.codec.encode a) :: rest.encode others

/-- The codec of a record, as the tuple of its fields. -/
def codec {π τ : Type} (fields : Fields π τ) (isSealed : Bool := false) : Codec τ where
  encode t := .obj (fields.encode t)
  decode := fields.decode isSealed

end Fields

end Shaping.Json
