import Shaping.Json.Record

/-!
Variants: values of one of several named forms. A form without content is written as its name, any
other as an object whose only key is the name.
-/

namespace Shaping.Json

/-- What a variant holds. -/
inductive Content (α : Type) where
  | nothing (a : α)
  | value (decode : Decoder α)
  /-- Fields. Only in a document may they be given as an array. -/
  | fields (decode : Decoder α)

structure Variant (α : Type) where
  name : String
  content : Content α

namespace Variant

def read {α : Type} (v : Variant α) : Decoder α := fun source node =>
  match v.content, source, node with
  | .nothing a, _, .null => .ok a
  | .nothing _, _, node => .error node.misfit
  | .value decode, source, node => decode source node
  | .fields _, .memory, .array .. => .error .shape
  | .fields decode, source, node => decode source node

def named {α : Type} (variants : List (Variant α)) (name : String) :
    Except DecodeError (Variant α) :=
  match variants.find? (·.name = name) with
  | some v => .ok v
  | none => .error .shape

def plain {α : Type} (variants : List (Variant α)) (name : String) : Except DecodeError α := do
  match (← named variants name).content with
  | .nothing a => .ok a
  | _ => .error .shape

/-- The variant that an object in a document spells. -/
def ofDocument {α : Type} (variants : List (Variant α)) (members : List (Quoted × Node))
    (stop : ObjectEnd) : Except DecodeError α := do
  match members, stop with
  | [], .closed => .error (.cut .malformed)
  | [], .cut cut | [], .keyless cut => .error (.cut cut)
  | (key, value) :: rest, stop =>
    let v ← named variants (← key.decode)
    let a ← v.read .document value
    match rest, stop with
    | [], .closed => return a
    | [], .cut cut => .error (.cut cut)
    | _, _ => .error (.cut .malformed)

/-- The variant that an object in memory spells. -/
def ofMemory {α : Type} (variants : List (Variant α)) (members : List (Quoted × Node)) :
    Except DecodeError α :=
  match Node.arrange .memory members with
  | [(key, value)] => do
    let v ← named variants (← key.decode)
    v.read .memory value
  | _ => .error .shape

def decode {α : Type} (variants : List (Variant α)) : Decoder α
  | _, .text literal => do plain variants (← literal.decode)
  | .document, .object members stop => ofDocument variants members stop
  | .memory, .object members _ => ofMemory variants members
  | _, .missing cut => .error (.cut cut)
  | .document, _ => .error (.cut .malformed)
  | .memory, _ => .error .shape

def encode (name : String) (content : Json) : Json := .obj [(name, content)]

end Variant

end Shaping.Json
