import Shaping.Json.Reading
import Shaping.Table.Error

/-!
Decoding nodes, and codecs, which say how a value is written as JSON and how it is read back. A
decoder reports the first fault it meets: the items of an array are met in order, and a value is
only looked into if it is of the wanted kind.
-/

namespace Shaping.Json

/-- Where a node comes from. A document is decoded while it is read, so its members are met in the
order in which they are written. A value in memory has distinct members, in the order of their
keys. -/
inductive Source where
  | document
  | memory
deriving DecidableEq, Repr

inductive DecodeError where
  | table (e : TableError)
  /-- A value is not of the wanted kind, or out of range, or absent. -/
  | shape
  | cut (cut : Cut)
deriving DecidableEq, Repr

def DecodeError.message : DecodeError → String
  | .table e => e.message
  | .shape => "unexpected value"
  | .cut .ended => "unexpected end of text"
  | .cut .malformed => "malformed text"

/-- A way to read values of a type. -/
abbrev Decoder (α : Type) := Source → Node → Except DecodeError α

/-- The error for a node that is not of the wanted kind. -/
def Node.misfit (node : Node) : DecodeError :=
  match node.cut? with
  | some cut => .cut cut
  | none => .shape

def stopAt : Option Cut → Except DecodeError Unit
  | some cut => .error (.cut cut)
  | none => .ok ()

def Quoted.decode (literal : Quoted) : Except DecodeError String :=
  match literal with
  | .whole s => .ok s
  | .unpaired => .error (.cut .malformed)
  | .torn strict _ => .error (.cut strict)

/-- How the end of the members breaks an object. -/
def ObjectEnd.cut? : ObjectEnd → Option Cut
  | .closed => none
  | .cut c | .keyless c => some c

namespace Node

def skipLiteral : Quoted → Except DecodeError Unit
  | .torn _ lax => .error (.cut lax)
  | .whole _ | .unpaired => .ok ()

mutual

/-- Passes over a value, which only has to be complete. -/
def skip : Node → Except DecodeError Unit
  | .null | .bool _ | .int _ | .fraction | .overflow => .ok ()
  | .text literal => skipLiteral literal
  | .array items stop => do
    skipItems items
    stopAt stop
  | .object members stop => do
    skipMembers members
    stopAt stop.cut?
  | .missing cut | .torn .null cut | .torn .bool cut => .error (.cut cut)
  | .torn .number _ => .error (.cut .malformed)

def skipItems : List Node → Except DecodeError Unit
  | [] => .ok ()
  | item :: rest => do
    skip item
    skipItems rest

def skipMembers : List (Quoted × Node) → Except DecodeError Unit
  | [] => .ok ()
  | (key, value) :: rest => do
    skipLiteral key
    skip value
    skipMembers rest

end

/-- Puts a member of an object in memory among those in front of it, in the order of keys and in the
place of a member with the same key. -/
def placeMember (key : String) (value : Node) : List (Quoted × Node) → List (Quoted × Node)
  | [] => [(.whole key, value)]
  | (.whole k, v) :: rest =>
    if key < k then (.whole key, value) :: (.whole k, v) :: rest
    else if key = k then (.whole key, value) :: rest
    else (.whole k, v) :: placeMember key value rest
  | member :: rest => member :: placeMember key value rest

/-- The members of an object in the order in which they are met. -/
def arrange : Source → List (Quoted × Node) → List (Quoted × Node)
  | .document, members => members
  | .memory, members => members.foldl (fun met (key, value) =>
      match key with
      | .whole k => placeMember k value met
      | _ => met) []

end Node

/-! ### Codecs -/

/-- How values of a type are written as JSON, and how they are read. -/
structure Codec (α : Type) where
  encode : α → Json
  decode : Decoder α

namespace Codec

def int (lo hi : Int) : Codec Int where
  encode n := .int n
  decode _ node :=
    match node with
    | .int n => if lo ≤ n ∧ n ≤ hi then .ok n else .error .shape
    | node => .error node.misfit

/-- Values that stand for integers from `lo` to `hi`. -/
def ofInt {α : Type} (lo hi : Int) (toInt : α → Int) (ofInt : Int → α) : Codec α where
  encode a := .int (toInt a)
  decode source node := (int lo hi).decode source node |>.map ofInt

def uint16 : Codec UInt16 := ofInt 0 65535 (·.toNat) fun n => .ofNat n.toNat

def int16 : Codec Int16 := ofInt (-32768) 32767 (·.toInt) .ofInt

def uint64 : Codec UInt64 := ofInt 0 18446744073709551615 (·.toNat) fun n => .ofNat n.toNat

def bool : Codec Bool where
  encode b := .bool b
  decode _ node :=
    match node with
    | .bool b => .ok b
    | node => .error node.misfit

/-- Values that may be absent, which is written as null. -/
def option {α : Type} (c : Codec α) : Codec (Option α) where
  encode
    | some a => c.encode a
    | none => .null
  decode source node :=
    match node with
    | .null => .ok none
    | .torn .null cut => .error (.cut cut)
    | node => (c.decode source node).map some

def list {α : Type} (c : Codec α) : Codec (List α) where
  encode as := .arr (as.map c.encode)
  decode source node :=
    match node with
    | .array items stop => do
      let as ← items.mapM (c.decode source)
      stopAt stop
      return as
    | node => .error node.misfit

def array {α : Type} (c : Codec α) : Codec (Array α) where
  encode as := c.list.encode as.toList
  decode source node := (c.list.decode source node).map List.toArray

/-- The values `of` makes of what `c` reads, if it accepts it. -/
def checked {α β : Type} (c : Codec α) (parts : β → α) (of : α → Except TableError β) :
    Codec β where
  encode b := c.encode (parts b)
  decode source node := do
    let a ← c.decode source node
    match of a with
    | .ok b => return b
    | .error e => throw (.table e)

/-- The values that `of` makes of what `c` reads. -/
def map {α β : Type} (c : Codec α) (parts : β → α) (of : α → β) : Codec β :=
  c.checked parts fun a => .ok (of a)

end Codec

end Shaping.Json
