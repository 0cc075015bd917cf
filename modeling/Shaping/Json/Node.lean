import Shaping.Json.Basic

/-!
What a reader sees in a text that should be JSON. A `Node` is a value as far as the text spells it:
where the text stops being JSON, the node says how. Every text has a node, so the faults of a text
are found when its node is decoded, and of two faults the one that is met first is reported.
-/

namespace Shaping.Json

/-- How a text stops being JSON. -/
inductive Cut where
  | ended
  /-- It goes on with something that cannot stand there. -/
  | malformed
deriving DecidableEq, Repr

inductive Quoted where
  | whole (s : String)
  /-- A literal that escapes one half of a surrogate pair without the other. It spells no text,
  which matters only to those who want its text. -/
  | unpaired
  /-- A literal that breaks off: how it does for those who want its text, and for those who only
  pass over it. -/
  | torn (strict lax : Cut)
deriving DecidableEq, Repr

/-- What begins like a word or a number and breaks off. -/
inductive Torn where
  | null
  | bool
  | number
deriving DecidableEq, Repr

/-- What stands behind the members of an object. -/
inductive ObjectEnd where
  | closed
  /-- Neither a comma nor the closing brace. -/
  | cut (cut : Cut)
  /-- No string in the place of a key. -/
  | keyless (cut : Cut)
deriving DecidableEq, Repr

/-- A JSON value, as far as it goes. -/
inductive Node where
  | null
  | bool (b : Bool)
  /-- An integer that fits 64 bits, signed or unsigned. -/
  | int (n : Int)
  /-- Any other number, also zero with a minus sign. -/
  | fraction
  /-- A number too large for a double. -/
  | overflow
  | text (literal : Quoted)
  /-- The items of an array, and how it stops if no bracket closes it. -/
  | array (items : List Node) (stop : Option Cut)
  | object (members : List (Quoted × Node)) (stop : ObjectEnd)
  | missing (cut : Cut)
  | torn (what : Torn) (cut : Cut)
deriving Inhabited

/-- How a literal breaks off for those who want its text. -/
def Quoted.cut? : Quoted → Option Cut
  | .whole _ => none
  | .unpaired => some .malformed
  | .torn strict _ => some strict

namespace Node

/-- How a node breaks off in front, for a reader that looks no further than to see what it is. -/
def cut? : Node → Option Cut
  | .missing cut | .torn _ cut => some cut
  | .overflow => some .malformed
  | .text literal => literal.cut?
  | _ => none

mutual

def ofJson : Json → Node
  | .null => .null
  | .bool b => .bool b
  | .int n => .int n
  | .str s => .text (.whole s)
  | .arr items => .array (ofItems items) none
  | .obj members => .object (ofMembers members) .closed

def ofItems : List Json → List Node
  | [] => []
  | item :: rest => ofJson item :: ofItems rest

def ofMembers : List (String × Json) → List (Quoted × Node)
  | [] => []
  | (key, value) :: rest => (.whole key, ofJson value) :: ofMembers rest

end

end Node

end Shaping.Json
