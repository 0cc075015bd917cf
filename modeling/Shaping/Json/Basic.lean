/-!
JSON values whose numbers are integers, and their text without any blanks.
-/

namespace Shaping

/-- A JSON value. Members of an object keep their order. -/
inductive Json where
  | null
  | bool (b : Bool)
  | int (n : Int)
  | str (s : String)
  | arr (items : List Json)
  | obj (members : List (String × Json))
deriving Inhabited

namespace Json

def escape (c : Char) : List Char :=
  if c = '"' then ['\\', '"']
  else if c = '\\' then ['\\', '\\']
  else if c = '\n' then ['\\', 'n']
  else if c = '\r' then ['\\', 'r']
  else if c = '\t' then ['\\', 't']
  else if c = '\x08' then ['\\', 'b']
  else if c = '\x0c' then ['\\', 'f']
  else if c.toNat < 0x20 then
    ['\\', 'u', '0', '0', Nat.digitChar (c.toNat / 16), Nat.digitChar (c.toNat % 16)]
  else [c]

def emitString (s : String) (text : String) : String :=
  (s.toList.foldl (fun text c => (escape c).foldl String.push text) (text.push '"')).push '"'

mutual

def emit : Json → String → String
  | .null, text => text ++ "null"
  | .bool true, text => text ++ "true"
  | .bool false, text => text ++ "false"
  | .int n, text => text ++ n.repr
  | .str s, text => emitString s text
  | .arr items, text => (emitItems items (text.push '[')).push ']'
  | .obj members, text => (emitMembers members (text.push '{')).push '}'

/-- Adds the items of an array, with commas between them. -/
def emitItems : List Json → String → String
  | [], text => text
  | [item], text => emit item text
  | item :: rest, text => emitItems rest ((emit item text).push ',')

/-- Adds the members of an object, with commas between them. -/
def emitMembers : List (String × Json) → String → String
  | [], text => text
  | [(key, value)], text => emit value ((emitString key text).push ':')
  | (key, value) :: rest, text =>
    emitMembers rest ((emit value ((emitString key text).push ':')).push ',')

end

def render (j : Json) : String := j.emit ""

end Json

end Shaping
