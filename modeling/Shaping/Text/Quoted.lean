import Shaping.Text.Graphic

/-!
Text in quotes, for messages: every character of the text can be told from the quoted form, also
those that show nothing.
-/

namespace Shaping.Text

def escape (c : Char) : List Char :=
  if c = '"' then ['\\', '"']
  else if c = '\\' then ['\\', '\\']
  else if c = '\n' then ['\\', 'n']
  else if c = '\r' then ['\\', 'r']
  else if c = '\t' then ['\\', 't']
  else if c = '\x00' then ['\\', '0']
  else if isGraphic c then [c]
  else ['\\', 'u', '{'] ++ Nat.toDigits 16 c.toNat ++ ['}']

def quote (cs : List Char) : String := String.ofList ('"' :: cs.flatMap escape ++ ['"'])

end Shaping.Text
