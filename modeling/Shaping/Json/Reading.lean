import Shaping.Json.Number

/-!
Reading a text into nodes. The grammar is that of JSON, without extensions: blanks are the space,
the tab and the two line ends, a number has no leading zero, and no comma follows the last item.
Each reading function gives what it has read and the text behind it, of which there is none where
the text stops being JSON.
-/

namespace Shaping.Json

/-- Whether a character may stand between tokens. -/
def isBlank (c : Char) : Bool := c = ' ' || c = '\n' || c = '\t' || c = '\r'

/-- The text from the next token on. -/
def skipBlanks (cs : List Char) : List Char := cs.dropWhile isBlank

/-! ### Words -/

/-- The text behind an expected word. -/
def behind : (word : List Char) → List Char → Except Cut (List Char)
  | [], cs => .ok cs
  | _ :: _, [] => .error .ended
  | w :: word, c :: cs => if c = w then behind word cs else .error .malformed

/-- The node of a word, whose first letter has been read. -/
def readWord (node : Node) (what : Torn) (word : String) (cs : List Char) :
    Node × Option (List Char) :=
  match behind word.toList cs with
  | .ok rest => (node, some rest)
  | .error cut => (.torn what cut, none)

/-! ### Numbers -/

/-- One digit or more, and the text behind them. -/
def readDigits (cs : List Char) : Except Cut (List Char × List Char) :=
  match cs.span Char.isDigit with
  | ([], []) => .error .ended
  | ([], _ :: _) => .error .malformed
  | (digits, rest) => .ok (digits, rest)

/-- The digits of an integer, which do not begin with a zero unless it is the only one. -/
def readWhole (cs : List Char) : Except Cut (List Char × List Char) := do
  match ← readDigits cs with
  | ('0' :: _ :: _, _) => .error .malformed
  | read => return read

/-- The digits behind a decimal point, if there is one. -/
def readFraction : List Char → Except Cut (List Char × List Char)
  | '.' :: cs => readDigits cs
  | cs => .ok ([], cs)

def readExponent : List Char → Except Cut (Option Int × List Char)
  | 'e' :: cs | 'E' :: cs => do
    let (negative, cs) := match cs with
      | '-' :: cs => (true, cs)
      | '+' :: cs => (false, cs)
      | cs => (false, cs)
    let (digits, rest) ← readDigits cs
    -- Where an exponent does not fit 64 bits, its leading digits are more than a text has digits.
    let n : Int := (takeDigits 0 digits).1
    return (some (if negative then -n else n), rest)
  | cs => .ok (none, cs)

def readNumber (negative : Bool) (cs : List Char) : Node × Option (List Char) :=
  let read : Except Cut (Node × List Char) := do
    let (whole, cs) ← readWhole cs
    let (fraction, cs) ← readFraction cs
    let (exponent, cs) ← readExponent cs
    return (numberNode negative whole fraction exponent, cs)
  match read with
  | .ok (node, rest) => (node, some rest)
  | .error cut => (.torn .number cut, none)

/-! ### Strings -/

def hexDigit? (c : Char) : Option Nat :=
  if c.isDigit then some (c.toNat - '0'.toNat)
  else if 'a' ≤ c ∧ c ≤ 'f' then some (c.toNat - 'a'.toNat + 10)
  else if 'A' ≤ c ∧ c ≤ 'F' then some (c.toNat - 'A'.toNat + 10)
  else none

def codeUnit? (a b c d : Char) : Option Nat := do
  return 4096 * (← hexDigit? a) + 256 * (← hexDigit? b) + 16 * (← hexDigit? c) + (← hexDigit? d)

/-- The character that a backslash and a letter stand for. -/
def unescape? (c : Char) : Option Char :=
  if c = '"' || c = '\\' || c = '/' then some c
  else if c = 'n' then some '\n'
  else if c = 'r' then some '\r'
  else if c = 't' then some '\t'
  else if c = 'b' then some '\x08'
  else if c = 'f' then some '\x0c'
  else none

/-- The part of a literal that has been read. -/
structure Literal where
  text : String := ""
  /-- The first half of a surrogate pair whose second half must follow. -/
  half : Option Nat := none
  /-- Whether half a pair has been found alone. -/
  unpaired : Bool := false

namespace Literal

def torn (l : Literal) (cut : Cut) : Quoted := .torn (if l.unpaired then .malformed else cut) cut

def close (l : Literal) : Quoted :=
  if l.unpaired || l.half.isSome then .unpaired else .whole l.text

def push (l : Literal) (c : Char) : Literal :=
  { text := l.text.push c, unpaired := l.unpaired || l.half.isSome }

def pushUnit (l : Literal) (n : Nat) : Literal :=
  if 0xDC00 ≤ n ∧ n < 0xE000 then
    match l.half with
    | some h => { l with
        text := l.text.push (.ofNat (0x10000 + 0x400 * (h - 0xD800) + (n - 0xDC00))), half := none }
    | none => { l with unpaired := true }
  else if 0xD800 ≤ n ∧ n < 0xDC00 then
    { l with half := some n, unpaired := l.unpaired || l.half.isSome }
  else l.push (.ofNat n)

end Literal

def readLiteral (l : Literal) : List Char → Quoted × Option (List Char)
  | [] | ['\\'] => (l.torn .ended, none)
  | '"' :: rest => (l.close, some rest)
  | '\\' :: 'u' :: a :: b :: c :: d :: rest =>
    match codeUnit? a b c d with
    | some n => readLiteral (l.pushUnit n) rest
    | none => (l.torn .malformed, none)
  | '\\' :: 'u' :: rest =>
    -- The digits are looked for in the next four bytes, if there are so many.
    (l.torn (if (String.ofList rest).utf8ByteSize < 4 then .ended else .malformed), none)
  | '\\' :: c :: rest =>
    match unescape? c with
    | some c => readLiteral (l.push c) rest
    | none => (l.torn .malformed, none)
  | c :: rest => if c.toNat < 0x20 then (l.torn .malformed, none) else readLiteral (l.push c) rest

/-! ### Values -/

mutual

def readValue : (fuel : Nat) → List Char → Node × Option (List Char)
  | 0, _ => (.missing .ended, none)
  | fuel + 1, cs =>
    match skipBlanks cs with
    | [] => (.missing .ended, none)
    | '"' :: rest =>
      let (literal, rest?) := readLiteral {} rest
      (.text literal, rest?)
    | '[' :: rest =>
      match skipBlanks rest with
      | ']' :: rest => (.array [] none, some rest)
      | rest => readItems fuel [] rest
    | '{' :: rest =>
      match skipBlanks rest with
      | '}' :: rest => (.object [] .closed, some rest)
      | rest => readMembers fuel [] rest
    | 'n' :: rest => readWord .null .null "ull" rest
    | 't' :: rest => readWord (.bool true) .bool "rue" rest
    | 'f' :: rest => readWord (.bool false) .bool "alse" rest
    | '-' :: rest => readNumber true rest
    | c :: rest =>
      if c.isDigit then readNumber false (c :: rest) else (.missing .malformed, none)

/-- The items of an array, behind those that are `done`, newest first. -/
def readItems : (fuel : Nat) → (done : List Node) → List Char → Node × Option (List Char)
  | 0, done, _ => (.array done.reverse (some .ended), none)
  | fuel + 1, done, cs =>
    match readValue fuel cs with
    | (item, none) => (.array (item :: done).reverse none, none)
    | (item, some rest) =>
      match skipBlanks rest with
      | ',' :: rest => readItems fuel (item :: done) rest
      | ']' :: rest => (.array (item :: done).reverse none, some rest)
      | [] => (.array (item :: done).reverse (some .ended), none)
      | _ :: _ => (.array (item :: done).reverse (some .malformed), none)

/-- The members of an object, behind those that are `done`, newest first. -/
def readMembers : (fuel : Nat) → (done : List (Quoted × Node)) → List Char →
    Node × Option (List Char)
  | 0, done, _ => (.object done.reverse (.cut .ended), none)
  | fuel + 1, done, cs =>
    match skipBlanks cs with
    | '"' :: rest =>
      match readLiteral {} rest with
      | (key, none) => (.object ((key, .missing .ended) :: done).reverse (.cut .ended), none)
      | (key, some rest) =>
        match skipBlanks rest with
        | ':' :: rest =>
          match readValue fuel rest with
          | (value, none) => (.object ((key, value) :: done).reverse (.cut .ended), none)
          | (value, some rest) =>
            match skipBlanks rest with
            | ',' :: rest => readMembers fuel ((key, value) :: done) rest
            | '}' :: rest => (.object ((key, value) :: done).reverse .closed, some rest)
            | [] => (.object ((key, value) :: done).reverse (.cut .ended), none)
            | _ :: _ => (.object ((key, value) :: done).reverse (.cut .malformed), none)
        | [] => (.object ((key, .missing .ended) :: done).reverse (.cut .ended), none)
        | _ :: _ => (.object ((key, .missing .malformed) :: done).reverse (.cut .malformed), none)
    | [] => (.object done.reverse (.keyless .ended), none)
    | _ :: _ => (.object done.reverse (.keyless .malformed), none)

end

/-- A text: its value, and whether anything stands behind it. -/
structure Document where
  root : Node
  surplus : Bool

/-- Reads a text. Each bracket takes two units of fuel and each comma one. -/
def Document.ofText (text : String) : Document :=
  let cs := text.toList
  let (root, rest?) := readValue (2 * cs.length + 1) cs
  ⟨root, rest?.any fun rest => !(skipBlanks rest).isEmpty⟩

end Shaping.Json
