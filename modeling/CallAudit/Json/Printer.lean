/-
CallAudit.Json.Printer — the text of a JSON value.

* `quoted` — a string in quotes. Quotes, backslashes and control characters
  are escaped, all other characters stand for themselves.
* `Number.text` — a whole number in digits; a binary number in the shortest
  digits that read back, with an exponent from ten to the sixteenth up and
  below a hundred thousandth.
* `Value.text` — a value without white space.
* `Value.ordered` — a value with the members of each object by name.
-/
import CallAudit.Json.Value
import CallAudit.Number.Shortest

namespace CallAudit.Json

open CallAudit.Number (Binary Format Notation)

/-! ## Strings and numbers -/

/-- A hexadecimal digit in small letters. -/
def hexDigit (n : Nat) : Char :=
  if n < 10 then Char.ofNat (48 + n) else Char.ofNat (87 + n)

/-- A character within quotes. -/
def escape (c : Char) : List Char :=
  if c = '"' then ['\\', '"']
  else if c = '\\' then ['\\', '\\']
  else if c = '\x08' then ['\\', 'b']
  else if c = '\x0c' then ['\\', 'f']
  else if c = '\n' then ['\\', 'n']
  else if c = '\r' then ['\\', 'r']
  else if c = '\t' then ['\\', 't']
  else if c.toNat < 32 then
    ['\\', 'u', '0', '0', hexDigit (c.toNat / 16), hexDigit (c.toNat % 16)]
  else [c]

/-- A string in quotes. -/
def quoted (s : String) : List Char :=
  '"' :: (s.toList.flatMap escape ++ ['"'])

/-- Where binary numbers are written with a point. -/
def realNotation : Notation := ⟨5, 16⟩

/-- The digits of a whole number, after a minus sign if it is negative. -/
def intText (n : Int) : List Char :=
  if n < 0 then '-' :: Nat.toDigits 10 n.natAbs else Nat.toDigits 10 n.natAbs

/-- A number. -/
def Number.text : Number → List Char
  | .whole n => intText n
  | .real x => x.text .double realNotation

/-! ## Values -/

mutual

/-- A value. -/
def Value.text : Value → List Char
  | .null => ['n', 'u', 'l', 'l']
  | .bool true => ['t', 'r', 'u', 'e']
  | .bool false => ['f', 'a', 'l', 's', 'e']
  | .number n => n.text
  | .string s => quoted s
  | .array [] => ['[', ']']
  | .array (v :: rest) => '[' :: (v.text ++ itemsText rest)
  | .object [] => ['\x7b', '\x7d']
  | .object ((name, v) :: rest) =>
    '\x7b' :: (quoted name ++ ':' :: (v.text ++ membersText rest))

/-- The items after the first one, and the bracket. -/
def itemsText : List Value → List Char
  | [] => [']']
  | v :: rest => ',' :: (v.text ++ itemsText rest)

/-- The members after the first one, and the bracket. -/
def membersText : List (String × Value) → List Char
  | [] => ['\x7d']
  | (name, v) :: rest => ',' :: (quoted name ++ ':' :: (v.text ++ membersText rest))

end

/-- The text of a value. -/
def Value.compact (v : Value) : String :=
  String.ofList v.text

/-! ## Order of members -/

/-- A member put before the first one with a greater name. -/
def insertByName (name : String) (v : Value) : List (String × Value) → List (String × Value)
  | [] => [(name, v)]
  | (k, w) :: rest =>
    if name ≤ k then (name, v) :: (k, w) :: rest else (k, w) :: insertByName name v rest

mutual

/-- A value with the members of every object in the order of their
names. -/
def Value.ordered : Value → Value
  | .array items => .array (orderedItems items)
  | .object members => .object (orderedMembers members)
  | v => v

/-- Values, each ordered. -/
def orderedItems : List Value → List Value
  | [] => []
  | v :: rest => v.ordered :: orderedItems rest

/-- Members in the order of their names, each ordered. -/
def orderedMembers : List (String × Value) → List (String × Value)
  | [] => []
  | (name, v) :: rest => insertByName name v.ordered (orderedMembers rest)

end

end CallAudit.Json
