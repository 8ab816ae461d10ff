/-
CallAudit.Json.Stored — JSON values as a table holds them.

A table takes any JSON value: a number may have any number of digits, and
arrays and objects nest as deep as they like. Whoever asks for the value is
sent its text and has to read it, and a reader has limits.

* `Decimal` — a number with all its digits, zeros after the point too.
* `Stored` — a value of a table.
* `Stored.objectOf` — an object, with its members in the order of the table.
* `Stored.text` — the text that is sent.
* `Stored.memberText` — a member as text: what the table itself looks up.
* `Stored.read` — the value that is read from the text, unless it nests too
  deep or has a number that is out of range.
-/
import CallAudit.Json.Printer
import CallAudit.Json.Reader

namespace CallAudit.Json

/-! ## Numbers -/

/-- A number with all its digits: a whole number of which the last `scale`
digits stand after the point. -/
structure Decimal where
  mantissa : Int
  scale : Nat
deriving DecidableEq, Repr, Inhabited

namespace Decimal

/-- The digits before the point. -/
def whole (d : Decimal) : List Char :=
  Nat.toDigits 10 (d.mantissa.natAbs / Number.tenTo d.scale)

/-- The digits after the point, if there is one. There are as many as the
scale says. -/
def part (d : Decimal) : Option (List Char) :=
  if d.scale = 0 then none
  else
    let digits := Nat.toDigits 10 (d.mantissa.natAbs % Number.tenTo d.scale)
    some (List.replicate (d.scale - digits.length) '0' ++ digits)

/-- A number in digits, without an exponent. -/
def text (d : Decimal) : List Char :=
  (if d.mantissa < 0 then ['-'] else [])
    ++ (d.whole ++ d.part.elim [] fun digits => '.' :: digits)

end Decimal

/-! ## Values -/

/-- A JSON value as a table holds it. Of a name that is given twice the last
value counts. -/
inductive Stored where
  | null
  | bool (b : Bool)
  | number (d : Decimal)
  | string (s : String)
  | array (items : List Stored)
  | object (members : List (String × Stored))
deriving Repr, Inhabited

namespace Stored

/-- A whole number. -/
def int (n : Int) : Stored := .number ⟨n, 0⟩

/-- A value that may be absent; absent is null. -/
def ofOption {α : Type} (f : α → Stored) : Option α → Stored
  | some a => f a
  | none => .null

/-- Whether a name goes before another one: the shorter first, and of two as
long as each other the smaller. -/
def nameBefore (a b : String) : Bool :=
  a.utf8ByteSize < b.utf8ByteSize || (a.utf8ByteSize == b.utf8ByteSize && a ≤ b)

/-- A member put in its place. An older member of the name makes way. -/
def insertMember (m : String × Stored) : List (String × Stored) → List (String × Stored)
  | [] => [m]
  | k :: rest =>
    if m.1 = k.1 then m :: rest
    else if nameBefore m.1 k.1 then m :: k :: rest
    else k :: insertMember m rest

/-- An object of some members, in the order of the table. -/
def objectOf (members : List (String × Stored)) : Stored :=
  .object (members.foldl (fun ms m => insertMember m ms) [])

/-! ## Text -/

mutual

/-- The text of a value, with a space after each comma and colon. -/
def text : Stored → List Char
  | .null => ['n', 'u', 'l', 'l']
  | .bool true => ['t', 'r', 'u', 'e']
  | .bool false => ['f', 'a', 'l', 's', 'e']
  | .number d => d.text
  | .string s => quoted s
  | .array [] => ['[', ']']
  | .array (v :: rest) => '[' :: (v.text ++ itemsText rest)
  | .object [] => ['\x7b', '\x7d']
  | .object ((name, v) :: rest) =>
    '\x7b' :: (quoted name ++ ':' :: ' ' :: (v.text ++ membersText rest))

/-- The items after the first one, and the bracket. -/
def itemsText : List Stored → List Char
  | [] => [']']
  | v :: rest => ',' :: ' ' :: (v.text ++ itemsText rest)

/-- The members after the first one, and the bracket. -/
def membersText : List (String × Stored) → List Char
  | [] => ['\x7d']
  | (name, v) :: rest => ',' :: ' ' :: (quoted name ++ ':' :: ' ' :: (v.text ++ membersText rest))

end

/-! ## Members -/

/-- The member of a name. Only an object has members. -/
def get? (name : String) : Stored → Option Stored
  | .object members => (members.reverse.find? fun m => m.1 == name).map (·.2)
  | _ => none

/-- A member as text: a string as it is, any other value as its text, and
null as nothing. -/
def memberText (name : String) (v : Stored) : Option String :=
  match v.get? name with
  | none | some .null => none
  | some (.string s) => some s
  | some other => some (String.ofList other.text)

/-! ## Reading -/

/-- The value that is read from the text, within the limits of a reader. -/
def read (v : Stored) : Except Fault Value :=
  decodeText (Node.value (some 127)) (v.text.map some)

end Stored

end CallAudit.Json
