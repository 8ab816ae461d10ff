/-
CallAudit.Json.Value — JSON values.

* `Number` — a number is a whole number when it is written as one and fits
  in 64 bits, signed or unsigned, and a binary number of 64 bits otherwise.
* `Value` — a JSON value. The members of an object have distinct names;
  their order is the order of first appearance and means nothing.
* `put`, `get?` — setting and finding a member; the last value set wins.
-/
import CallAudit.Number.Binary

namespace CallAudit.Json

open CallAudit.Number (Binary Format saturate64)

/-- A JSON number. -/
inductive Number where
  | whole (n : Int)
  | real (x : Binary)
deriving DecidableEq, Repr, Inhabited

/-- The whole number, if the number is one in the range of signed 64-bit
numbers. -/
def Number.int64? : Number → Option Int
  | .whole n => if -9223372036854775808 ≤ n ∧ n ≤ 9223372036854775807 then some n else none
  | .real _ => none

/-- The number as a binary number of 64 bits; a whole number of 64 bits is
never out of range. -/
def Number.toBinary : Number → Binary
  | .whole n => (Format.double.ofRatio (n < 0) n.natAbs 1).getD Binary.zero
  | .real x => x

/-- A JSON value. -/
inductive Value where
  | null
  | bool (b : Bool)
  | number (n : Number)
  | string (s : String)
  | array (items : List Value)
  | object (members : List (String × Value))
deriving Repr, Inhabited

namespace Value

/-- A whole number as a value. -/
def int (n : Int) : Value := .number (.whole n)

/-- Members with one set: an older value of the name is replaced in its
place, a new name goes last. -/
def put (members : List (String × Value)) (name : String) (v : Value) :
    List (String × Value) :=
  match members with
  | [] => [(name, v)]
  | (k, w) :: rest => if k = name then (k, v) :: rest else (k, w) :: put rest name v

/-- The member of a name. Only an object has members. -/
def get? (name : String) : Value → Option Value
  | .object members => (members.find? fun m => m.1 == name).map (·.2)
  | _ => none

/-- The text of a string. -/
def string? : Value → Option String
  | .string s => some s
  | _ => none

/-- A value that may be absent; absent is null. -/
def ofOption {α : Type} (f : α → Value) : Option α → Value
  | some a => f a
  | none => .null

end Value

end CallAudit.Json
