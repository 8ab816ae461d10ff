/-
CallAudit.Json.Decode — decoding a node to a value of a known type.

* `Reading` — what depends on where a node comes from: a text has a limit
  of depth and is malformed where an array has too many items; a value has
  no limit and is of the wrong type.
* `Decoder` — the values of a type that a node denotes.
* `string`, `bool`, `int`, `real`, `anything`, `optional`, `list` — the
  simple decoders.
* `record` — a record, given as an object of its fields or as an array of
  them in their order. Unknown members are skipped, a field given twice is
  refused, and a field not given keeps what the record starts with.
* `variant` — a name out of a closed set, given as a string or as an object
  with that one name.
-/
import CallAudit.Json.Reader

namespace CallAudit.Json

open CallAudit.Number (Binary)

/-- What the place a node comes from decides. -/
structure Reading where
  /-- The fault of an array with more items than fields. -/
  excess : Fault
  /-- How many levels may still be entered. -/
  depth : Option Nat

/-- Reading a text. -/
def Reading.text : Reading := ⟨.malformed, some 127⟩

/-- Reading a value. -/
def Reading.value : Reading := ⟨.mismatch, none⟩

/-- Reading one level deeper. -/
def Reading.enter (r : Reading) : Except Fault Reading :=
  (deeper r.depth).map fun depth => { r with depth := depth }

/-- The values of a type that nodes denote. -/
abbrev Decoder (α : Type) := Reading → Node → Except Fault α

/-- The fault of a node that is not of the type asked for. What is wrong
with a string or a number itself is found before its type; an array or an
object is refused at its bracket. -/
def Node.other : Node → Fault
  | .absent => .early
  | .broken kept _ => kept
  | .number none => .malformed
  | .string quotation =>
    match quotation.text with
    | .error f => f
    | .ok _ => .mismatch
  | _ => .mismatch

namespace Decoder

/-! ## Simple types -/

/-- A string. -/
def string : Decoder String := fun _ node =>
  match node with
  | .string quotation => quotation.text
  | node => .error node.other

/-- A truth value. -/
def bool : Decoder Bool := fun _ node =>
  match node with
  | .bool b => .ok b
  | node => .error node.other

/-- A whole number between two bounds. -/
def int (lo hi : Int) : Decoder Int := fun _ node =>
  match node with
  | .number (some (.whole n)) => if lo ≤ n ∧ n ≤ hi then .ok n else .error .mismatch
  | node => .error node.other

/-- A signed number of 64 bits. -/
def int64 : Decoder Int := int (-9223372036854775808) 9223372036854775807

/-- A signed number of 32 bits. -/
def int32 : Decoder Int := int (-2147483648) 2147483647

/-- Any number, as a binary number. -/
def real : Decoder Binary := fun _ node =>
  match node with
  | .number (some n) => .ok n.toBinary
  | node => .error node.other

/-- Any value. -/
def anything : Decoder Value := fun r node => node.value r.depth

/-- Null, or what another decoder takes. -/
def optional {α : Type} (d : Decoder α) : Decoder (Option α) := fun r node =>
  match node with
  | .null => .ok none
  | node => (d r node).map some

/-- What a decoder made, changed by a function. -/
def map {α β : Type} (f : α → β) (d : Decoder α) : Decoder β := fun r node =>
  (d r node).map f

/-- What a decoder made, checked further. -/
def filterMap {α β : Type} (d : Decoder α) (f : α → Option β) : Decoder β := fun r node => do
  let a ← d r node
  match f a with
  | some b => .ok b
  | none => .error .mismatch

/-! ## Lists -/

/-- The items of an array, one after the other. -/
def items {α : Type} (d : Decoder α) (r : Reading) : Items → Except Fault (List α)
  | .closed => .ok []
  | .cut f => .error f
  | .cons head tail => do
    let a ← d r head
    return a :: (← items d r tail)

/-- An array. -/
def list {α : Type} (d : Decoder α) : Decoder (List α) := fun r node =>
  match node with
  | .array found => do items d (← r.enter) found
  | node => .error node.other

/-! ## Records -/

/-- A field of a record `σ`: its name, how a node sets it, and whether a
record without it is refused. -/
structure Field (σ : Type) where
  name : String
  set : Reading → Node → σ → Except Fault σ
  required : Bool := false

/-- A field that is decoded by `d` and put into the record by `put`. -/
def field {σ α : Type} (name : String) (d : Decoder α) (put : α → σ → σ) : Field σ :=
  ⟨name, fun r node s => (d r node).map fun a => put a s, false⟩

/-- A field that has to be given. -/
def needed {σ α : Type} (name : String) (d : Decoder α) (put : α → σ → σ) : Field σ :=
  { field name d put with required := true }

/-- The members of an object taken into a record one after the other, with
the names of the fields seen before. -/
def takeMembers {σ : Type} (fields : List (Field σ)) (r : Reading) :
    List String → σ → Members → Except Fault (List String × σ)
  | seen, s, .closed => .ok (seen, s)
  | _, _, .cut f => .error f
  | seen, s, .cons key value tail => do
    let name ← key.text
    match fields.find? fun f => f.name == name with
    | none =>
      match value.skip with
      | some f => .error f
      | none => takeMembers fields r seen s tail
    | some f =>
      if seen.contains name then .error .mismatch
      else takeMembers fields r (name :: seen) (← f.set r value s) tail

/-- The items of an array taken into a record, each as the field of its
place. -/
def takeItems {σ : Type} (r : Reading) :
    List (Field σ) → σ → Items → Except Fault σ
  | [], s, .closed => .ok s
  | [], _, .cut f => .error f
  | [], _, .cons _ _ => .error r.excess
  | f :: fields, s, .closed =>
    if f.required then .error .mismatch else takeItems r fields s .closed
  | _ :: _, _, .cut f => .error f
  | f :: fields, s, .cons head tail => do takeItems r fields (← f.set r head s) tail

/-- A record. -/
def record {σ : Type} (fields : List (Field σ)) (start : σ) : Decoder σ := fun r node =>
  match node with
  | .array items => do takeItems (← r.enter) fields start items
  | .object members => do
    let (seen, s) ← takeMembers fields (← r.enter) [] start members
    if fields.all fun f => !f.required || seen.contains f.name then .ok s
    else .error .mismatch
  | node => .error node.other

/-! ## Names out of a closed set -/

/-- A name, as a string or as an object that holds null under it. -/
def variant : Decoder String := fun r node =>
  match node with
  | .absent => .error .early
  | .string quotation => quotation.text
  | .object members => do
    let _ ← r.enter
    match members with
    | .closed => .error .malformed
    | .cut f => .error f
    | .cons key value tail =>
      let name ← key.text
      match value with
      | .null =>
        match tail with
        | .closed => .ok name
        | .cut f => .error f
        | .cons .. => .error .malformed
      | value => .error value.other
  | _ => .error .malformed

/-! ## Running a decoder -/

/-- What a text denotes. -/
def ofText {α : Type} (d : Decoder α) (s : String) : Except Fault α :=
  decodeText (d .text) (s.toList.map some)

/-- What some bytes denote. -/
def ofBytes {α : Type} (d : Decoder α) (bytes : List UInt8) : Except Fault α :=
  decodeText (d .text) (Text.Utf8.glyphs bytes)

/-- What a value denotes. -/
def ofValue {α : Type} (d : Decoder α) (v : Value) : Except Fault α :=
  d .value v.node

end Decoder

end CallAudit.Json
