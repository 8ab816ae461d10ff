/-
CallAudit.Json.Node — a JSON text as far as it can be read.

A text is read once, from left to right, into a `Node`; what the text is
decoded to is decided afterwards, on the node. Where the text stops being
JSON the node stops too, and what is decoded from a node fails on the first
thing that is wrong, in the order of the text: a member of the wrong type
before the end of an object is found first, a missing bracket after it
later.

* `Fault` — the three ways decoding fails.
* `Quotation` — a string, or what stands where a name has to stand.
* `Node` — a value. A value that is only skipped is looked at less closely
  than one that is kept, so a node carries both verdicts where they differ.
* `Node.skip` — the fault of a node that is skipped.
* `Node.value` — the value of a node that is kept, within a depth.
* `Value.node` — a value as the node of a text that denotes it.
-/
import CallAudit.Json.Numeral

namespace CallAudit.Json

/-- Why a text does not decode. -/
inductive Fault where
  /-- The text ends before the value does. -/
  | early
  /-- The text is not JSON. -/
  | malformed
  /-- The value is JSON but not of the type asked for. -/
  | mismatch
deriving DecidableEq, Repr, Inhabited

/-- A string as far as it can be read. -/
inductive Quotation where
  /-- A string with an end; the fault of one that has no text, which only a
  string that is kept can have. -/
  | whole (text : Except Fault String)
  /-- A string without an end, or none at all; the fault when it is kept
  and the fault when it is skipped. -/
  | torn (kept skipped : Fault)

/-- The text of a string that is kept. -/
def Quotation.text : Quotation → Except Fault String
  | whole text => text
  | torn kept _ => .error kept

/-- The fault of a string that is skipped. -/
def Quotation.skip : Quotation → Option Fault
  | whole _ => none
  | torn _ skipped => some skipped

mutual

/-- A JSON value as far as it can be read. -/
inductive Node where
  /-- The text ends where a value should begin. -/
  | absent
  /-- Something begins that is no value; the fault when the value is kept
  and the fault when it is skipped. -/
  | broken (kept skipped : Fault)
  | null
  | bool (b : Bool)
  /-- A number; none if it is out of range, which only a number that is
  kept can be. -/
  | number (n : Option Number)
  | string (quotation : Quotation)
  | array (items : Items)
  | object (members : Members)

/-- The items of an array. -/
inductive Items where
  | closed
  /-- No comma and no bracket follows. -/
  | cut (f : Fault)
  | cons (head : Node) (tail : Items)

/-- The members of an object. -/
inductive Members where
  | closed
  /-- No comma and no bracket follows. -/
  | cut (f : Fault)
  | cons (key : Quotation) (value : Node) (tail : Members)

end

instance : Inhabited Node := ⟨.absent⟩

/-! ## Skipping -/

mutual

/-- The first fault of a node that is skipped. Neither the depth of the
node nor the text of its strings nor the size of its numbers matters. -/
def Node.skip : Node → Option Fault
  | .absent => some .early
  | .broken _ skipped => some skipped
  | .null | .bool _ | .number _ => none
  | .string quotation => quotation.skip
  | .array items => items.skip
  | .object members => members.skip

/-- The first fault of items that are skipped. -/
def Items.skip : Items → Option Fault
  | .closed => none
  | .cut f => some f
  | .cons head tail => head.skip.or tail.skip

/-- The first fault of members that are skipped. -/
def Members.skip : Members → Option Fault
  | .closed => none
  | .cut f => some f
  | .cons key value tail => key.skip.or (value.skip.or tail.skip)

end

/-! ## Keeping -/

/-- One level less of depth, if there is a limit. A text may nest 127
levels in a value that is kept. -/
def deeper : Option Nat → Except Fault (Option Nat)
  | none => .ok none
  | some 0 => .error .malformed
  | some (n + 1) => .ok (some n)

mutual

/-- The value of a node. -/
def Node.value (depth : Option Nat) : Node → Except Fault Value
  | .absent => .error .early
  | .broken kept _ => .error kept
  | .null => .ok .null
  | .bool b => .ok (.bool b)
  | .number (some n) => .ok (.number n)
  | .number none => .error .malformed
  | .string quotation => quotation.text.map .string
  | .array items => do
    let depth ← deeper depth
    return .array (← items.values depth)
  | .object members => do
    let depth ← deeper depth
    return .object (← members.values depth [])

/-- The values of items. -/
def Items.values (depth : Option Nat) : Items → Except Fault (List Value)
  | .closed => .ok []
  | .cut f => .error f
  | .cons head tail => do
    let v ← head.value depth
    return v :: (← tail.values depth)

/-- The members of an object on top of those before them; of a name given
twice the last value stays. -/
def Members.values (depth : Option Nat) (before : List (String × Value)) :
    Members → Except Fault (List (String × Value))
  | .closed => .ok before
  | .cut f => .error f
  | .cons key value tail => do
    let name ← key.text
    let v ← value.value depth
    tail.values depth (Value.put before name v)

end

/-! ## Values as nodes -/

mutual

/-- A value as a node. -/
def Value.node : Value → Node
  | .null => .null
  | .bool b => .bool b
  | .number n => .number (some n)
  | .string s => .string (.whole (.ok s))
  | .array items => .array (itemNodes items)
  | .object members => .object (memberNodes members)

/-- Values as the items of an array. -/
def itemNodes : List Value → Items
  | [] => .closed
  | v :: rest => .cons v.node (itemNodes rest)

/-- Named values as the members of an object. -/
def memberNodes : List (String × Value) → Members
  | [] => .closed
  | (name, v) :: rest => .cons (.whole (.ok name)) v.node (memberNodes rest)

end

end CallAudit.Json
