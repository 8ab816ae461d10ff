/-
CallAudit.Admission — the calls in hand.

* `Guard` — the set of the calls that are being worked on. A call is
  admitted unless it is in the set, and released by taking it out.
* `Slots` — a guard with admissions that are kept under names. An
  admission releases its call when it is dropped, whoever has the call in
  hand by then: the set knows calls and not who admitted them.
-/

namespace CallAudit

/-! ## The guard -/

/-- A set of calls, each of which it holds once. -/
structure Guard where
  calls : List String
  distinct : calls.Nodup := by decide

namespace Guard

/-- No call in hand. -/
def empty : Guard := ⟨[], .nil⟩

instance : Inhabited Guard := ⟨empty⟩

/-- Whether a call is in hand. -/
def holds (g : Guard) (call : String) : Bool :=
  g.calls.contains call

/-- The number of calls in hand. -/
def size (g : Guard) : Nat :=
  g.calls.length

/-- The guard with a call in hand that was not. -/
def admit? (g : Guard) (call : String) : Option Guard :=
  if h : call ∈ g.calls then none
  else some ⟨call :: g.calls, List.nodup_cons.2 ⟨h, g.distinct⟩⟩

/-- The guard without a call. -/
def release (g : Guard) (call : String) : Guard :=
  ⟨g.calls.filter (· != call), g.distinct.filter _⟩

/-- The guard after a call was admitted, if it could be, for the length of
a task that ends at once, well or badly. -/
def visit (g : Guard) (call : String) : Guard :=
  match g.admit? call with
  | some g => g.release call
  | none => g

end Guard

/-! ## Admissions under names -/

/-- A guard, and admissions kept in slots. A slot keeps one admission. -/
structure Slots where
  guard : Guard
  kept : List (String × String)

namespace Slots

/-- No call in hand and no slot taken. -/
def empty : Slots := ⟨.empty, []⟩

/-- The call admitted in a slot. -/
def call? (s : Slots) (slot : String) : Option String :=
  (s.kept.find? fun k => k.1 == slot).map (·.2)

/-- The slots with a slot cleared: its admission is dropped, which takes
the call out of the set. A slot that is free stays so. -/
def drop (s : Slots) (slot : String) : Slots :=
  match s.call? slot with
  | some call => ⟨s.guard.release call, s.kept.filter (·.1 != slot)⟩
  | none => s

/-- The slots with a call admitted in a slot, if it can be admitted. An
admission that was in the slot is dropped after that. -/
def admit? (s : Slots) (slot call : String) : Option Slots :=
  (s.guard.admit? call).map fun guard =>
    let s := { s with guard := guard }.drop slot
    { s with kept := (slot, call) :: s.kept }

end Slots

end CallAudit
