/-
CallAudit.Text.Utf16 — units of sixteen bits as text.

* `isLead`, `isTrail`, `join` — the two halves of a surrogate pair and the
  character they stand for.
* `units` — bytes as units, with either byte first.
* `ofUnits` — units as text; what is no character is replaced by U+FFFD.
-/

namespace CallAudit.Text.Utf16

/-- Whether a unit is the first half of a surrogate pair. -/
def isLead (u : Nat) : Bool :=
  0xD800 ≤ u && u ≤ 0xDBFF

/-- Whether a unit is the second half of a surrogate pair. -/
def isTrail (u : Nat) : Bool :=
  0xDC00 ≤ u && u ≤ 0xDFFF

/-- The character of a surrogate pair. -/
def join (lead trail : Nat) : Char :=
  Char.ofNat ((lead - 0xD800) * 1024 + (trail - 0xDC00) + 0x10000)

/-- Bytes as units; `none` is a byte that is left over at the end. -/
def units (bigEndian : Bool) : List UInt8 → List (Option Nat)
  | [] => []
  | [_] => [none]
  | a :: b :: rest =>
    let u := if bigEndian then 256 * a.toNat + b.toNat else 256 * b.toNat + a.toNat
    some u :: units bigEndian rest

/-- Units as text. `lead` is the first half of a pair whose second half has
to follow at once. A half without the other is replaced by U+FFFD, and so is
what is left over at the end, together with a first half before it. -/
def ofUnits : Option Nat → List (Option Nat) → List Char
  | none, [] => []
  | some _, [] => ['\uFFFD']
  | _, none :: rest => '\uFFFD' :: ofUnits none rest
  | none, some u :: rest =>
    if isLead u then ofUnits (some u) rest
    else if isTrail u then '\uFFFD' :: ofUnits none rest
    else Char.ofNat u :: ofUnits none rest
  | some lead, some u :: rest =>
    if isTrail u then join lead u :: ofUnits none rest
    else if isLead u then '\uFFFD' :: ofUnits (some u) rest
    else '\uFFFD' :: Char.ofNat u :: ofUnits none rest

/-- Bytes as text. -/
def lossy (bigEndian : Bool) (bytes : List UInt8) : List Char :=
  ofUnits none (units bigEndian bytes)

end CallAudit.Text.Utf16
