/-
CallAudit.Json.Numeral — the value of a JSON number from its digits.

The digits before and after the point are gathered into one whole number
as long as it fits in 64 bits; digits that no longer fit are dropped, and
those before the point still count as powers of ten. A number without a
point and an exponent whose digits all fit stays whole. Any other is that
whole number as a binary number, multiplied or divided by a power of ten
that is itself rounded, so a value may differ by a unit in the last place
from the decimal's nearest neighbour.
-/
import CallAudit.Json.Value

namespace CallAudit.Json

open CallAudit.Number (Binary Format)

/-- The largest unsigned 64-bit number. -/
def maxWord : Nat := 18446744073709551615

/-- The digits before the point gathered on top of `n`, and how many did
not fit. Once one does not fit, none of those after it is gathered. -/
def gatherWhole (n : Nat) : List Nat → Nat × Nat
  | [] => (n, 0)
  | d :: ds =>
    if 10 * n + d ≤ maxWord then gatherWhole (10 * n + d) ds else (n, ds.length + 1)

/-- The digits after the point gathered on top of `n`, and how many were. -/
def gatherPart (n : Nat) : List Nat → Nat × Nat
  | [] => (n, 0)
  | d :: ds =>
    if 10 * n + d ≤ maxWord then
      let (m, count) := gatherPart (10 * n + d) ds
      (m, count + 1)
    else (n, 0)

/-- A power of ten as a binary number. -/
def tenBinary (k : Nat) : Binary :=
  (Format.double.ofRatio false (Number.tenTo k) 1).getD Binary.zero

/-- A binary number times a power of ten. Powers beyond the largest there
is are taken in several divisions; each makes the number smaller by three
hundred and eight powers of ten, so a few reach zero and `fuel` is never
used up. `none` for a number too large. -/
def scaleTen : Nat → Binary → Int → Option Binary
  | 0, _, _ => some ⟨false, 0, Format.double.least⟩
  | fuel + 1, x, e =>
    if e.natAbs ≤ 308 then
      if 0 ≤ e then x.times .double (tenBinary e.natAbs) else x.over .double (tenBinary e.natAbs)
    else if x.isZero then some x
    else if 0 < e then none
    else (x.over .double (tenBinary 308)).bind fun y => scaleTen fuel y (e + 308)

/-- A sign, the digits before and after the point, and the exponent of a
number; the digits and exponent are absent where they are not written. -/
structure Numeral where
  neg : Bool
  whole : List Nat
  part : Option (List Nat)
  exp : Option Int

/-- The binary number `± n · 10 ^ e`. -/
def realOf (neg : Bool) (n : Nat) (e : Int) : Option Number :=
  (Format.double.ofRatio false n 1).bind fun x =>
    (scaleTen 8 x e).map fun y => .real { y with neg := neg }

/-- The number a numeral stands for, none if it is out of range. A minus
sign before zero, or before a number whose negative does not fit in 64
bits, makes a binary number. -/
def Numeral.value (x : Numeral) : Option Number :=
  let (n, dropped) := gatherWhole 0 x.whole
  match x.part, x.exp with
  | none, none =>
    if 0 < dropped then realOf x.neg n dropped
    else if !x.neg then some (.whole n)
    else if 0 < n ∧ n ≤ 9223372036854775808 then some (.whole (-n))
    else realOf true n 0
  | part, exp =>
    let (m, taken) := gatherPart n (part.getD [])
    realOf x.neg m (dropped - taken + exp.getD 0)

end CallAudit.Json
