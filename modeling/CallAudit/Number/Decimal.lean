/-
CallAudit.Number.Decimal — numbers written in decimal.

* `digitsValue` — the value of a run of digits.
* `int?` — a whole number with an optional sign, within bounds.
* `Real` and `real?` — a number with an optional sign, fraction and
  exponent, or one of the words for infinity and for no number.
* `Format.ofReal` — the number of a binary format nearest to a decimal.
-/
import CallAudit.Number.Binary
import CallAudit.Text.Fold

namespace CallAudit.Number

/-! ## Whole numbers -/

/-- Whether a character is one of the ten ASCII digits. -/
def isDigit (c : Char) : Bool :=
  '0' ≤ c && c ≤ '9'

/-- The value of an ASCII digit. -/
def digitValue (c : Char) : Nat :=
  c.toNat - 48

/-- The value of a run of digits, the first one the greatest. -/
def digitsValue (ds : List Char) : Nat :=
  ds.foldl (fun n d => 10 * n + digitValue d) 0

/-- The value of a text that is one digit or more and nothing else. -/
def nat? (cs : List Char) : Option Nat :=
  if !cs.isEmpty && cs.all isDigit then some (digitsValue cs) else none

/-- A whole number between `lo` and `hi`: digits after an optional sign. A
minus sign is refused, even before zero, where no number is negative. -/
def int? (lo hi : Int) (cs : List Char) : Option Int :=
  let value : Option Int :=
    match cs with
    | '+' :: ds => (nat? ds).map Int.ofNat
    | '-' :: ds => if lo < 0 then (nat? ds).map fun n => -(n : Int) else none
    | ds => (nat? ds).map Int.ofNat
  value.filter fun n => lo ≤ n && n ≤ hi

/-! ## Numbers with a fraction -/

/-- A number as written: `± digits · 10 ^ exp`, an infinity, or no
number. -/
inductive Real where
  | finite (neg : Bool) (digits : Nat) (exp : Int)
  | infinite (neg : Bool)
  | nan
deriving DecidableEq, Repr

/-- The exponent after a mantissa: nothing, or a letter `e` with a whole
number of either sign. -/
def exponent? (cs : List Char) : Option Int :=
  match cs with
  | [] => some 0
  | c :: rest =>
    if c = 'e' ∨ c = 'E' then
      match rest with
      | '+' :: ds => (nat? ds).map Int.ofNat
      | '-' :: ds => (nat? ds).map fun n => -(n : Int)
      | ds => (nat? ds).map Int.ofNat
    else none

/-- A number without its sign: digits with an optional point among, before
or after them and an optional exponent, or a word. -/
def magnitude? (neg : Bool) (cs : List Char) : Option Real :=
  let lower := cs.map Text.foldCase
  if lower = "inf".toList ∨ lower = "infinity".toList then some (.infinite neg)
  else if lower = "nan".toList then some .nan
  else
    let whole := cs.takeWhile isDigit
    let rest := cs.dropWhile isDigit
    let (part, rest) :=
      match rest with
      | '.' :: more => (more.takeWhile isDigit, more.dropWhile isDigit)
      | _ => ([], rest)
    if whole.isEmpty && part.isEmpty then none
    else
      (exponent? rest).map fun e =>
        .finite neg (digitsValue (whole ++ part)) (e - part.length)

/-- A number with an optional sign. -/
def real? (cs : List Char) : Option Real :=
  match cs with
  | '+' :: rest => magnitude? false rest
  | '-' :: rest => magnitude? true rest
  | rest => magnitude? false rest

/-- The number of a binary format nearest to a number as written. `none`
for what is not finite, or not finite once it is rounded. -/
def Format.ofReal (f : Format) : Real → Option Binary
  | .finite neg digits exp => f.ofDecimal neg digits exp
  | .infinite _ => none
  | .nan => none

end CallAudit.Number
