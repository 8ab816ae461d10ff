/-
CallAudit.Number.Binary — binary floating point numbers in exact
arithmetic.

* `Format` — how many bits a number keeps and how far its exponent goes;
  `Format.single` and `Format.double` are the two formats in use.
* `Binary` — a finite number, a sign, a whole number and a power of two.
* `Format.nearest` — the number of a format nearest to a quotient of two
  whole numbers, of two equally near ones the even one; none if the
  quotient is too large for the format.
* `Binary.times`, `Binary.over` — product and quotient, rounded.
* `Binary.truncated`, `Binary.rounded` — the whole number a number holds
  when its fraction is cut off, or rounded with halves away from zero.
* `Binary.pattern` — the bits a number is stored as.

Nothing here uses the processor's floating point, so every value can be
computed in a proof.
-/

namespace CallAudit.Number

/-! ## Powers -/

/-- A power of two. -/
abbrev twoTo (n : Nat) : Nat := Nat.pow 2 n

/-- A power of ten. -/
abbrev tenTo (n : Nat) : Nat := Nat.pow 10 n

/-! ## Formats and numbers -/

/-- A binary format: the number of significant bits, and the powers of two
of the last bit of its smallest and of its largest numbers. -/
structure Format where
  bits : Nat
  least : Int
  most : Int
deriving DecidableEq, Repr

/-- Thirty-two bits. -/
def Format.single : Format := ⟨24, -149, 104⟩

/-- Sixty-four bits. -/
def Format.double : Format := ⟨53, -1074, 971⟩

/-- A finite number `± mant · 2 ^ exp`. Zero has a sign. -/
structure Binary where
  neg : Bool
  mant : Nat
  exp : Int
deriving DecidableEq, Repr, Inhabited

/-- Zero. -/
def Binary.zero : Binary := ⟨false, 0, 0⟩

/-- Whether a number is zero, of either sign. -/
def Binary.isZero (x : Binary) : Bool :=
  x.mant == 0

/-! ## Rounding a quotient -/

/-- The whole number nearest to `n / d`; a half goes to the even one. -/
def halfEven (n d : Nat) : Nat :=
  let q := n / d
  let r := n % d
  if 2 * r < d then q
  else if d < 2 * r then q + 1
  else q + q % 2

/-- `n · 2 ^ e` over `d` as a quotient of whole numbers. -/
def scaled (n d : Nat) (e : Int) : Nat × Nat :=
  (n * twoTo e.toNat, d * twoTo (-e).toNat)

/-- The power of two at the head of `n / d`, for positive `n` and `d`. -/
def leadingPower (n d : Nat) : Int :=
  let guess : Int := (n.log2 : Int) - (d.log2 : Int)
  let (a, b) := scaled d n guess
  if a ≤ b then guess else guess - 1

/-- The mantissa and exponent of the number of a format nearest to `n / d`,
of two equally near ones the one with the even mantissa. The exponent is
the one at which the mantissa has all the format's bits, but no smaller
than the format's least. `none` if the exponent would pass the format's
largest. -/
def Format.nearest (f : Format) (n d : Nat) : Option (Nat × Int) :=
  if n = 0 then some (0, f.least)
  else
    let e := max f.least (leadingPower n d - ((f.bits : Int) - 1))
    let (a, b) := scaled n d (-e)
    let m := halfEven a b
    let (m, e) := if m = twoTo f.bits then (twoTo (f.bits - 1), e + 1) else (m, e)
    if f.most < e then none else some (m, e)

/-- The number of a format nearest to `± n / d`. -/
def Format.ofRatio (f : Format) (neg : Bool) (n d : Nat) : Option Binary :=
  (f.nearest n d).map fun (m, e) => ⟨neg, m, e⟩

/-- The number of a format nearest to `± digits · 10 ^ exp`. Far outside
the range of every format the answer needs no power of ten: zero below,
none above. -/
def Format.ofDecimal (f : Format) (neg : Bool) (digits : Nat) (exp : Int) : Option Binary :=
  if digits = 0 then some ⟨neg, 0, f.least⟩
  else
    let size : Int := (Nat.toDigits 10 digits).length + exp
    if 400 < size then none
    else if size < -400 then some ⟨neg, 0, f.least⟩
    else f.ofRatio neg (digits * tenTo exp.toNat) (tenTo (-exp).toNat)

/-! ## Arithmetic -/

/-- The absolute value of a number as a quotient of whole numbers. -/
def Binary.ratio (x : Binary) : Nat × Nat :=
  scaled x.mant 1 x.exp

/-- The product of two numbers, rounded. -/
def Binary.times (f : Format) (x y : Binary) : Option Binary :=
  let (a, b) := scaled (x.mant * y.mant) 1 (x.exp + y.exp)
  f.ofRatio (x.neg != y.neg) a b

/-- The quotient of two numbers, rounded, for a divisor that is not
zero. -/
def Binary.over (f : Format) (x y : Binary) : Option Binary :=
  let (a, b) := scaled x.mant y.mant (x.exp - y.exp)
  f.ofRatio (x.neg != y.neg) a b

/-- A whole number with a sign. -/
def signed (neg : Bool) (n : Nat) : Int :=
  if neg then -(n : Int) else n

/-- The whole number left when the fraction is cut off. -/
def Binary.truncated (x : Binary) : Int :=
  let (a, b) := x.ratio
  signed x.neg (a / b)

/-- The nearest whole number; a half goes away from zero. -/
def Binary.rounded (x : Binary) : Int :=
  let (a, b) := x.ratio
  signed x.neg ((2 * a + b) / (2 * b))

/-! ## Storage -/

/-- The bits a number is stored as: a sign bit, the exponent counted from
the format's least, and the mantissa without the leading bit that every
number but the smallest has. -/
def Binary.pattern (f : Format) (x : Binary) : Nat :=
  let hidden := twoTo (f.bits - 1)
  let low := if x.mant < hidden then x.mant
    else (x.exp - f.least + 1).toNat * hidden + (x.mant - hidden)
  if x.neg then low + twoTo (f.bits - 1 + (Nat.log2 (f.most - f.least + 2).toNat + 1)) else low

/-- A whole number brought into the range of signed 64-bit numbers. -/
def saturate64 (n : Int) : Int :=
  max (-9223372036854775808) (min 9223372036854775807 n)

end CallAudit.Number
