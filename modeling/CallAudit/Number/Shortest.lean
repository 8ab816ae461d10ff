/-
CallAudit.Number.Shortest — the shortest decimal that reads back as a
binary number.

* `Format.shortest` — the fewest digits, and of those the nearest, that
  round to a number again.
* `Notation` — where such digits are written out with a point and where
  with an exponent.
* `Binary.text` — a number in a notation.
-/
import CallAudit.Number.Decimal

namespace CallAudit.Number

/-! ## Digits -/

/-- The power of ten at the head of `n / d`, for positive `n` and `d`,
searched from `guess` downwards. -/
def leadingTen (n d : Nat) : Nat → Int → Int
  | 0, guess => guess
  | fuel + 1, guess =>
    if d * tenTo guess.toNat ≤ n * tenTo (-guess).toNat then guess
    else leadingTen n d fuel (guess - 1)

/-- A decimal of `count` digits that lies between `lo` and `hi`, both over
`den`: of the two neighbours of `mid` on the grid of that many digits those
that lie between, and of two the nearer one. The ends count if `ends`. -/
def onGrid (lo mid hi den : Nat) (ends : Bool) (power : Int) : Option Nat :=
  let up := tenTo power.toNat
  let down := tenTo (-power).toNat
  let unit := den * up
  let inside (c : Nat) : Bool :=
    let v := c * unit
    if ends then lo * down ≤ v && v ≤ hi * down else lo * down < v && v < hi * down
  let c := mid * down / unit
  let under := mid * down - c * unit
  let above := (c + 1) * unit - mid * down
  match inside c && c != 0, inside (c + 1) with
  | true, true => some (if under < above || (under == above && c % 2 == 0) then c else c + 1)
  | true, false => some c
  | false, true => some (c + 1)
  | false, false => none

/-- The first grid with a decimal on it, from the coarsest on. -/
def searchGrids (lo mid hi den : Nat) (ends : Bool) : Nat → Int → Nat × Int
  | 0, power => (mid * tenTo (-power).toNat / (den * tenTo power.toNat), power)
  | fuel + 1, power =>
    match onGrid lo mid hi den ends power with
    | some c => (c, power)
    | none => searchGrids lo mid hi den ends fuel (power - 1)

/-- The shortest decimal `digits · 10 ^ exp` that rounds to a positive
number of a format. The decimals that do lie half way to the number's
neighbours; the lower neighbour of a power of two is nearer; the half ways
themselves round to the number if its mantissa is even. The first grid is
one coarser than the number's own first digit, since the power of ten above
the number may round to it; seventeen digits are enough for every number of
sixty-four bits. -/
def Format.shortest (f : Format) (x : Binary) : Nat × Int :=
  let (mid, den) := scaled (4 * x.mant) 4 x.exp
  let step := mid / (4 * x.mant)
  let narrow := x.mant == twoTo (f.bits - 1) && f.least < x.exp
  let lo := mid - step * (if narrow then 1 else 2)
  let hi := mid + step * 2
  let top := leadingTen mid den 800 ((Nat.toDigits 10 (mid / den)).length)
  searchGrids lo mid hi den (x.mant % 2 == 0) 19 (top + 1)

/-! ## Notation -/

/-- How digits are written: with a point as long as the point stands less
than `before` places before the first digit and at most `after` places
behind it, and with an exponent otherwise. -/
structure Notation where
  before : Int
  after : Int
deriving Repr

/-- Digits with a point, a zero on each side of it where no digit is. -/
def positional (digits : List Char) (point : Int) : List Char :=
  if point ≤ 0 then
    '0' :: '.' :: (List.replicate (-point).toNat '0' ++ digits)
  else if (digits.length : Int) ≤ point then
    digits ++ List.replicate (point - digits.length).toNat '0' ++ ['.', '0']
  else
    digits.take point.toNat ++ '.' :: digits.drop point.toNat

/-- Digits with an exponent, which has a sign of either kind. -/
def scientific (digits : List Char) (point : Int) : List Char :=
  let e := point - 1
  let tail := 'e' :: (if e < 0 then '-' else '+') :: Nat.toDigits 10 e.natAbs
  match digits with
  | [] => tail
  | [d] => d :: tail
  | d :: more => d :: '.' :: (more ++ tail)

/-- A number in the shortest digits that read back. -/
def Binary.text (f : Format) (style : Notation) (x : Binary) : List Char :=
  let sign := if x.neg then ['-'] else []
  if x.mant = 0 then sign ++ ['0', '.', '0']
  else
    let (value, exp) := f.shortest x
    let digits := Nat.toDigits 10 value
    let point := exp + digits.length
    sign ++
      (if -style.before < point ∧ point ≤ style.after then positional digits point
       else scientific digits point)

end CallAudit.Number
