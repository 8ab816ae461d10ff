/-
CallAudit.Time.Calendar — dates and day numbers.

Days are counted from the first of January 1970, in the calendar that has a
leap year every four years, but none in a century not divisible by four
hundred, forwards and backwards without end.

* `daysInMonth`, `isDate` — which dates there are.
* `dayOf` — the number of a date.
* `dateOf` — the date of a number.
-/

namespace CallAudit.Time

/-- A date; the year before year one is year zero. -/
structure Date where
  year : Int
  month : Nat
  day : Nat
deriving DecidableEq, Repr, Inhabited

/-- Whether a year has a twenty-ninth of February. -/
def isLeap (year : Int) : Bool :=
  year % 4 == 0 && (year % 100 != 0 || year % 400 == 0)

/-- The number of days of a month, zero if there is no such month. -/
def daysInMonth (year : Int) (month : Nat) : Nat :=
  match month with
  | 1 | 3 | 5 | 7 | 8 | 10 | 12 => 31
  | 4 | 6 | 9 | 11 => 30
  | 2 => if isLeap year then 29 else 28
  | _ => 0

/-- Whether there is such a date. -/
def isDate (d : Date) : Bool :=
  1 ≤ d.day && d.day ≤ daysInMonth d.year d.month

/-- The number of days of a year before a month. -/
def daysBeforeMonth (year : Int) : Nat → Nat
  | 0 => 0
  | m + 1 => daysBeforeMonth year m + daysInMonth year m

/-- The number of days from the first of January of year one to that of
another year. -/
def daysBeforeYear (year : Int) : Int :=
  let y := year - 1
  365 * y + y / 4 - y / 100 + y / 400

/-- The number of days from the first of January of year one to that of
1970. -/
def epochDays : Int := 719162

/-- The day number of a date. -/
def dayOf (d : Date) : Int :=
  daysBeforeYear d.year + daysBeforeMonth d.year d.month + d.day - 1 - epochDays

/-- The month and day of the `n`th day of a year, counted from zero,
searched from `month` on. -/
def monthOf (year : Int) : Nat → Nat → Nat → Nat × Nat
  | 0, month, n => (month, n + 1)
  | fuel + 1, month, n =>
    if n < daysInMonth year month then (month, n + 1)
    else monthOf year fuel (month + 1) (n - daysInMonth year month)

/-- The date of a day number: the year is found by counting off periods of
four hundred, one hundred, four and one years; the last century of four
and the last year of four are a day longer than the others. -/
def dateOf (n : Int) : Date :=
  let n := n + epochDays
  let eras := n / 146097
  let n := n % 146097
  let centuries := min 3 (n / 36524)
  let n := n - centuries * 36524
  let fours := n / 1461
  let n := n % 1461
  let ones := min 3 (n / 365)
  let n := n - ones * 365
  let year := eras * 400 + centuries * 100 + fours * 4 + ones + 1
  let (month, day) := monthOf year 11 1 n.toNat
  ⟨year, month, day⟩

end CallAudit.Time
