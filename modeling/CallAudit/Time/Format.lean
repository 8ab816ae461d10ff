/-
CallAudit.Time.Format — instants as text.

* `read?` — an instant from a date, a time and an offset. The parts may be
  short and blanks may stand before them; the offset has to be there.
* `Instant.zulu` — `2024-03-01T00:00:00.500Z`, the fraction in three, six
  or nine digits, the fewest that are exact.
* `Instant.display` — `2024-03-01 00:00:00.500 UTC`, with such a fraction.
* `Instant.offsetText` — `2024-03-01T00:00:00.5+00:00`, the fraction
  without zeros at its end.
-/
import CallAudit.Time.Calendar
import CallAudit.Time.Instant
import CallAudit.Number.Decimal
import CallAudit.Text.Blank

namespace CallAudit.Time

open CallAudit.Number (isDigit digitsValue)
open CallAudit.Text (trimStart isBlank)

/-! ## Reading -/

/-- A number of one digit or more, of which at most `most` are taken. -/
def digits? (most : Nat) (cs : List Char) : Option (Nat × List Char) :=
  let ds := (cs.take most).takeWhile isDigit
  if ds.isEmpty then none else some (digitsValue ds, cs.drop ds.length)

/-- A part of a date or a time, after blanks. -/
def part? (cs : List Char) : Option (Nat × List Char) :=
  digits? 2 (trimStart cs)

/-- A separator, after blanks. -/
def separator? (c : Char) (cs : List Char) : Option (List Char) :=
  match trimStart cs with
  | d :: rest => if d = c then some rest else none
  | [] => none

/-- A year after blanks: four digits at most, or any number of them after
a sign. -/
def year? (cs : List Char) : Option (Int × List Char) :=
  match trimStart cs with
  | '-' :: rest => (digits? rest.length rest).map fun (n, rest) => (-(n : Int), rest)
  | '+' :: rest => (digits? rest.length rest).map fun (n, rest) => ((n : Int), rest)
  | rest => (digits? 4 rest).map fun (n, rest) => ((n : Int), rest)

/-- The fraction of a second in nanoseconds, zero if there is none. Digits
after the ninth are dropped. -/
def fraction? (cs : List Char) : Option (Nat × List Char) :=
  match cs with
  | '.' :: rest =>
    let ds := rest.takeWhile isDigit
    if ds.isEmpty then none
    else
      let kept := ds.take 9
      some (digitsValue kept * Number.tenTo (9 - kept.length), rest.drop ds.length)
  | _ => some (0, cs)

/-- Two digits. -/
def pair? (cs : List Char) : Option (Nat × List Char) :=
  match cs with
  | a :: b :: rest => if isDigit a && isDigit b then some (digitsValue [a, b], rest) else none
  | _ => none

/-- An offset from universal time in seconds, after blanks: the letter Z,
the letters UTC, or a sign with two digits of hours and two of minutes,
between which colons and blanks may stand. -/
def offset? (cs : List Char) : Option (Int × List Char) :=
  let cs := trimStart cs
  let clock (sign : Int) (rest : List Char) : Option (Int × List Char) := do
    let (hours, rest) ← pair? rest
    let (minutes, rest) ← pair? (rest.dropWhile fun c => c == ':' || isBlank c)
    if minutes < 60 then some (sign * (hours * 3600 + minutes * 60), rest) else none
  if Text.eqFold (cs.take 3) ['u', 't', 'c'] then some (0, cs.drop 3)
  else
    match cs with
    | 'Z' :: rest | 'z' :: rest => some (0, rest)
    | '+' :: rest => clock 1 rest
    | '-' :: rest | '\u2212' :: rest => clock (-1) rest
    | _ => none

/-- The years that can be told, before and after the offset is taken off. -/
def isYear (year : Int) : Bool :=
  -262143 ≤ year && year ≤ 262142

/-- The instant a text names. -/
def read? (cs : List Char) : Option Instant := do
  let (year, cs) ← year? cs
  let cs ← separator? '-' cs
  let (month, cs) ← part? cs
  let cs ← separator? '-' cs
  let (day, cs) ← part? cs
  let cs ←
    match cs with
    | c :: rest => if c = 'T' ∨ c = 't' ∨ c = ' ' then some rest else none
    | [] => none
  let (hour, cs) ← part? cs
  let cs ← separator? ':' cs
  let (minute, cs) ← part? cs
  let cs ← separator? ':' cs
  let (second, cs) ← part? cs
  let (nano, cs) ← fraction? cs
  let (offset, cs) ← offset? cs
  let date : Date := ⟨year, month, day⟩
  if !(trimStart cs).isEmpty then none
  else if !(isYear year && isDate date) then none
  else if !(hour < 24 && minute < 60 && second ≤ 60) then none
  else if !(-86400 < offset && offset < 86400) then none
  else
    let (second, nano) := if second = 60 then (59, nano + 1000000000) else (second, nano)
    let total := dayOf date * 86400 + (hour * 3600 + minute * 60 + second : Nat) - offset
    if isYear (dateOf (total / 86400)).year then some (.at_ total nano) else none

/-- The instant a string names. -/
def Instant.read? (s : String) : Option Instant :=
  CallAudit.Time.read? s.toList

/-! ## Writing -/

/-- A number in at least `width` digits. -/
def padded (width n : Nat) : List Char :=
  let ds := Nat.toDigits 10 n
  List.replicate (width - ds.length) '0' ++ ds

/-- A year in four digits; a year that needs more, or a negative one, has a
sign. -/
def yearText (year : Int) : List Char :=
  if 0 ≤ year ∧ year ≤ 9999 then padded 4 year.natAbs
  else (if year < 0 then '-' else '+') :: padded 4 year.natAbs

/-- The parts of an instant: date, second of the day and nanosecond. In a
leap second the second of the minute is sixty. -/
structure Clock where
  date : Date
  hour : Nat
  minute : Nat
  second : Nat
  nano : Nat

/-- An instant by the clock of universal time. -/
def Instant.clock (t : Instant) : Clock :=
  let s := t.second
  let ofDay := (s % 86400).toNat
  let leap := 1000000000 ≤ t.nano
  { date := dateOf (s / 86400)
    hour := ofDay / 3600
    minute := ofDay / 60 % 60
    second := ofDay % 60 + (if leap then 1 else 0)
    nano := t.nano - (if leap then 1000000000 else 0) }

/-- A date. -/
def Date.text (d : Date) : List Char :=
  yearText d.year ++ '-' :: (padded 2 d.month ++ '-' :: padded 2 d.day)

/-- A time of day without its fraction. -/
def Clock.time (c : Clock) : List Char :=
  padded 2 c.hour ++ ':' :: (padded 2 c.minute ++ ':' :: padded 2 c.second)

/-- A fraction in three, six or nine digits, the fewest that are exact. -/
def fractionText (nano : Nat) : List Char :=
  if nano = 0 then []
  else if nano % 1000000 = 0 then '.' :: padded 3 (nano / 1000000)
  else if nano % 1000 = 0 then '.' :: padded 6 (nano / 1000)
  else '.' :: padded 9 nano

/-- A fraction without the zeros at its end. -/
def shortFraction (nano : Nat) : List Char :=
  if nano = 0 then []
  else '.' :: ((padded 9 nano).reverse.dropWhile (· == '0')).reverse

/-- An instant with the letter Z. -/
def Instant.zulu (t : Instant) : String :=
  let c := t.clock
  String.ofList (c.date.text ++ 'T' :: (c.time ++ fractionText c.nano ++ ['Z']))

/-- An instant with the letters UTC. -/
def Instant.display (t : Instant) : String :=
  let c := t.clock
  String.ofList (c.date.text ++ ' ' :: (c.time ++ fractionText c.nano ++ [' ', 'U', 'T', 'C']))

/-- An instant with the offset of universal time. Years before the first
one are counted backwards and marked. -/
def Instant.offsetText (t : Instant) : String :=
  let c := t.clock
  let before := c.date.year ≤ 0
  let year := if before then padded 4 (1 - c.date.year).natAbs else padded 4 c.date.year.natAbs
  String.ofList (year ++ '-' :: (padded 2 c.date.month ++ '-' :: padded 2 c.date.day)
    ++ 'T' :: (c.time ++ shortFraction c.nano ++ ['+', '0', '0', ':', '0', '0'])
    ++ (if before then [' ', 'B', 'C'] else []))

end CallAudit.Time
