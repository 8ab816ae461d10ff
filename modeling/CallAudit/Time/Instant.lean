/-
CallAudit.Time.Instant — points in time and spans of time.

* `Instant` — a point in time to the nanosecond. A leap second is counted
  within the second before it, so the nanoseconds of a second go up to two
  thousand million; an instant is the number of such nanoseconds.
* `Instant.stored` — an instant as the store keeps it, to the microsecond.
* `Span` — a length of time in nanoseconds.
-/

namespace CallAudit.Time

/-- The nanoseconds kept apart for each second: those of the second and
those of a leap second after it. -/
def perSecond : Int := 2000000000

/-- A point in time. Instants are ordered by their ticks. -/
structure Instant where
  ticks : Int
deriving DecidableEq, Repr, Inhabited

namespace Instant

/-- The instant of a second, counted from the start of 1970, and a
nanosecond of it. -/
def at_ (second : Int) (nano : Nat) : Instant :=
  ⟨second * perSecond + nano⟩

/-- The second of an instant. -/
def second (t : Instant) : Int :=
  t.ticks / perSecond

/-- The nanosecond within its second. -/
def nano (t : Instant) : Nat :=
  (t.ticks % perSecond).toNat

/-- The start of 1970. -/
def epoch : Instant := ⟨0⟩

instance : LE Instant := ⟨fun a b => a.ticks ≤ b.ticks⟩
instance : LT Instant := ⟨fun a b => a.ticks < b.ticks⟩
instance (a b : Instant) : Decidable (a ≤ b) := inferInstanceAs (Decidable (a.ticks ≤ b.ticks))
instance (a b : Instant) : Decidable (a < b) := inferInstanceAs (Decidable (a.ticks < b.ticks))

/-- The later of two instants. -/
def later (a b : Instant) : Instant :=
  if a ≤ b then b else a

/-- An instant cut to the microsecond. A leap second becomes the second
that follows it. -/
def stored (t : Instant) : Instant :=
  let micros := t.second * 1000000 + (t.nano / 1000 : Nat)
  at_ (micros / 1000000) ((micros % 1000000).toNat * 1000)

end Instant

/-- A length of time. -/
structure Span where
  nanos : Nat
deriving DecidableEq, Repr, Inhabited

namespace Span

/-- A number of seconds. -/
def seconds (n : Nat) : Span := ⟨n * 1000000000⟩

/-- A number of thousandths of a second. -/
def millis (n : Nat) : Span := ⟨n * 1000000⟩

/-- The full seconds of a span. -/
def secs (s : Span) : Nat := s.nanos / 1000000000

/-- The nanoseconds beyond the full seconds. -/
def rest (s : Span) : Nat := s.nanos % 1000000000

/-- Whether a span is no time at all. -/
def isZero (s : Span) : Bool := s.nanos == 0

end Span

end CallAudit.Time
