/-!
# Instants

A point in time as seconds since 1970-01-01T00:00:00 UTC and nanoseconds within that second.

## Leap seconds

A leap second is told by 10⁹ or more nanoseconds in the second before it. UTC has leap seconds only
at the end of a minute, so a count of seconds and nanoseconds lies on the *UTC grid* only if it
reaches into a leap second in second 59 or not at all (`Instant.OnUtcGrid`). Every instant does.
-/

namespace DurableLog

/-- The first second of the calendar's range, in the year -262143. -/
def firstSecond : Int := -8334601228800

/-- The last second of the calendar's range, in the year 262142. -/
def lastSecond : Int := 8210266876799

/-- The nanoseconds reach into a leap second only at the end of a UTC minute. -/
def Instant.OnUtcGrid (secs : Int) (nanos : Nat) : Prop :=
  nanos < 1000000000 ∨ (nanos < 2000000000 ∧ secs % 60 = 59)

instance (secs : Int) (nanos : Nat) : Decidable (Instant.OnUtcGrid secs nanos) :=
  inferInstanceAs (Decidable (_ ∨ _))

/-- A point in time of the calendar's range. -/
structure Instant where
  secs : Int
  nanos : Nat
  firstSecond_le : firstSecond ≤ secs
  le_lastSecond : secs ≤ lastSecond
  onUtcGrid : Instant.OnUtcGrid secs nanos
  deriving DecidableEq

namespace Instant

/-- 1970-01-01T00:00:00 UTC. -/
def epoch : Instant := ⟨0, 0, by decide, by decide, by decide⟩

theorem nanos_lt (i : Instant) : i.nanos < 2000000000 := by
  rcases i.onUtcGrid with h | h <;> omega

/-- The instant that a count of seconds and nanoseconds names, if there is one. -/
def ofUnix? (secs : Int) (nanos : Nat) : Option Instant :=
  if h : firstSecond ≤ secs ∧ secs ≤ lastSecond ∧ OnUtcGrid secs nanos then
    some ⟨secs, nanos, h.1, h.2.1, h.2.2⟩
  else none

/-- An instant is named by its own count. -/
@[simp] theorem ofUnix?_self (i : Instant) : ofUnix? i.secs i.nanos = some i :=
  dif_pos ⟨i.firstSecond_le, i.le_lastSecond, i.onUtcGrid⟩

end Instant

end DurableLog
