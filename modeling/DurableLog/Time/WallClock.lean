import DurableLog.Time.Calendar
import DurableLog.Time.Instant

/-!
# Wall clocks

A reading of a clock that runs a whole number of seconds ahead of UTC, and the instant it names. The
offset says where the clock hangs; it does not move the instant.

A leap second is read as 10⁹ or more nanoseconds of the second before it. On a clock that runs ahead
by whole minutes it comes at the end of a minute, as in UTC. A clock that is some odd seconds ahead
can be read in a leap second where UTC has none; such a reading runs on into the next second.
-/

namespace DurableLog

/-- An instant told by a clock that runs `offset` seconds ahead of UTC. -/
structure ZonedInstant where
  instant : Instant
  offset : Int
  deriving DecidableEq

/-- A reading of a wall clock. -/
structure WallClock where
  date : Date
  hour : Nat
  minute : Nat
  second : Nat
  nanos : Nat
  offset : Int
  deriving DecidableEq

namespace WallClock

/-- The clock can show this. -/
def Valid (w : WallClock) : Prop :=
  w.date.Exists ∧ w.hour < 24 ∧ w.minute < 60 ∧ w.second < 60 ∧ w.nanos < 2000000000 ∧
    -86400 < w.offset ∧ w.offset < 86400

instance (w : WallClock) : Decidable w.Valid := inferInstanceAs (Decidable (_ ∧ _))

/-- Seconds since the epoch in UTC. -/
def toSecs (w : WallClock) : Int :=
  w.date.toDays * 86400 + w.hour * 3600 + w.minute * 60 + w.second - w.offset

/-- The instant that a reading of the clock names, if the calendar reaches so far. -/
def toInstant? (w : WallClock) : Option Instant :=
  if Instant.OnUtcGrid w.toSecs w.nanos then Instant.ofUnix? w.toSecs w.nanos
  else Instant.ofUnix? (w.toSecs + 1) (w.nanos - 1000000000)

/-- The instant a reading names as the clock tells it, if the clock can show it. -/
def toZoned? (w : WallClock) : Option ZonedInstant :=
  if w.Valid then w.toInstant?.map fun instant => ⟨instant, w.offset⟩ else none

end WallClock

end DurableLog
