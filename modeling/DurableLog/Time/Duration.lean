import DurableLog.Text.Padding

/-!
# Durations

A length of time in whole nanoseconds, split at the second.

The text of a duration uses the largest of the units s, ms, µs and ns in which it is at least
one, with every digit behind the point that is needed and none more: `20ms`, `1.5µs`, `0ns`.
-/

namespace DurableLog

/-- A length of time. -/
structure Duration where
  secs : Nat
  nanos : Nat
  nanos_lt : nanos < 1000000000
  deriving DecidableEq

namespace Duration

/-- `n` nanoseconds. -/
def ofNanos (n : Nat) : Duration := ⟨n / 1000000000, n % 1000000000, Nat.mod_lt _ (by decide)⟩

/-- `n` milliseconds. -/
def ofMillis (n : Nat) : Duration := ofNanos (n * 1000000)

/-- The whole length in nanoseconds. -/
def toNanos (d : Duration) : Nat := d.secs * 1000000000 + d.nanos

theorem toNanos_ofNanos (n : Nat) : (ofNanos n).toNanos = n := by
  simp only [ofNanos, toNanos]; omega

/-- The text in the largest unit that is not zero. -/
def text (d : Duration) : String :=
  if 0 < d.secs then toString d.secs ++ Text.fraction 9 d.nanos ++ "s"
  else if 1000000 ≤ d.nanos then
    toString (d.nanos / 1000000) ++ Text.fraction 6 (d.nanos % 1000000) ++ "ms"
  else if 1000 ≤ d.nanos then
    toString (d.nanos / 1000) ++ Text.fraction 3 (d.nanos % 1000) ++ "µs"
  else toString d.nanos ++ "ns"

end Duration

end DurableLog
