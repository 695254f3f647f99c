import DurableLog.Text.Padding
import DurableLog.Time.Calendar
import DurableLog.Time.Instant

/-!
# RFC 3339 timestamps

`YYYY-MM-DDTHH:MM:SS+00:00` in UTC, with as many of 0, 3, 6 or 9 digits of the second's fraction
as are exact. A year outside 0 to 9999 has a sign. A leap second counts one more than the second
it follows, so at the end of a minute it is second 60.
-/

namespace DurableLog.Rfc3339

/-- The year in four digits, with a sign where they do not suffice. -/
def yearText (year : Int) : String :=
  if 0 ≤ year ∧ year ≤ 9999 then Text.zeroPadded 4 year.toNat
  else (if year < 0 then "-" else "+") ++ Text.zeroPadded 4 year.natAbs

/-- The fraction of a second in 0, 3, 6 or 9 digits. -/
def fractionText (nanos : Nat) : String :=
  if nanos = 0 then ""
  else if nanos % 1000000 = 0 then "." ++ Text.zeroPadded 3 (nanos / 1000000)
  else if nanos % 1000 = 0 then "." ++ Text.zeroPadded 6 (nanos / 1000)
  else "." ++ Text.zeroPadded 9 nanos

/-- The timestamp of an instant. -/
def text (i : Instant) : String :=
  let date := Date.ofDays (i.secs / 86400)
  let ofDay := (i.secs % 86400).toNat
  let leap := if 1000000000 ≤ i.nanos then 1 else 0
  yearText date.year ++ "-" ++ Text.zeroPadded 2 date.month ++ "-" ++ Text.zeroPadded 2 date.day
    ++ "T" ++ Text.zeroPadded 2 (ofDay / 3600) ++ ":" ++ Text.zeroPadded 2 (ofDay / 60 % 60)
    ++ ":" ++ Text.zeroPadded 2 (ofDay % 60 + leap) ++ fractionText (i.nanos % 1000000000)
    ++ "+00:00"

end DurableLog.Rfc3339
