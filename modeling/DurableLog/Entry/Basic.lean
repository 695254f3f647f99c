import DurableLog.Bytes.Basic
import DurableLog.Member
import DurableLog.Time.Instant

/-!
# Log entries

The immutable unit of the log. An entry's index is not part of it: it is its place in the log.
-/

namespace DurableLog

/-- An entry of the log. -/
structure Entry where
  term : Term
  timestamp : Instant
  payload : ByteArray
  isSnapshot : Bool
  deriving DecidableEq

namespace Entry

/-- The number of payload bytes. -/
def size (e : Entry) : Nat := e.payload.size

/-- The entry that stands at index 0 of every log and is never stored. -/
def sentinel : Entry := ⟨0, .epoch, .empty, false⟩

end Entry

end DurableLog
