import DurableLog.Entry.Basic
import DurableLog.Fault

/-!
# Records

What the journal stores: one numbered record per change of the log. The fields are the machine
words of the stored form; a stored entry's time is a count that need not name an instant.

## Entries and their stored form

`StoredEntry.ofEntry` writes an entry down and `StoredEntry.toEntry` reads it back: every entry
comes back as it was (`toEntry_ofEntry`). What is stored need not be an entry, for its time can be
out of the calendar's range or in a leap second where UTC has none.
-/

namespace DurableLog

/-- An entry as it is stored. -/
structure StoredEntry where
  term : Term
  secs : Int64
  nanos : UInt32
  payload : ByteArray
  isSnapshot : Bool
  deriving DecidableEq

/-- One change of the log. -/
inductive Change
  | term (term : Term) (vote : Option Member)
  /-- The log is cut before `start` and continued by the entries. -/
  | append (start : UInt64) (entries : List StoredEntry)
  | commit (index : UInt64)
  deriving DecidableEq

/-- A change with its number in the journal and the time of writing in milliseconds. -/
structure Record where
  lsn : UInt64
  change : Change
  timestamp : UInt64
  deriving DecidableEq

namespace StoredEntry

def ofEntry (e : Entry) : StoredEntry where
  term := e.term
  secs := Int64.ofInt e.timestamp.secs
  nanos := UInt32.ofNat e.timestamp.nanos
  payload := e.payload
  isSnapshot := e.isSnapshot

def toEntry (s : StoredEntry) : Except Fault Entry :=
  match Instant.ofUnix? s.secs.toInt s.nanos.toNat with
  | some timestamp => .ok ⟨s.term, timestamp, s.payload, s.isSnapshot⟩
  | none => .error (.corruption (.badTimestamp s.secs.toInt s.nanos.toNat))

theorem toInt_ofInt_secs (i : Instant) : (Int64.ofInt i.secs).toInt = i.secs := by
  have low := i.firstSecond_le
  have high := i.le_lastSecond
  simp only [firstSecond, lastSecond] at low high
  exact Int64.toInt_ofInt_of_le (by omega) (by omega)

theorem toNat_ofNat_nanos (i : Instant) : (UInt32.ofNat i.nanos).toNat = i.nanos := by
  have := i.nanos_lt
  rw [UInt32.toNat_ofNat', Nat.mod_eq_of_lt]
  omega

/-- An entry is read back as it was written. -/
@[simp] theorem toEntry_ofEntry (e : Entry) : (ofEntry e).toEntry = .ok e := by
  simp only [toEntry, ofEntry, toInt_ofInt_secs, toNat_ofNat_nanos, Instant.ofUnix?_self]

end StoredEntry

end DurableLog
