import DurableLog.Journal.Survey
import DurableLog.Text.Padding
import DurableLog.Time.Rfc3339

/-!
# Inspecting a data directory

What a log file holds, told in lines of text. An inspection only reads: damage is reported and
stays where it is.
-/

namespace DurableLog

/-- What is to be told of a data directory. -/
inductive Inspection
  /-- How far the records are valid. -/
  | verify
  /-- The state they lead to. -/
  | state
  /-- The entries from `first` to `last`, or to the end. -/
  | dump (first : Nat) (last : Option Nat)
  deriving DecidableEq

namespace Inspection

/-- The lines that tell of a survey. -/
def surveyLines (s : Survey) : List String :=
  [ "records:   " ++ toString s.recovered
  , "last lsn:  " ++ toString s.lastLsn
  , "corrupted: " ++ toString s.corrupted
  , "valid:     " ++ toString s.validBytes ++ " bytes"
  , "clean:     " ++ toString (!s.truncated) ]

/-- The lines that tell of a state. -/
def stateLines (r : Replica) : List String :=
  [ "term:         " ++ toString r.term
  , "voted for:    " ++ (match r.vote with | some member => member.text | none => "-")
  , "last index:   " ++ toString r.entries.size
  , "commit index: " ++ toString r.commitIndex ]

/-- The line that tells of the entry at an index. -/
def entryLine (commitIndex index : Nat) (e : Entry) : String :=
  Text.column 8 index ++ " " ++ Rfc3339.text e.timestamp ++ " term=" ++ toString e.term ++ " "
    ++ toString e.size ++ " bytes" ++ (if e.isSnapshot then " snapshot" else "")
    ++ (if index ≤ commitIndex then " committed" else "")

/-- A line tells an entry's index, time, term and size, whether it is a snapshot, and whether it is
committed, in words with a blank between any two. -/
theorem entryLine_eq (commitIndex index : Nat) (e : Entry) :
    entryLine commitIndex index e = " ".intercalate (
      [Text.column 8 index, Rfc3339.text e.timestamp, "term=" ++ toString e.term,
        toString e.size, "bytes"] ++ (if e.isSnapshot then ["snapshot"] else []) ++
        if index ≤ commitIndex then ["committed"] else []) := by
  rw [← String.toList_inj]
  unfold entryLine
  by_cases snapshot : e.isSnapshot = true <;> by_cases committed : index ≤ commitIndex <;>
    simp [snapshot, committed, String.intercalate_cons_cons]

/-- A line for each of the entries, the first of which stands at `index`. -/
def entryLines (commitIndex : Nat) : (index : Nat) → List Entry → List String
  | _, [] => []
  | index, e :: rest => entryLine commitIndex index e :: entryLines commitIndex (index + 1) rest

/-- The lines that tell of a range of entries. The sentinel is not told. -/
def dumpLines (r : Replica) (first : Nat) (last : Option Nat) : Except Fault (List String) :=
  let lastIndex := r.entries.size
  let last := last.getD lastIndex
  if lastIndex < last then .error (.indexOutOfRange last (lastIndex + 1))
  else
    let first := max first 1
    .ok (entryLines r.commitIndex first (r.entries.extract (first - 1) last).toList)

/-- The state of an existing log file. -/
def replica (d : Disk) : Except Fault Replica :=
  if d.hasLog then d.readReplica else .error (.settings (.noLogFile d.walPath))

/-- The lines that an inspection gives. -/
def run (d : Disk) : Inspection → Except Fault (List String)
  | verify => d.survey.map fun found => surveyLines found.2
  | state => (replica d).map stateLines
  | dump first last => (replica d).bind fun r => dumpLines r first last

end Inspection

end DurableLog
