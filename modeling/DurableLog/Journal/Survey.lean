import DurableLog.Disk.Disk
import DurableLog.Journal.Reader
import DurableLog.Journal.Replay

/-!
# Surveying a log file

The records of a log file are numbered 1, 2, 3 … from its beginning. A survey reads them up to
the first frame that is torn, wrong or out of number; whatever follows is *damage*, and the bytes
before it are the valid ones.

* `Survey.ofContent` only reads.
* `Disk.recover` also cuts the damage off.

## Termination

Every record that is read ends further into the file (`Reader.next` moves its position by a whole
frame), so the bytes behind the position become fewer.
-/

namespace DurableLog

/-- What a survey found. -/
structure Survey where
  /-- The records read. -/
  recovered : Nat
  /-- Frames that are whole but wrong or out of number; the survey ends at the first. -/
  corrupted : Nat
  lastLsn : UInt64
  /-- There are bytes behind the valid ones. -/
  truncated : Bool
  /-- The length of the frames of the records read. -/
  validBytes : Nat
  deriving DecidableEq

/-- A survey in progress. -/
structure Survey.Scan where
  records : Array Record
  lastLsn : UInt64
  validBytes : Nat
  corrupted : Nat

namespace Survey

/-- Reads on to the end of the valid part. -/
def Scan.run (c : Content) (reader : Reader) (scan : Scan) : Except Fault Scan :=
  match reader.next c with
  | (.ok none, _) => .ok scan
  | (.error (.corruption _), _) => .ok { scan with corrupted := scan.corrupted + 1 }
  | (.error fault, _) => .error fault
  | (.ok (some record), after) =>
    if record.lsn = scan.lastLsn + 1 then
      let scan := { scan with
        records := scan.records.push record
        lastLsn := record.lsn
        validBytes := after.position }
      -- always so on a file that does not change (see above)
      if reader.position < after.position ∧ after.position ≤ c.size then scan.run c after
      else .ok scan
    else .ok { scan with corrupted := scan.corrupted + 1 }
termination_by c.size - reader.position

/-- The valid records of a file, and what else it holds. -/
def ofContent (c : Content) : Except Fault (List Record × Survey) :=
  (Scan.run c .start ⟨#[], 0, 0, 0⟩).map fun scan =>
    (scan.records.toList,
      { recovered := scan.records.size
        corrupted := scan.corrupted
        lastLsn := scan.lastLsn
        truncated := decide (scan.validBytes < c.size)
        validBytes := scan.validBytes })

/-- What a file that does not exist would give. -/
def empty : Survey := ⟨0, 0, 0, false, 0⟩

end Survey

namespace Disk

/-- The valid records of the log file. -/
def survey (d : Disk) : Except Fault (List Record × Survey) :=
  match d.find with
  | .error fault => .error (.file fault)
  | .ok file => Survey.ofContent (d.content file)

/-- The valid records of the log file, whose damaged part is cut off. -/
def recover (d : Disk) : Except Fault (List Record × Survey) × Disk :=
  match d.find with
  | .error fault => (.error (.file fault), d)
  | .ok file =>
    match Survey.ofContent (d.content file) with
    | .error fault => (.error fault, d)
    | .ok (records, survey) =>
      if survey.truncated then
        match d.setLength file survey.validBytes with
        | (.error fault, d) => (.error (.file fault), d)
        | (.ok (), d) => (.ok (records, survey), d)
      else (.ok (records, survey), d)

/-- The state that the valid records of the log file lead to. -/
def readReplica (d : Disk) : Except Fault Replica :=
  match d.survey with
  | .error fault => .error fault
  | .ok (records, _) => Replica.ofRecords records

end Disk

end DurableLog
