import DurableLog.Journal.Batch
import DurableLog.Journal.Survey
import DurableLog.Journal.Writer

/-!
# The journal of a log

A writer on the log file of a disk. Opening it cuts off the damaged part and goes on behind the
last valid record, at the next number.

Terms, commits and appends are stored as one change each, a batch too large for one record as
several; they are stored all or not at all.
-/

namespace DurableLog

/-- A writer on a file of a disk. -/
structure Journal where
  writer : Writer
  file : Nat
  /-- The place of the next write. -/
  place : Nat
  deriving DecidableEq

/-- What is to be kept before a change of the log becomes visible. -/
inductive Hook
  | term (term : Term) (vote : Option Member)
  | append (start : Nat) (entries : Array Entry)
  | commit (index : Nat)
  | sync
  deriving DecidableEq

namespace Journal

/-- Opens the log file of a disk, or makes one, for appending. -/
def openAt (d : Disk) (policy : SyncPolicy) : Except Fault Journal × Disk :=
  let surveyed := if d.hasLog then d.survey.map Prod.snd else .ok Survey.empty
  match surveyed with
  | .error fault => (.error fault, d)
  | .ok survey =>
    match d.openOrCreate with
    | .error fault => (.error (.file fault), d)
    | .ok (file, d) =>
      let journal : Journal :=
        { writer := ⟨d.walPath, survey.validBytes, survey.lastLsn + 1, policy, 0, false⟩
          file
          place := survey.validBytes }
      if survey.validBytes < (d.content file).size then
        match d.setLength file survey.validBytes with
        | (.error fault, d) => (.error (.file fault), d)
        | (.ok (), d) => (.ok journal, d)
      else (.ok journal, d)

/-- Does something with the writer and its file. -/
def withFile {α : Type} (j : Journal) (d : Disk) (act : Writer → OpenFile → α × Writer × OpenFile) :
    α × Journal × Disk :=
  match act j.writer ⟨d, j.file, j.place⟩ with
  | (result, writer, f) => (result, ⟨writer, f.file, f.place⟩, f.disk)

/-- Appends all changes or none; gives the number of the last record. -/
def appendAll (j : Journal) (stamps : UInt64 → UInt64) (d : Disk) (changes : List Change) :
    Except Fault UInt64 × Journal × Disk :=
  j.withFile d fun writer f => writer.appendAll stamps f changes

/-- Has the medium keep everything written. -/
def sync (j : Journal) (d : Disk) : Except Fault Unit × Journal × Disk :=
  j.withFile d fun writer f => writer.sync f

/-- The changes that store what a hook is given. -/
def changesOf : Hook → List Change
  | .term term vote => [.term term vote]
  | .append start entries => splitAppend start entries.toList recordBudget
  | .commit index => [.commit (UInt64.ofNat index)]
  | .sync => []

/-- Stores what a hook is given. -/
def keep (j : Journal) (stamps : UInt64 → UInt64) (d : Disk) (hook : Hook) :
    Except Fault Unit × Journal × Disk :=
  match hook with
  | .sync => j.sync d
  | _ =>
    match j.appendAll stamps d (changesOf hook) with
    | (result, j, d) => (result.map fun _ => (), j, d)

end Journal

end DurableLog
