import DurableLog.Log.Opening
import DurableLog.Proofs.Recovery

/-!
# A log on a disk

A log that opens on a log file of any content is in the state that the valid records lead to, and
its journal goes on behind them (`Disk.Stores.openLog`); where there was no file one is made
(`Disk.Fresh.openLog`). Behind a journal nothing is damaged, so opening once more leaves the disk
alone (`Journal.Continues.openLog`).
-/

namespace DurableLog

namespace Disk

variable {d d' : Disk} {file : Nat} {b : ByteArray} {records : List Record} {s : Survey}
  {r : Replica} {config : Config} {fault : Fault}

/-! ## Opening on a file -/

/-- What is left of the disk once the damage is cut off. -/
def repaired (d : Disk) (file : Nat) (b : ByteArray) (s : Survey) : Disk :=
  d.setContent file (.regular (b.extract 0 s.validBytes))

theorem Stores.readReplica (h : d.Stores file b) (finds : Survey.Finds b records s) :
    d.readReplica = Replica.ofRecords records := by
  simp only [Disk.readReplica, h.survey finds]

theorem Stores.recoverReplica (h : d.Stores file b) (finds : Survey.Finds b records s) :
    d.recoverReplica = (Replica.ofRecords records, d.repaired file b s) := by
  simp only [Disk.recoverReplica, h.hasLog, if_true, h.recover finds, repaired]

/-- Where nothing is damaged the disk is left alone. -/
theorem Stores.repaired_eq (h : d.Stores file b) (finds : Survey.Finds b records s)
    (whole : s.truncated = false) : d.repaired file b s = d := by
  rw [repaired, finds.extract_of_not_truncated (by simp [whole]), h.setContent_self]

/-- The log opens in the state that the valid records lead to. The damage has been cut off before
the file is opened for appending. -/
theorem Stores.openLog (h : d.Stores file b) (finds : Survey.Finds b records s)
    (leads : Replica.ofRecords records = .ok r) (valid : config.Valid)
    (durable : config.dataDir.isSome) :
    d.openLog config =
      (.ok (r, some (.behind d file s config.sync)), d.repaired file b s) := by
  have stores : (d.repaired file b s).Stores file (b.extract 0 s.validBytes) := h.setContent _
  have opened : Journal.openAt (d.repaired file b s) config.sync =
      (.ok (.behind d file s config.sync),
        (d.repaired file b s).repaired file (b.extract 0 s.validBytes) s.cut) :=
    stores.openAt_eq finds.cut config.sync
  rw [stores.repaired_eq finds.cut rfl] at opened
  have made : d.createDataDir = .ok d := by simp only [createDataDir, h.place]
  have disk : config.dataDir.isNone = false := by simpa using durable
  simp only [Disk.openLog, config.fault?_eq_none_iff.mpr valid, disk, Bool.false_eq_true, if_false,
    made, h.recoverReplica finds, leads, opened]

/-- Where the valid records lead to no state, opening tells why. The damage has been cut off by
then. -/
theorem Stores.openLog_error (h : d.Stores file b) (finds : Survey.Finds b records s)
    (fails : Replica.ofRecords records = .error fault) (valid : config.Valid)
    (durable : config.dataDir.isSome) :
    d.openLog config = (.error fault, d.repaired file b s) := by
  have made : d.createDataDir = .ok d := by simp only [createDataDir, h.place]
  have disk : config.dataDir.isNone = false := by simpa using durable
  simp only [Disk.openLog, config.fault?_eq_none_iff.mpr valid, disk, Bool.false_eq_true, if_false,
    made, h.recoverReplica finds, fails]

/-- Opening gives the state that the valid records lead to or the fault that they lead to, and
leaves the valid prefix of the file. -/
theorem Stores.openLog_cases (h : d.Stores file b) (finds : Survey.Finds b records s)
    (valid : config.Valid) (durable : config.dataDir.isSome) :
    (∃ r j, Replica.ofRecords records = .ok r ∧
      d.openLog config = (.ok (r, some j), d.repaired file b s)) ∨
    ∃ fault, Replica.ofRecords records = .error fault ∧
      d.openLog config = (.error fault, d.repaired file b s) := by
  cases leads : Replica.ofRecords records with
  | ok r => exact .inl ⟨r, _, rfl, h.openLog finds leads valid durable⟩
  | error fault => exact .inr ⟨fault, rfl, h.openLog_error finds leads valid durable⟩

/-- The journal goes on behind the valid records. -/
theorem Stores.continues (h : d.Stores file b) (finds : Survey.Finds b records s)
    (policy : SyncPolicy) :
    (Journal.behind d file s policy).Continues (d.repaired file b s) records := by
  have ends := h.ends finds policy
  have next : s.lastLsn + 1 = UInt64.ofNat (records.length + 1) := by
    rw [finds.lastLsn, UInt64.add_comm, Record.one_add_ofNat]
  rw [next] at ends
  exact ⟨⟨_, ends, finds.laid⟩, finds.numbered⟩

/-- Nothing else lets a log open on the file. -/
theorem Stores.of_openLog (h : d.Stores file b) (finds : Survey.Finds b records s) {j : Journal}
    (opens : d.openLog config = (.ok (r, some j), d')) :
    config.Valid ∧ config.dataDir.isSome ∧ Replica.ofRecords records = .ok r := by
  have made : d.createDataDir = .ok d := by simp only [createDataDir, h.place]
  cases settings : config.fault? with
  | some fault =>
    simp only [Disk.openLog, settings] at opens
    cases opens
  | none =>
    cases place : config.dataDir.isNone with
    | true =>
      simp only [Disk.openLog, settings, place, if_true] at opens
      cases opens
    | false =>
      refine ⟨config.fault?_eq_none_iff.mp settings, by simpa using place, ?_⟩
      simp only [Disk.openLog, settings, place, Bool.false_eq_true, if_false, made,
        h.recoverReplica finds] at opens
      cases leads : Replica.ofRecords records with
      | error fault =>
        rw [leads] at opens
        cases opens
      | ok state =>
        rw [leads] at opens
        simp only at opens
        split at opens
        · cases opens
        · cases opens
          rfl

/-! ## Opening where there is no file -/

/-- There is no log file, and it can be made. -/
structure Fresh (d : Disk) : Prop where
  place : d.place ≠ .aFile
  named : d.named = none

theorem fresh_blank (dataDir : String) : (blank dataDir).Fresh := ⟨nofun, rfl⟩

/-- A journal makes its file in an empty directory. -/
theorem openAt_empty (place : d.place = .aDirectory) (named : d.named = none)
    (policy : SyncPolicy) :
    ∃ j, Journal.openAt d policy = (.ok j, d.addLog (.regular .empty)) ∧
      j.Continues (d.addLog (.regular .empty)) [] := by
  have absent : d.find = .error (.system .noEntry) := by simp only [Disk.find, place, named]
  have log : d.hasLog = false := by rw [Disk.hasLog, absent]
  have content : (d.addLog (.regular .empty)).content d.files.size = .regular .empty := by
    simp [addLog, Disk.content]
  have whole : ¬ Survey.empty.validBytes <
      ((d.addLog (.regular .empty)).content d.files.size).size := by
    rw [content]
    exact Nat.lt_irrefl _
  refine ⟨⟨⟨(d.addLog (.regular .empty)).walPath, 0, 1, policy, 0, false⟩, d.files.size, 0⟩, ?_, ?_⟩
  · simp only [Journal.openAt, log, openOrCreate, absent, place, Bool.false_eq_true, if_false,
      if_true, if_neg whole]
    rfl
  · have stores : (d.addLog (.regular .empty)).Stores d.files.size .empty :=
      ⟨place, rfl, by simp [addLog], content⟩
    exact ⟨⟨.empty, ⟨stores, rfl, rfl, rfl, rfl⟩, .nil⟩, trivial⟩

/-- A log opens new where there was none. -/
theorem Fresh.openLog (h : d.Fresh) (valid : config.Valid) (durable : config.dataDir.isSome) :
    ∃ j d', d.openLog config = (.ok (.empty, some j), d') ∧ j.Continues d' [] := by
  obtain ⟨made, create, place, named⟩ :
      ∃ made, d.createDataDir = .ok made ∧ made.place = .aDirectory ∧ made.named = none := by
    unfold createDataDir
    cases place : d.place with
    | nothing => exact ⟨_, rfl, rfl, h.named⟩
    | aFile => exact absurd place h.place
    | aDirectory => exact ⟨d, rfl, place, h.named⟩
  obtain ⟨j, opened, continues⟩ := openAt_empty place named config.sync
  have disk : config.dataDir.isNone = false := by simpa using durable
  have log : made.hasLog = false := by simp only [Disk.hasLog, Disk.find, place, named]
  refine ⟨j, _, ?_, continues⟩
  simp only [Disk.openLog, config.fault?_eq_none_iff.mpr valid, disk, create, recoverReplica, log,
    Bool.false_eq_true, if_false, opened]

/-! ## Room -/

theorem Stores.setLimit (h : d.Stores file b) (limit : Option Nat) :
    (d.setLimit limit).Stores file b :=
  ⟨h.place, h.named, h.valid, h.content⟩

end Disk

namespace Journal

variable {j : Journal} {d : Disk} {records : List Record} {r : Replica} {config : Config}

theorem Continues.setLimit (h : j.Continues d records) (limit : Option Nat) :
    j.Continues (d.setLimit limit) records := by
  obtain ⟨⟨b, ends, laid⟩, numbered⟩ := h
  exact ⟨⟨b, ⟨ends.disk.setLimit limit, ends.enabled, ends.offset, ends.place, ends.nextLsn⟩,
    laid⟩, numbered⟩

/-- Flushing always succeeds on a regular file, and changes nothing that is stored. -/
theorem Continues.sync (h : j.Continues d records) :
    ∃ j', j.sync d = (.ok (), j', d) ∧ j'.Continues d records := by
  obtain ⟨⟨b, ends, laid⟩, numbered⟩ := h
  refine ⟨{ j with writer := { j.writer with unsynced := 0 } }, ?_,
    ⟨b, ⟨ends.disk, ends.enabled, ends.offset, ends.place, ends.nextLsn⟩, laid⟩, numbered⟩
  simp only [Journal.sync, withFile, Writer.sync, ends.enabled, LogFile.flush, LogFile.sync,
    ends.disk.content, Content.sync, Bool.false_eq_true, if_false]

/-- Behind a journal there is nothing to cut off. -/
theorem Continues.stores (h : j.Continues d records) :
    ∃ b s, d.Stores j.file b ∧ Survey.Finds b records s ∧ d.repaired j.file b s = d := by
  obtain ⟨⟨b, ends, laid⟩, numbered⟩ := h
  have finds := Survey.finds_laid laid numbered
  exact ⟨b, _, ends.disk, finds, ends.disk.repaired_eq finds rfl⟩

theorem Continues.readReplica (h : j.Continues d records) :
    d.readReplica = Replica.ofRecords records := by
  obtain ⟨b, s, stores, finds, -⟩ := h.stores
  exact stores.readReplica finds

/-- A log opens in the state that the records lead to, and leaves the disk as it is. -/
theorem Continues.openLog (h : j.Continues d records) (leads : Replica.ofRecords records = .ok r)
    (valid : config.Valid) (durable : config.dataDir.isSome) :
    ∃ j', d.openLog config = (.ok (r, some j'), d) ∧ j'.Continues d records := by
  obtain ⟨b, s, stores, finds, whole⟩ := h.stores
  have opened := stores.openLog finds leads valid durable
  have continues := stores.continues finds config.sync
  rw [whole] at opened continues
  exact ⟨_, opened, continues⟩

end Journal

end DurableLog
