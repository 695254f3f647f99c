import DurableLog.Proofs.Linearization
import DurableLog.Proofs.Refinement

/-!
# What a log opens with once more

A log that opens brings the commit index down to the entries there are, and does not write that
down. So the last commit in its journal may still be past the entries, and entries that are appended
later come under it when the log opens once more.

`reopened_as_closed_iff` says exactly when this happens: the last commit was past the entries, more
entries have been appended than there were, and nothing has been committed in between. In all other
cases the log opens as it was closed.
-/

namespace DurableLog

/-! ## Commits -/

theorem Memory.commitIndex_after_of_no_commit (m : Memory) {writes : List (Nat × Mutation)}
    (others : ∀ x ∈ writes, ∀ last, x.2 ≠ .commit last) :
    (m.after writes).commitIndex = m.commitIndex := by
  induction writes generalizing m with
  | nil => rfl
  | cons x rest ih =>
    obtain ⟨first, others⟩ := List.forall_mem_cons.mp others
    have onward : m.after (x :: rest) = (m.perform x.2 .kept).2.after rest := rfl
    rw [onward, ih _ others, m.commitIndex_perform_of_no_commit .kept first]

/-- The commit index moves by commits alone. -/
theorem World.Orderly.commitIndex_of_no_commit {σ : Type} {b : Backend σ} {w : World σ}
    {events : List Event} (h : w.Orderly b events)
    (uncommitted : ∀ last, Event.call (.commit last) ∉ events) :
    (w.run b events).log.memory.commitIndex = w.log.memory.commitIndex := by
  rw [h.accounts.memory.commitIndex]
  refine Memory.commitIndex_after_of_no_commit _ fun x hx last same => ?_
  obtain ⟨c, called, becomes⟩ := h.origins.writes x (List.mem_filter.mp hx).1
  rw [same] at becomes
  cases becomes
  obtain ⟨e, mem, calls⟩ := List.mem_filterMap.mp (List.mem_of_getElem? called)
  cases e with
  | call c =>
    cases calls
    exact uncommitted _ mem
  | _ => cases calls

/-! ## The last commit of a file -/

/-- What the valid records of the log file lead to, before the commit index is brought down to the
entries there are. -/
def Disk.recordedReplica (d : Disk) : Except Fault Replica :=
  d.survey.bind fun found => Replica.empty.applyAll found.1

/-- A journal that is opened on a file goes on behind what the file tells. -/
theorem Disk.Stores.mirrors {d d' : Disk} {file : Nat} {b : ByteArray} (stores : d.Stores file b)
    {config : Config} {r : Replica} {j : Journal}
    (opens : d.openLog config = (.ok (r, some j), d')) :
    ∃ recorded, d.recordedReplica = .ok recorded ∧ r = recorded.clamp ∧ j.Mirrors d' recorded := by
  obtain ⟨records, s, finds⟩ := Survey.exists_finds b
  obtain ⟨valid, durable, leads⟩ := stores.of_openLog finds opens
  rw [stores.openLog finds leads valid durable] at opens
  cases opens
  obtain ⟨recorded, replayed, rfl⟩ := Replica.exists_of_ofRecords leads
  refine ⟨recorded, ?_, rfl, records, stores.continues finds config.sync, replayed⟩
  rw [Disk.recordedReplica, stores.survey finds]
  exact replayed

/-- The commit index is the same as before, unless more entries have come under a commit that was
past them. -/
theorem Memory.Sound.clamp_recorded_iff {m : Memory} (sound : m.Sound) (recorded : Replica)
    (onward : recorded.clamp.commitIndex ≤ m.commitIndex) :
    (m.recorded recorded.clamp.commitIndex recorded.commitIndex).clamp = m.replica ↔
      (m.commitIndex = recorded.clamp.commitIndex →
        recorded.entries.size < recorded.commitIndex →
          m.snapshot.lastIndex ≤ recorded.entries.size) := by
  have committed := sound.committed
  have size : m.snapshot.entries.size = m.snapshot.lastIndex := m.snapshot.size_entries
  have only : (m.recorded recorded.clamp.commitIndex recorded.commitIndex).clamp = m.replica ↔
      min (lastCommit recorded.clamp.commitIndex recorded.commitIndex m.commitIndex)
        m.snapshot.lastIndex = m.commitIndex := by
    rw [← size]
    exact ⟨congrArg Replica.commitIndex, congrArg (Replica.mk m.term m.vote m.snapshot.entries)⟩
  rw [only]
  simp only [Replica.clamp] at onward ⊢
  unfold lastCommit
  split <;> omega

/-! ## The main result -/

/-- A log opens on a log file of any content, calls are made and end, none of them dropped, and the
log is closed. Then it opens again with what its journal has recorded, brought down to the entries
there are; and that is the state in which it was closed exactly if no entries have been appended
under a commit that was past them, or something has been committed since. -/
theorem reopened_as_closed_iff {d d' : Disk} {file : Nat} {b : ByteArray} (stores : d.Stores file b)
    {config : Config} {r : Replica} {j : Journal}
    (opens : d.openLog config = (.ok (r, some j), d')) (stamps : UInt64 → UInt64)
    {events : List Event} (kept : ∀ id, Event.abort id ∉ events)
    (ended : ((World.start config r (j, d')).run (.ofJournal stamps) events).log.Ended) :
    let w := (World.start config r (j, d')).run (.ofJournal stamps) events
    let m := w.log.memory
    ∃ recorded : Replica,
      let reopened := (m.recorded r.commitIndex recorded.commitIndex).clamp
      (d.recordedReplica = .ok recorded ∧ r = recorded.clamp) ∧
      ((∀ last, Event.call (.commit last) ∉ events) → m.commitIndex = r.commitIndex) ∧
      (∃ closed, w.store.1.sync w.store.2 = (.ok (), closed, w.store.2)) ∧
      (∀ config : Config, config.Valid → config.dataDir.isSome →
        ∃ j', w.store.2.openLog config = (.ok (reopened, some j'), w.store.2)) ∧
      (reopened = m.replica ↔
        (m.commitIndex = r.commitIndex → recorded.entries.size < recorded.commitIndex →
          m.snapshot.lastIndex ≤ recorded.entries.size)) := by
  intro w m
  obtain ⟨recorded, told, rfl, mirrors⟩ := stores.mirrors opens
  obtain ⟨s, refines⟩ :=
    (World.refines_ofReplica config .start mirrors).run stamps kept
  have mirrors' := refines.mirrors_of_ended ended
  obtain ⟨closed, synced, -⟩ := mirrors'.sync
  refine ⟨recorded, ⟨told, rfl⟩, fun uncommitted => ?_, ⟨closed, synced⟩,
    fun config valid durable => ?_, refines.sound.clamp_recorded_iff recorded refines.onward⟩
  · exact (World.orderly_run (.ofJournal stamps) config recorded.clamp (j, d')
      events).commitIndex_of_no_commit uncommitted
  · obtain ⟨j', opened, -⟩ := mirrors'.openLog valid durable
    exact ⟨j', opened⟩

/-! ## A commit that is past the entries -/

/-- The log file has one record, which commits seven entries, and there are none. -/
def Disk.ahead : Disk :=
  ({ blank "data" with place := .aDirectory } : Disk).addLog
    (.regular (Record.frames [⟨1, .commit 7, 0⟩]))

/-- The journal that goes on behind this record. -/
def Journal.ahead : Journal := .behind .ahead 0 ⟨1, 0, 1, false, 44⟩ .everyWrite

/-- Settings for a log in the data directory. -/
def Config.inData : Config := { Config.default with dataDir := some "data" }

theorem Disk.stores_ahead : Disk.ahead.Stores 0 (Record.frames [⟨1, .commit 7, 0⟩]) :=
  ⟨rfl, rfl, Nat.zero_lt_one, rfl⟩

theorem Disk.finds_ahead : Survey.Finds (Record.frames [⟨1, .commit 7, 0⟩])
    [⟨1, .commit 7, 0⟩] ⟨1, 0, 1, false, 44⟩ := by
  have fits : ∀ r ∈ [(⟨1, .commit 7, 0⟩ : Record)], r.Fits := by
    simp [Record.Fits, Record.size_encode, Body.fields, maxRecordSize]
  exact Survey.finds_laid (Record.laid_frames fits) ⟨rfl, trivial⟩

theorem Config.valid_inData : Config.inData.Valid := Config.inData.fault?_eq_none_iff.mp rfl

/-- The log opens without entries, and nothing is committed. -/
theorem Disk.openLog_ahead : Disk.ahead.openLog .inData = (.ok (.empty, some .ahead), .ahead) := by
  have leads : Replica.ofRecords [⟨1, .commit 7, 0⟩] = .ok .empty := rfl
  have opened := stores_ahead.openLog finds_ahead leads Config.valid_inData rfl
  rwa [stores_ahead.repaired_eq finds_ahead rfl] at opened

/-- But the journal still knows the commit. -/
theorem Journal.mirrors_ahead : Journal.ahead.Mirrors Disk.ahead ⟨0, none, #[], 7⟩ := by
  have continues := Disk.stores_ahead.continues Disk.finds_ahead .everyWrite
  rw [Disk.stores_ahead.repaired_eq Disk.finds_ahead rfl] at continues
  exact ⟨_, continues, rfl⟩

/-- One entry is appended. -/
def oneAppended : List Event :=
  (Call.append [.complete ⟨1, .epoch, .empty, false⟩] none none).awaited 0

/-- What was appended has come under the commit, so the log does not open as it was closed. -/
theorem reopened_as_closed_iff_ahead :
    let w := (World.start .inData .empty (Journal.ahead, Disk.ahead)).run
      (.ofJournal fun _ => 0) oneAppended
    let m := w.log.memory
    (m.commitIndex = 0 ∧ m.snapshot.lastIndex = 1) ∧
      ∃ recorded : Replica,
        let reopened := (m.recorded 0 recorded.commitIndex).clamp
        (Disk.ahead.recordedReplica = .ok recorded ∧ .empty = recorded.clamp) ∧
        ((∀ last, Event.call (.commit last) ∉ oneAppended) → m.commitIndex = 0) ∧
        (∃ closed, w.store.1.sync w.store.2 = (.ok (), closed, w.store.2)) ∧
        (∀ config : Config, config.Valid → config.dataDir.isSome →
          ∃ j', w.store.2.openLog config = (.ok (reopened, some j'), w.store.2)) ∧
        (reopened = m.replica ↔
          (m.commitIndex = 0 → recorded.entries.size < recorded.commitIndex →
            m.snapshot.lastIndex ≤ recorded.entries.size)) := by
  have ended : ((World.start .inData .empty (Journal.ahead, Disk.ahead)).run
      (.ofJournal fun _ => 0) oneAppended).log.Ended := by
    unfold Log.Ended
    decide +kernel
  exact ⟨by decide +kernel, reopened_as_closed_iff Disk.stores_ahead Disk.openLog_ahead
    (fun _ => 0) (by simp [oneAppended, Call.awaited]) ended⟩

/-- Nothing is committed, and the log is closed and opened again: then the entry is committed. -/
theorem reopened_with_more_committed :
    let w := (World.start .inData .empty (Journal.ahead, Disk.ahead)).run
      (.ofJournal fun _ => 0) oneAppended
    Disk.ahead.openLog .inData = (.ok (.empty, some .ahead), .ahead) ∧
      (∀ last, Event.call (.commit last) ∉ oneAppended) ∧
      w.log.Ended ∧ w.log.memory.commitIndex = 0 ∧
      ∃ closed r j, w.store.1.sync w.store.2 = (.ok (), closed, w.store.2) ∧
        w.store.2.openLog .inData = (.ok (r, some j), w.store.2) ∧ r.commitIndex = 1 := by
  intro w
  have ended : w.log.Ended := by
    unfold Log.Ended
    decide +kernel
  have kept : ∀ id, Event.abort id ∉ oneAppended := by simp [oneAppended, Call.awaited]
  obtain ⟨s, refines⟩ := (World.refines_ofReplica .inData .start Journal.mirrors_ahead).run
    (fun _ => 0) kept
  have mirrors := refines.mirrors_of_ended ended
  obtain ⟨closed, synced, -⟩ := mirrors.sync
  obtain ⟨j, opened, -⟩ := mirrors.openLog Config.valid_inData rfl
  exact ⟨Disk.openLog_ahead, by simp [oneAppended, Call.awaited], ended, by decide +kernel, closed,
    _, j, synced, opened, by decide +kernel⟩

end DurableLog
