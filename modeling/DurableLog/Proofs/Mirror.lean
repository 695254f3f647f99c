import DurableLog.Proofs.HookReplay
import DurableLog.Proofs.JournalOnDisk

/-!
# The state behind a journal

`Journal.Mirrors` says that the records of a log file lead to a state. A hook that the journal
accepts moves this state as the hook announces, and one that it refuses leaves it
(`Journal.Mirrors.keep`).

A log file that something is written to has less than 2⁶³ bytes and every entry takes some of them,
so the indices of the entries fit into the 64 bits that a record has for them.
-/

namespace DurableLog

/-! ## Entries take bytes -/

namespace Replica

theorem size_extend {held held' : Array Entry} {stored : List StoredEntry}
    (h : extend held stored = .ok held') : held'.size = held.size + stored.length := by
  induction stored generalizing held with
  | nil =>
    cases h
    rfl
  | cons e rest ih =>
    rw [extend] at h
    split at h
    · rw [ih h, Array.size_push, List.length_cons]
      omega
    · cases h

theorem size_apply {r r' : Replica} {record : Record} (h : r.apply record = .ok r') :
    r'.entries.size ≤ r.entries.size + record.encode.size := by
  have applied := r.applied_apply record
  rw [h] at applied
  cases applied with
  | term | commit => exact Nat.le_add_right _ _
  | @append start stored entries change read =>
    have size := record.size_encode
    rw [change] at size
    have total := size_extend read
    have few := Body.length_le_size_fields start stored
    rw [Array.take, Array.size_extract] at total
    simp only
    omega

/-- Every entry of a state stands in the frames that lead to it. -/
theorem size_applyAll {r r' : Replica} {records : List Record} {b : ByteArray}
    (laid : Record.Laid records b) (h : r.applyAll records = .ok r') :
    r'.entries.size ≤ r.entries.size + b.size := by
  induction laid generalizing r with
  | nil =>
    cases h
    exact Nat.le_add_right _ _
  | @cons record rest frame behind first _ ih =>
    obtain ⟨next, applied, h⟩ := applyAll_cons_eq_ok.mp h
    obtain ⟨body, left, begins, -, rfl⟩ := Record.isFrame_iff.mp first
    have grown := size_apply applied
    have onward := ih h
    rw [ByteArray.size_append, Record.size_layout, begins, ByteArray.size_append]
    omega

end Replica

namespace Journal

/-- Every entry of a batch stands in the frames that store it. -/
theorem length_le_size_appendsFrom (stamps : UInt64 → UInt64) (lsn : UInt64) (start : Nat)
    (groups : List (List Entry)) :
    groups.flatten.length ≤
      (Record.frames (Record.numbered stamps lsn (appendsFrom start groups))).size := by
  induction groups generalizing lsn start with
  | nil => exact Nat.zero_le _
  | cons group rest ih =>
    let record : Record :=
      ⟨lsn, .append (.ofNat start) (group.map .ofEntry), stamps lsn⟩
    have filled := record.size_frame
    have size := record.size_encode
    have few := Body.length_le_size_fields (.ofNat start) (group.map .ofEntry)
    rw [List.length_map] at few
    have onward := ih (lsn + 1) (start + group.length)
    rw [List.flatten_cons, List.length_append, appendsFrom, Record.numbered, Record.frames_cons,
      ByteArray.size_append]
    simp only [record] at filled size
    omega

theorem size_le_size_changesOf (stamps : UInt64 → UInt64) (lsn : UInt64) (start : Nat)
    (entries : Array Entry) :
    entries.size ≤ (Record.frames (Record.numbered stamps lsn
      (changesOf (.append start entries)))).size := by
  have whole := flatten_groups recordBudget entries.toList
  have stored := length_le_size_appendsFrom stamps lsn start (groups recordBudget entries.toList)
  rw [whole, Array.length_toList] at stored
  rw [changesOf, splitAppend]
  split
  · next none =>
    rw [none, appendsFrom] at stored
    exact Nat.le_trans stored (Nat.zero_le _)
  · exact stored

/-- Whatever is stored takes a frame. -/
theorem size_frames_changesOf (stamps : UInt64 → UInt64) (lsn : UInt64) {hook : Hook}
    (stored : hook ≠ .sync)
    (fits : ∀ r ∈ Record.numbered stamps lsn (changesOf hook), r.Fits) :
    0 < (Record.frames (Record.numbered stamps lsn (changesOf hook))).size := by
  have some : 0 < (changesOf hook).length := by
    cases hook with
    | sync => exact absurd rfl stored
    | term term vote => exact Nat.one_pos
    | commit index => exact Nat.one_pos
    | append start entries =>
      rw [changesOf, splitAppend]
      cases groups recordBudget entries.toList <;> exact Nat.succ_pos _
  have least := (Record.laid_frames fits).length_le
  rw [Record.length_numbered] at least
  omega

/-! ## The state -/

/-- The journal goes on behind records that lead to this state, before its commit index is brought
down to the entries there are. -/
def Mirrors (j : Journal) (d : Disk) (r : Replica) : Prop :=
  ∃ records, j.Continues d records ∧ Replica.empty.applyAll records = .ok r

end Journal

namespace Journal

variable {j : Journal} {d : Disk} {r r' : Replica}

theorem Mirrors.setLimit (h : j.Mirrors d r) (limit : Option Nat) :
    j.Mirrors (d.setLimit limit) r := by
  obtain ⟨records, continues, leads⟩ := h
  exact ⟨records, continues.setLimit limit, leads⟩

theorem Mirrors.sync (h : j.Mirrors d r) : ∃ j', j.sync d = (.ok (), j', d) ∧ j'.Mirrors d r := by
  obtain ⟨records, continues, leads⟩ := h
  obtain ⟨j', synced, continues'⟩ := continues.sync
  exact ⟨j', synced, records, continues', leads⟩

/-- The state is read from the log file. -/
theorem Mirrors.readReplica (h : j.Mirrors d r) : d.readReplica = .ok r.clamp := by
  obtain ⟨records, continues, leads⟩ := h
  rw [continues.readReplica, Replica.ofRecords_of_applyAll leads]

/-- A log opens in the state. -/
theorem Mirrors.openLog (h : j.Mirrors d r) {config : Config} (valid : config.Valid)
    (durable : config.dataDir.isSome) :
    ∃ j', d.openLog config = (.ok (r.clamp, some j'), d) ∧ j'.Mirrors d r := by
  obtain ⟨records, continues, leads⟩ := h
  obtain ⟨j', opened, continues'⟩ :=
    continues.openLog (Replica.ofRecords_of_applyAll leads) valid durable
  exact ⟨j', opened, records, continues', leads⟩

/-! ## Keeping a hook -/

/-- The records of a hook that fit into the log file are replayed. -/
theorem applyAll_of_small {records : List Record} {b : ByteArray} {hook : Hook}
    (stamps : UInt64 → UInt64) (lsn : UInt64) (laid : Record.Laid records b)
    (leads : Replica.empty.applyAll records = .ok r)
    (small : (b ++ Record.frames (Record.numbered stamps lsn (changesOf hook))).size ≤ maxFileSize)
    (kept : r.keep hook = some r') (within : ∀ index, hook = .commit index → index ≤ r.entries.size) :
    Replica.empty.applyAll (records ++ Record.numbered stamps lsn (changesOf hook)) = .ok r' := by
  have held := Replica.size_applyAll laid leads
  simp only [Replica.empty, List.size_toArray, List.length_nil, Nat.zero_add] at held
  rw [ByteArray.size_append] at small
  have words : 2 * maxFileSize + 1 < UInt64.size := by decide
  -- whatever is in memory stands in the file, so no index is larger than two file sizes
  have storable : hook.Storable := by
    cases hook with
    | term term vote => trivial
    | sync => trivial
    | commit index =>
      have behind := within index rfl
      show index < UInt64.size
      omega
    | append start entries =>
      have batch := size_le_size_changesOf stamps lsn start entries
      rw [Replica.keep] at kept
      split at kept
      · cases kept
      · show start + entries.size < UInt64.size
        omega
  rw [Replica.applyAll_append, leads]
  exact Replica.eq_ok_of_toOption ((r.applyAll_changesOf stamps lsn storable).trans kept)

theorem Mirrors.appendAll (h : j.Mirrors d r) (stamps : UInt64 → UInt64) {hook : Hook}
    (stored : hook ≠ .sync) (kept : r.keep hook = some r')
    (within : ∀ index, hook = .commit index → index ≤ r.entries.size) :
    match j.appendAll stamps d (changesOf hook) with
    | (.ok _, j', d') => j'.Mirrors d' r'
    | (.error _, j', d') => j'.Mirrors d' r := by
  obtain ⟨records, continues, leads⟩ := h
  obtain ⟨b, ends, laid⟩ := continues.ends
  have appended := continues.appendAll stamps (changesOf hook)
  have grown := ends.appendAll stamps (changesOf hook)
  cases ended : j.appendAll stamps d (changesOf hook) with
  | mk result rest =>
    rw [ended] at appended grown
    cases result with
    | ok last =>
      obtain ⟨-, fits, size⟩ := grown
      have filled := size_frames_changesOf stamps _ stored fits
      have small : (b ++ Record.frames (Record.numbered stamps (.ofNat (records.length + 1))
          (changesOf hook))).size ≤ maxFileSize := by
        rw [ByteArray.size_append] at size ⊢
        omega
      exact ⟨_, appended, applyAll_of_small stamps _ laid leads small kept within⟩
    | error fault => exact ⟨records, appended, leads⟩

theorem keep_eq_appendAll (j : Journal) (stamps : UInt64 → UInt64) (d : Disk) {hook : Hook}
    (stored : hook ≠ .sync) :
    j.keep stamps d hook =
      ((j.appendAll stamps d (changesOf hook)).1.map fun _ => (),
        (j.appendAll stamps d (changesOf hook)).2) := by
  cases hook with
  | sync => exact absurd rfl stored
  | term term vote => rfl
  | append start entries => rfl
  | commit index => rfl

/-- A hook that is accepted moves the state, and one that is refused leaves it. -/
theorem Mirrors.keep (h : j.Mirrors d r) (stamps : UInt64 → UInt64) {hook : Hook}
    (kept : r.keep hook = some r')
    (within : ∀ index, hook = .commit index → index ≤ r.entries.size) :
    match j.keep stamps d hook with
    | (.ok _, j', d') => j'.Mirrors d' r'
    | (.error _, j', d') => j'.Mirrors d' r := by
  by_cases flush : hook = .sync
  · subst flush
    cases kept
    obtain ⟨j', synced, mirrors⟩ := h.sync
    rw [Journal.keep, synced]
    exact mirrors
  · have done := h.appendAll stamps flush kept within
    rw [keep_eq_appendAll j stamps d flush]
    cases ended : j.appendAll stamps d (changesOf hook) with
    | mk result rest =>
      rw [ended] at done
      cases result <;> exact done

end Journal

end DurableLog
