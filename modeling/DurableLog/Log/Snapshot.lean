import DurableLog.Entry.Basic
import DurableLog.Fault

/-!
# Snapshots

The entries of a log at one time. Slot 0 holds the sentinel, so an entry's index is its slot. A
snapshot never changes; a writer makes the next one out of a part of the last (`Snapshot.splice`)
and readers keep theirs.
-/

namespace DurableLog

/-- The entries of a log, the sentinel in front. -/
structure Snapshot where
  slots : Array Entry
  deriving DecidableEq

namespace Snapshot

/-- The snapshot with these entries from index 1 on. -/
def ofEntries (entries : Array Entry) : Snapshot := ⟨#[Entry.sentinel] ++ entries⟩

/-- The number of slots. -/
def length (s : Snapshot) : Nat := s.slots.size

/-- The index of the last entry, 0 if there is only the sentinel. -/
def lastIndex (s : Snapshot) : Nat := s.length - 1

/-- The entry at slot 0. -/
def first (s : Snapshot) : Entry := s.slots[0]?.getD Entry.sentinel

/-- The entries from index 1 on. -/
def entries (s : Snapshot) : Array Entry := s.slots.drop 1

/-- The entries at `first` to `last`, both included; none if `last` lies before `first`. -/
def range (s : Snapshot) (first last : Nat) : Except Fault (Array Entry) :=
  if s.length ≤ last then .error (.indexOutOfRange last s.length)
  else if last < first then .ok #[]
  else .ok (s.slots.extract first (last + 1))

/-- The snapshot whose entries from `cut` on are replaced. -/
def splice (s : Snapshot) (cut : Nat) (entries : Array Entry) : Snapshot :=
  ⟨s.slots.take cut ++ entries⟩

@[simp] theorem length_ofEntries (entries : Array Entry) :
    (ofEntries entries).length = entries.size + 1 := by
  simp [ofEntries, length, Nat.add_comm]

theorem length_splice (s : Snapshot) (cut : Nat) (entries : Array Entry) (h : cut ≤ s.length) :
    (s.splice cut entries).length = cut + entries.size := by
  simp only [length] at h
  simp [splice, length, Nat.min_eq_left h]

/-- Splicing entries behind the sentinel splices what is behind it. -/
theorem splice_ofEntries (held entries : Array Entry) {cut : Nat} (h : cut ≠ 0) :
    (ofEntries held).splice cut entries = ofEntries (held.take (cut - 1) ++ entries) := by
  obtain ⟨n, rfl⟩ := Nat.exists_eq_succ_of_ne_zero h
  obtain ⟨held⟩ := held
  obtain ⟨entries⟩ := entries
  simp [ofEntries, splice]

@[simp] theorem entries_ofEntries (held : Array Entry) : (ofEntries held).entries = held := by
  obtain ⟨held⟩ := held
  simp [entries, ofEntries]

@[simp] theorem size_entries (s : Snapshot) : s.entries.size = s.lastIndex := by
  simp [entries, lastIndex, length]

/-- Splicing behind the sentinel splices the entries. -/
theorem entries_splice (s : Snapshot) (entries : Array Entry) {cut : Nat} (h : cut ≠ 0)
    (hc : cut ≤ s.length) :
    (s.splice cut entries).entries = s.entries.take (cut - 1) ++ entries := by
  obtain ⟨n, rfl⟩ := Nat.exists_eq_succ_of_ne_zero h
  obtain ⟨⟨slots⟩⟩ := s
  obtain ⟨entries⟩ := entries
  cases slots with
  | nil => simp [length] at hc
  | cons first rest =>
    simp only [Snapshot.entries, splice, Array.drop, Array.take]
    simp [List.take_of_length_le]

/-- Splicing leaves the slots below the cut alone. -/
theorem splice_below (s : Snapshot) (cut : Nat) (entries : Array Entry) {i : Nat} (h : i < cut)
    (hc : cut ≤ s.length) : (s.splice cut entries).slots[i]? = s.slots[i]? := by
  simp only [length] at hc
  rw [splice, Array.getElem?_append_left (by simp; omega)]
  simp [Array.take, Nat.min_eq_left hc, h]

end Snapshot

end DurableLog
