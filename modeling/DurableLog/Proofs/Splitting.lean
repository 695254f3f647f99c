import DurableLog.Proofs.HookReplay

/-!
# A batch in parts

A batch that is too large for one record is stored in several, and a crash can leave only the first
of them. Replaying all of them is replaying the one append that they stand for; replaying the first
few leaves the entries before the start of the batch and the first entries of the batch behind them
(`split_batch_replays_as_one`). In between no reader can tell a part of a batch from a batch.

The commit index that the records tell is carried along unclamped: it is brought down once, to the
entries there are in the end (`Replica.commitIndex_applyAll`).
-/

namespace DurableLog

/-- The index that a record commits. -/
def Record.commit? (r : Record) : Option Nat :=
  match r.change with
  | .commit index => some index.toNat
  | _ => none

/-- The last index that records commit, which may be past all entries; 0 if there is none. -/
def Record.committed (records : List Record) : Nat := (records.filterMap Record.commit?).getLastD 0

/-- The entries that a change holds. -/
def Change.stored : Change → List StoredEntry
  | append _ entries => entries
  | _ => []

/-- The entries that records hold, in order. -/
def Record.stored (records : List Record) : List StoredEntry :=
  (records.map Record.change).flatMap Change.stored

theorem flatMap_stored_appendsFrom (start : Nat) (groups : List (List Entry)) :
    (appendsFrom start groups).flatMap Change.stored = groups.flatten.map .ofEntry := by
  induction groups generalizing start with
  | nil => rfl
  | cons group rest ih =>
    rw [appendsFrom, List.flatMap_cons, ih, List.flatten_cons, List.map_append, Change.stored]

namespace Replica

theorem commitIndex_apply {r next : Replica} {record : Record}
    (applied : r.apply record = .ok next) :
    next.commitIndex = record.commit?.getD r.commitIndex := by
  have done := r.applied_apply record
  rw [applied] at done
  cases done with
  | term change | commit change | append change => rw [Record.commit?, change, Option.getD]

/-- The commit index is that of the last commit, whatever lies between. -/
theorem commitIndex_applyAll {r r' : Replica} {records : List Record}
    (leads : r.applyAll records = .ok r') :
    r'.commitIndex = (records.filterMap Record.commit?).getLastD r.commitIndex := by
  induction records generalizing r with
  | nil =>
    cases leads
    rfl
  | cons record rest ih =>
    obtain ⟨next, applied, leads⟩ := applyAll_cons_eq_ok.mp leads
    rw [ih leads, commitIndex_apply applied]
    cases commits : record.commit? with
    | none => rw [List.filterMap_cons_none commits, Option.getD_none]
    | some index => rw [List.filterMap_cons_some commits, Option.getD_some, List.getLastD_cons]

/-- Behind records that lead to a state, appends of groups lead on to the entries before their start
and those of the groups, and the last commit is brought down to these. -/
theorem ofRecords_append {records parts : List Record} {s : Replica}
    (leads : ofRecords records = .ok s) {start : Nat} (nonzero : start ≠ 0)
    (behind : start ≤ s.entries.size + 1) {groups : List (List Entry)} (some : groups ≠ [])
    (changes : parts.map Record.change = appendsFrom start groups)
    (filled : ∀ group ∈ groups, group ≠ [])
    (within : start + groups.flatten.length ≤ UInt64.size) :
    ofRecords (records ++ parts) = .ok {
      s with
      entries := s.entries.take (start - 1) ++ groups.flatten.toArray
      commitIndex := min (Record.committed records) (start - 1 + groups.flatten.length) } := by
  obtain ⟨recorded, replayed, rfl⟩ := exists_of_ofRecords leads
  have commits : recorded.commitIndex = Record.committed records := commitIndex_applyAll replayed
  have onward := recorded.applyAll_appendsFrom nonzero behind some changes filled within
  have all : empty.applyAll (records ++ parts) =
      .ok { recorded with
        entries := recorded.entries.take (start - 1) ++ groups.flatten.toArray } := by
    rw [applyAll_append, replayed]
    exact onward
  have size : (recorded.entries.take (start - 1) ++ groups.flatten.toArray).size =
      start - 1 + groups.flatten.length := by
    have behind : start ≤ recorded.entries.size + 1 := behind
    simp only [Array.size_append, Array.take, Array.size_extract, List.size_toArray]
    omega
  rw [ofRecords_of_applyAll all]
  simp only [clamp, size, commits]

end Replica

/-! ## The main result -/

/-- A batch is split into appends that hold some entries each, within the budget or just one. Behind
any records that lead to a state, replaying them all is replaying the batch as one append; and
replaying the first few of them gives the entries before the start and the first entries of the
batch, just those that these appends hold, with the last commit brought down to them. The indices of
the entries are words. -/
theorem split_batch_replays_as_one {records : List Record} {s : Replica}
    (leads : Replica.ofRecords records = .ok s) {start : Nat} (nonzero : 1 ≤ start)
    (behind : start ≤ s.entries.size + 1) {batch : List Entry} (some : batch ≠ [])
    (within : start + batch.length ≤ UInt64.size) (budget : Nat) {parts : List Record}
    (changes : parts.map Record.change = splitAppend start batch budget) :
    parts ≠ [] ∧
    (∀ part ∈ parts, ∃ first group, part.change = .append first (group.map .ofEntry) ∧
      group ≠ [] ∧ (Entry.totalCost group ≤ budget ∨ ∃ e, group = [e])) ∧
    (∀ whole : Record, whole.change = .append (.ofNat start) (batch.map .ofEntry) →
      Replica.ofRecords (records ++ parts) = Replica.ofRecords (records ++ [whole])) ∧
    ∀ j, 1 ≤ j →
      let held := Record.stored (parts.take j)
      held = (batch.take held.length).map .ofEntry ∧
        Replica.ofRecords (records ++ parts.take j) = .ok {
          term := s.term
          vote := s.vote
          entries := s.entries.take (start - 1) ++ (batch.take held.length).toArray
          commitIndex := min (Record.committed records) (start - 1 + held.length) } := by
  have whole := flatten_groups budget batch
  have filled : ∀ group ∈ groups budget batch, group ≠ [] := fun _ => ne_nil_of_mem_groups
  have parted : groups budget batch ≠ [] := by
    intro none
    rw [none] at whole
    exact some whole.symm
  have nonzero : start ≠ 0 := by omega
  rw [splitAppend_of_ne_nil start some budget] at changes
  refine ⟨?_, fun part mem => ?_, fun one change => ?_, fun j first => ?_⟩
  · rintro rfl
    exact appendsFrom_ne_nil start parted changes.symm
  · have made : part.change ∈ appendsFrom start (groups budget batch) :=
      changes ▸ List.mem_map_of_mem mem
    obtain ⟨first, group, mem, change⟩ := mem_appendsFrom made
    exact ⟨first, group, change, filled group mem, cost_of_mem_groups mem⟩
  · have single : [one].map Record.change = appendsFrom start [batch] := by
      simp [appendsFrom, change]
    have together := Replica.ofRecords_append leads nonzero behind (List.cons_ne_nil _ _) single
      (by simpa using some) (by simpa using within)
    rw [Replica.ofRecords_append leads nonzero behind parted changes filled (by rwa [whole]),
      together, whole, List.flatten_singleton]
  · let front := ((groups budget batch).take j).flatten
    have begins : front <+: batch := by
      refine ⟨((groups budget batch).drop j).flatten, ?_⟩
      rw [← List.flatten_append, List.take_append_drop, whole]
    have firsts : (parts.take j).map Record.change =
        appendsFrom start ((groups budget batch).take j) := by
      rw [List.map_take, changes, take_appendsFrom]
    have held : Record.stored (parts.take j) = front.map .ofEntry := by
      rw [Record.stored, firsts, flatMap_stored_appendsFrom]
    have taken : batch.take front.length = front := (List.prefix_iff_eq_take.mp begins).symm
    have short := begins.length_le
    simp only [held, List.length_map, taken, true_and]
    refine Replica.ofRecords_append leads nonzero behind ?_ firsts ?_ ?_
    · intro none
      rcases List.take_eq_nil_iff.mp none with zero | none
      · omega
      · exact parted none
    · exact fun group mem => filled group (List.mem_of_mem_take mem)
    · exact Nat.le_trans (Nat.add_le_add_left short start) within

/-- Three entries are replaced from index 2 on, and all three were committed: the first part holds
two entries and the second the last one. -/
theorem split_batch_replays_as_one_cut :
    let entry (term : Term) : Entry := ⟨term, .epoch, .empty, false⟩
    let records : List Record :=
      [⟨1, .append 1 [.ofEntry (entry 1), .ofEntry (entry 1), .ofEntry (entry 1)], 0⟩,
        ⟨2, .commit 5, 0⟩]
    let batch := [entry 2, entry 3, entry 4]
    let parts : List Record :=
      [⟨3, .append 2 [.ofEntry (entry 2), .ofEntry (entry 3)], 0⟩,
        ⟨4, .append 4 [.ofEntry (entry 4)], 0⟩]
    Replica.ofRecords records = .ok ⟨0, none, #[entry 1, entry 1, entry 1], 3⟩ ∧
      parts.map Record.change = splitAppend 2 batch 64 ∧
      Replica.ofRecords (records ++ parts) =
        Replica.ofRecords (records ++ [⟨3, .append 2 (batch.map .ofEntry), 0⟩]) ∧
      Replica.ofRecords (records ++ parts.take 1) =
        .ok ⟨0, none, #[entry 1, entry 2, entry 3], 3⟩ := by
  intro entry records batch parts
  have leads : Replica.ofRecords records = .ok ⟨0, none, #[entry 1, entry 1, entry 1], 3⟩ := rfl
  have changes : parts.map Record.change = splitAppend 2 batch 64 := by decide +kernel
  have after_first : 1 ≤ 2 := by decide
  obtain ⟨-, -, together, firsts⟩ := split_batch_replays_as_one leads after_first (by decide)
    (List.cons_ne_nil _ _) (by decide) 64 changes
  exact ⟨leads, changes, together ⟨3, _, 0⟩ rfl, (firsts 1 (by decide)).2⟩

end DurableLog
