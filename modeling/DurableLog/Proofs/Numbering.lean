import DurableLog.Journal.Record

/-!
# Consecutive numbers

A journal numbers its records without a gap: `Record.numbered` makes records of changes, and
`Record.Consecutive` says of records that their numbers are without a gap.
-/

namespace DurableLog.Record

/-- The changes as records, numbered from `lsn` on. -/
def numbered (stamps : UInt64 → UInt64) (lsn : UInt64) : List Change → List Record
  | [] => []
  | change :: rest => ⟨lsn, change, stamps lsn⟩ :: numbered stamps (lsn + 1) rest

/-- The records are numbered from `lsn` on. -/
def Consecutive (lsn : UInt64) : List Record → Prop
  | [] => True
  | r :: rest => r.lsn = lsn ∧ Consecutive (lsn + 1) rest

theorem ofNat_length_cons (lsn : UInt64) (count : Nat) :
    lsn + 1 + UInt64.ofNat count = lsn + UInt64.ofNat (count + 1) := by
  rw [UInt64.ofNat_add, UInt64.add_assoc, UInt64.add_comm 1]
  rfl

/-- The number behind `count` records that are numbered from 1 on. -/
theorem one_add_ofNat (count : Nat) : 1 + UInt64.ofNat count = UInt64.ofNat (count + 1) := by
  rw [UInt64.add_comm, UInt64.ofNat_add]
  rfl

@[simp] theorem length_numbered (stamps : UInt64 → UInt64) (lsn : UInt64) (changes : List Change) :
    (numbered stamps lsn changes).length = changes.length := by
  induction changes generalizing lsn with
  | nil => rfl
  | cons change rest ih => rw [numbered, List.length_cons, ih, List.length_cons]

@[simp] theorem map_change_numbered (stamps : UInt64 → UInt64) (lsn : UInt64)
    (changes : List Change) : (numbered stamps lsn changes).map change = changes := by
  induction changes generalizing lsn with
  | nil => rfl
  | cons change rest ih => rw [numbered, List.map_cons, ih]

theorem numbered_append (stamps : UInt64 → UInt64) (lsn : UInt64) (first second : List Change) :
    numbered stamps lsn (first ++ second) =
      numbered stamps lsn first ++
        numbered stamps (lsn + UInt64.ofNat first.length) second := by
  induction first generalizing lsn with
  | nil => simp [numbered]
  | cons change rest ih =>
    rw [List.cons_append, numbered, ih, ofNat_length_cons, numbered, List.cons_append,
      List.length_cons]

theorem consecutive_numbered (stamps : UInt64 → UInt64) (lsn : UInt64) (changes : List Change) :
    Consecutive lsn (numbered stamps lsn changes) := by
  induction changes generalizing lsn with
  | nil => trivial
  | cons change rest ih => exact ⟨rfl, ih (lsn + 1)⟩

theorem consecutive_append {lsn : UInt64} {first second : List Record} :
    Consecutive lsn (first ++ second) ↔
      Consecutive lsn first ∧ Consecutive (lsn + UInt64.ofNat first.length) second := by
  induction first generalizing lsn with
  | nil => simp [Consecutive]
  | cons r rest ih =>
    rw [List.cons_append, Consecutive, Consecutive, ih, ofNat_length_cons, List.length_cons,
      and_assoc]

/-- The record at place `i` has the `i`-th number. -/
theorem Consecutive.getElem {lsn : UInt64} {records : List Record} (h : Consecutive lsn records)
    (i : Nat) (bound : i < records.length) : records[i].lsn = lsn + UInt64.ofNat i := by
  induction records generalizing lsn i with
  | nil => exact absurd bound (Nat.not_lt_zero i)
  | cons r rest ih =>
    obtain ⟨first, onward⟩ := h
    cases i with
    | zero => simpa using first
    | succ i =>
      rw [List.getElem_cons_succ, ih onward, ofNat_length_cons]

end DurableLog.Record
