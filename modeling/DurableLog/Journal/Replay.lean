import DurableLog.Journal.Record

/-!
# Replay

The state that a sequence of records leads to: each change is made in turn, and at the end the
commit index is brought down to the number of entries.

An append cuts the log before its start and continues it; a start of 0 or one that would leave a
gap is a corruption.
-/

namespace DurableLog

/-- The state of a log as the journal knows it; entry `i` stands at index `i + 1`. -/
structure Replica where
  term : Term
  vote : Option Member
  entries : Array Entry
  commitIndex : Nat
  deriving DecidableEq

namespace Replica

/-- A log without history. -/
def empty : Replica := ⟨0, none, #[], 0⟩

/-- Stored entries behind others; the first bad time is told. -/
def extend (entries : Array Entry) : List StoredEntry → Except Fault (Array Entry)
  | [] => .ok entries
  | stored :: rest =>
    match stored.toEntry with
    | .ok entry => extend (entries.push entry) rest
    | .error fault => .error fault

/-- The state after one more record. -/
def apply (s : Replica) (r : Record) : Except Fault Replica :=
  match r.change with
  | .term term vote => .ok { s with term, vote }
  | .append start stored =>
    let length := s.entries.size + 1
    if start = 0 ∨ length < start.toNat then
      .error (.corruption (.misplacedAppend r.lsn start length))
    else
      (extend (s.entries.take (start.toNat - 1)) stored).map fun entries => { s with entries }
  | .commit index => .ok { s with commitIndex := index.toNat }

/-- What one more record can do to a state. -/
inductive Applied (s : Replica) (r : Record) : Except Fault Replica → Prop
  | term {term : Term} {vote : Option Member} (change : r.change = .term term vote) :
      Applied s r (.ok { s with term, vote })
  | commit {index : UInt64} (change : r.change = .commit index) :
      Applied s r (.ok { s with commitIndex := index.toNat })
  | append {start : UInt64} {stored : List StoredEntry} {entries : Array Entry}
      (change : r.change = .append start stored)
      (read : extend (s.entries.take (start.toNat - 1)) stored = .ok entries) :
      Applied s r (.ok { s with entries })
  | misplaced {start : UInt64} {stored : List StoredEntry}
      (change : r.change = .append start stored) :
      Applied s r (.error (.corruption (.misplacedAppend r.lsn start (s.entries.size + 1))))
  | unreadable {start : UInt64} {stored : List StoredEntry} {fault : Fault}
      (change : r.change = .append start stored)
      (fails : extend (s.entries.take (start.toNat - 1)) stored = .error fault) :
      Applied s r (.error fault)

theorem applied_apply (s : Replica) (r : Record) : s.Applied r (s.apply r) := by
  rw [apply]
  cases change : r.change with
  | term term vote => exact .term change
  | commit index => exact .commit change
  | append start stored =>
    simp only
    split
    · exact .misplaced change
    · cases read : extend (s.entries.take (start.toNat - 1)) stored with
      | ok entries => exact .append change read
      | error fault => exact .unreadable change read

/-- The state after more records. -/
def applyAll (s : Replica) : List Record → Except Fault Replica
  | [] => .ok s
  | r :: rest =>
    match s.apply r with
    | .ok next => next.applyAll rest
    | .error fault => .error fault

theorem applyAll_cons_eq_ok {s s' : Replica} {r : Record} {rest : List Record} :
    s.applyAll (r :: rest) = .ok s' ↔
      ∃ next, s.apply r = .ok next ∧ next.applyAll rest = .ok s' := by
  rw [applyAll]
  cases s.apply r <;> simp

/-- Records in two lots lead on from one state to the next. -/
theorem applyAll_append (s : Replica) (first second : List Record) :
    s.applyAll (first ++ second) = (s.applyAll first).bind fun next => next.applyAll second := by
  induction first generalizing s with
  | nil => rfl
  | cons r rest ih =>
    rw [List.cons_append, applyAll, applyAll]
    cases s.apply r with
    | ok next => exact ih next
    | error fault => rfl

/-- The commit index, brought down to the entries there are. -/
def clamp (s : Replica) : Replica := { s with commitIndex := min s.commitIndex s.entries.size }

/-- The state that the records lead to. -/
def ofRecords (records : List Record) : Except Fault Replica :=
  (empty.applyAll records).map clamp

theorem ofRecords_of_applyAll {records : List Record} {recorded : Replica}
    (leads : empty.applyAll records = .ok recorded) : ofRecords records = .ok recorded.clamp := by
  rw [ofRecords, leads, Except.map]

theorem exists_of_ofRecords {records : List Record} {r : Replica}
    (leads : ofRecords records = .ok r) :
    ∃ recorded, empty.applyAll records = .ok recorded ∧ r = recorded.clamp := by
  rw [ofRecords] at leads
  cases replayed : empty.applyAll records with
  | error fault =>
    rw [replayed] at leads
    cases leads
  | ok recorded =>
    rw [replayed] at leads
    cases leads
    exact ⟨recorded, rfl, rfl⟩

end Replica

end DurableLog
