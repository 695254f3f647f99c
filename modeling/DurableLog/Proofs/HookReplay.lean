import DurableLog.Journal.Store
import DurableLog.Proofs.Numbering

/-!
# What hooks leave behind

A journal stores what a hook is given as one record or several. Replaying these records does to a
state what the hook announces, all at once: `Replica.keep`. So the state that a journal leads to
is told by the hooks it has accepted (`Replica.applyAll_recordsOf`), however their batches were
split.

Every entry is read back as it was written, but an index has 64 bits in a record; `Hook.Storable`
says that the indices of a hook fit into them.
-/

namespace DurableLog

/-- What the hook is given is read back as it was written. -/
def Hook.Storable : Hook → Prop
  | term _ _ => True
  | append start entries => start + entries.size < UInt64.size
  | commit index => index < UInt64.size
  | sync => True

instance : DecidablePred Hook.Storable
  | .term _ _ => inferInstanceAs (Decidable True)
  | .append start entries => inferInstanceAs (Decidable (start + entries.size < UInt64.size))
  | .commit index => inferInstanceAs (Decidable (index < UInt64.size))
  | .sync => inferInstanceAs (Decidable True)

/-! ## Records of hooks -/

/-- The records that hooks lead to, numbered from `lsn` on. -/
def Journal.recordsOf (stamps : UInt64 → UInt64) (lsn : UInt64) (hooks : List Hook) :
    List Record :=
  Record.numbered stamps lsn (hooks.flatMap changesOf)

namespace Replica

/-! ## Hooks on a state -/

/-- The state once a hook has been kept; there is none if its entries would leave a gap. -/
def keep (r : Replica) : Hook → Option Replica
  | .term term vote => some { r with term, vote }
  | .append start entries =>
    if start = 0 ∨ r.entries.size + 1 < start then none
    else some { r with entries := r.entries.take (start - 1) ++ entries }
  | .commit index => some { r with commitIndex := index }
  | .sync => some r

/-- The state once several hooks have been kept. -/
def keepAll (r : Replica) : List Hook → Option Replica
  | [] => some r
  | hook :: rest => (r.keep hook).bind fun next => next.keepAll rest

theorem keepAll_append (r : Replica) (first second : List Hook) :
    r.keepAll (first ++ second) = (r.keepAll first).bind fun next => next.keepAll second := by
  induction first generalizing r with
  | nil => rfl
  | cons hook rest ih =>
    rw [List.cons_append, keepAll, keepAll, Option.bind_assoc]
    exact congrArg _ (funext ih)

theorem keepAll_concat (r : Replica) (hooks : List Hook) (hook : Hook) :
    r.keepAll (hooks ++ [hook]) = (r.keepAll hooks).bind fun next => next.keep hook := by
  rw [keepAll_append]
  refine congrArg _ (funext fun next => ?_)
  cases h : next.keep hook <;> simp [keepAll, h]

/-! ## Replaying entries -/

theorem extend_ofEntry (held : Array Entry) (entries : List Entry) :
    extend held (entries.map StoredEntry.ofEntry) = .ok (held ++ entries.toArray) := by
  induction entries generalizing held with
  | nil => simp [extend]
  | cons e rest ih =>
    rw [List.map_cons, extend, StoredEntry.toEntry_ofEntry]
    simp only
    rw [ih]
    simp

theorem eq_ok_of_toOption {α : Type} {x : Except Fault α} {a : α} (h : x.toOption = some a) :
    x = .ok a := by
  cases x with
  | error fault => cases h
  | ok value => cases h; rfl

/-- The start of an append is a word in its record. -/
theorem toNat_ofNat_start {start : Nat} (within : start < UInt64.size) :
    (UInt64.ofNat start).toNat = start ∧ (UInt64.ofNat start = 0 ↔ start = 0) := by
  have start_eq : (UInt64.ofNat start).toNat = start := by
    rw [UInt64.toNat_ofNat', Nat.mod_eq_of_lt within]
  refine ⟨start_eq, ?_⟩
  rw [← UInt64.toNat_inj, start_eq]
  rfl

/-- An append that would leave a gap is found out, whatever it holds. -/
theorem apply_gap (r : Replica) (record : Record) {start : Nat} {stored : List StoredEntry}
    (change : record.change = .append (.ofNat start) stored) (within : start < UInt64.size)
    (gap : start = 0 ∨ r.entries.size + 1 < start) :
    r.apply record =
      .error (.corruption (.misplacedAppend record.lsn (.ofNat start) (r.entries.size + 1))) := by
  obtain ⟨start_eq, zero_iff⟩ := toNat_ofNat_start within
  simp only [apply, change, start_eq, zero_iff, if_pos gap]

/-- One append record of a hook. -/
theorem apply_append (r : Replica) (record : Record) {start : Nat} {entries : List Entry}
    (change : record.change = .append (.ofNat start) (entries.map .ofEntry))
    (within : start < UInt64.size) :
    (r.apply record).toOption = r.keep (.append start entries.toArray) := by
  obtain ⟨start_eq, zero_iff⟩ := toNat_ofNat_start within
  simp only [apply, change, keep, start_eq, zero_iff, extend_ofEntry]
  split <;> rfl

/-- Appends of groups, each behind the one before, cut a state before the first of them and hold all
that the groups hold. -/
theorem applyAll_appendsFrom (r : Replica) {start : Nat} (nonzero : start ≠ 0)
    (behind : start ≤ r.entries.size + 1) {groups : List (List Entry)} {parts : List Record}
    (some : groups ≠ []) (changes : parts.map Record.change = appendsFrom start groups)
    (filled : ∀ group ∈ groups, group ≠ [])
    (within : start + groups.flatten.length ≤ UInt64.size) :
    r.applyAll parts =
      .ok { r with entries := r.entries.take (start - 1) ++ groups.flatten.toArray } := by
  induction groups generalizing r start parts with
  | nil => exact absurd rfl some
  | cons group rest ih =>
    obtain ⟨first, others, rfl, change, changes⟩ := List.map_eq_cons_iff.mp changes
    obtain ⟨filled, filled_rest⟩ := List.forall_mem_cons.mp filled
    rw [List.flatten_cons, List.length_append] at within
    have length := List.length_pos_iff.mpr filled
    let next : Replica := { r with entries := r.entries.take (start - 1) ++ group.toArray }
    have size : next.entries.size = start - 1 + group.length := by
      simp only [next, Array.size_append, Array.take, Array.size_extract, List.size_toArray]
      omega
    have applied : r.apply first = .ok next := by
      refine eq_ok_of_toOption ((r.apply_append first change (by omega)).trans ?_)
      rw [keep, if_neg (by omega)]
    simp only [applyAll, applied]
    by_cases last : rest = []
    · subst last
      rw [appendsFrom, List.map_eq_nil_iff] at changes
      subst changes
      simp [applyAll, next]
    · -- the others follow right behind, so they cut nothing
      have whole : next.entries.take (start + group.length - 1) = next.entries := by
        rw [Array.take, Array.extract_eq_self_of_le (by omega)]
      rw [ih next (by omega) (by omega) last changes filled_rest (by omega), whole]
      simp [next]

/-- The records of one hook. -/
theorem applyAll_changesOf (r : Replica) (stamps : UInt64 → UInt64) (lsn : UInt64) {hook : Hook}
    (storable : hook.Storable) :
    (r.applyAll (Record.numbered stamps lsn (Journal.changesOf hook))).toOption =
      r.keep hook := by
  cases hook with
  | term term vote => rfl
  | sync => rfl
  | commit index =>
    have index_eq : (UInt64.ofNat index).toNat = index := by
      rw [UInt64.toNat_ofNat', Nat.mod_eq_of_lt storable]
    simp [Journal.changesOf, Record.numbered, applyAll, apply, keep, index_eq, Except.toOption]
  | append start entries =>
    have within : start + entries.size < UInt64.size := storable
    rw [Journal.changesOf]
    by_cases empty : entries.toList = []
    · -- an empty batch is one append without entries
      have batch : entries = #[] := Array.toList_eq_nil_iff.mp empty
      subst batch
      have within' : start < UInt64.size := by omega
      have bare : Change.append (.ofNat start) [] =
          .append (.ofNat start) (([] : List Entry).map .ofEntry) := rfl
      have applied := r.apply_append ⟨lsn, .append (.ofNat start) [], stamps lsn⟩ bare within'
      have none : groups recordBudget [] = [] := by rw [groups]
      rw [splitAppend, none]
      simp only [Record.numbered, applyAll]
      rw [← applied]
      cases r.apply ⟨lsn, .append (.ofNat start) [], stamps lsn⟩ <;> rfl
    · have whole := flatten_groups recordBudget entries.toList
      have changes := Record.map_change_numbered stamps lsn
        (appendsFrom start (groups recordBudget entries.toList))
      have some : groups recordBudget entries.toList ≠ [] := by
        intro none
        rw [none] at whole
        exact empty whole.symm
      rw [splitAppend_of_ne_nil start empty]
      by_cases gap : start = 0 ∨ r.entries.size + 1 < start
      · -- a gap is found at the first record
        obtain ⟨group, rest, parts⟩ := List.exists_cons_of_ne_nil some
        have found := r.apply_gap ⟨lsn, .append (.ofNat start) (group.map .ofEntry), stamps lsn⟩
          rfl (by omega) gap
        rw [keep, if_pos gap, parts, appendsFrom, Record.numbered, applyAll, found]
        rfl
      · rw [r.applyAll_appendsFrom (by omega) (by omega) some changes
          (fun _ => ne_nil_of_mem_groups) (by rw [whole, Array.length_toList]; omega), whole, keep,
          if_neg gap]
        rfl

/-- Replaying the records of hooks leads where the hooks lead. -/
theorem applyAll_recordsOf (r : Replica) (stamps : UInt64 → UInt64) (lsn : UInt64)
    {hooks : List Hook} (storable : ∀ hook ∈ hooks, hook.Storable) :
    (r.applyAll (Journal.recordsOf stamps lsn hooks)).toOption = r.keepAll hooks := by
  induction hooks generalizing r lsn with
  | nil => rfl
  | cons hook rest ih =>
    have first := r.applyAll_changesOf stamps lsn (storable hook List.mem_cons_self)
    rw [Journal.recordsOf, List.flatMap_cons, Record.numbered_append, applyAll_append, keepAll,
      ← first]
    cases r.applyAll (Record.numbered stamps lsn (Journal.changesOf hook)) with
    | error fault => rfl
    | ok next => exact ih next _ fun h hh => storable h (List.mem_cons_of_mem _ hh)

theorem ofRecords_recordsOf (stamps : UInt64 → UInt64) (lsn : UInt64) {hooks : List Hook}
    (storable : ∀ hook ∈ hooks, hook.Storable) :
    (ofRecords (Journal.recordsOf stamps lsn hooks)).toOption =
      (empty.keepAll hooks).map clamp := by
  rw [← applyAll_recordsOf empty stamps lsn storable, ofRecords]
  cases empty.applyAll (Journal.recordsOf stamps lsn hooks) <;> rfl

end Replica

end DurableLog
