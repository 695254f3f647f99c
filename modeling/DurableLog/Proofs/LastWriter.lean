import DurableLog.Proofs.Splitting
import Mathlib.Data.List.Induction

/-!
# The last writer of an index

Appends overlap: one cuts off what stands behind its start, and a later one may write there again.
What replaying records comes to can still be told without replaying them
(`replay_last_writer_wins`):

* an index holds what the last append that starts at or before it has put there, if that append
  reaches so far (`Record.lastAppend?`);
* the entries end where the last append of all ends (`Record.entryCount`), so whether an append
  leaves a gap is a matter of the append before it;
* term, vote and commit index are those of the last record that tells them.

The induction is from the end of the records. There the append at hand is the last writer of
everything from its start on, and it leaves what is below alone.
-/

namespace DurableLog

/-! ## Stored times -/

/-- The stored time names an instant. -/
def StoredEntry.Timed (s : StoredEntry) : Prop :=
  firstSecond ≤ s.secs.toInt ∧ s.secs.toInt ≤ lastSecond ∧
    Instant.OnUtcGrid s.secs.toInt s.nanos.toNat

instance : DecidablePred StoredEntry.Timed :=
  fun s => inferInstanceAs (Decidable (_ ∧ _ ∧ Instant.OnUtcGrid s.secs.toInt s.nanos.toNat))

/-- An entry is read back if its time names an instant. -/
theorem StoredEntry.exists_toEntry_iff (s : StoredEntry) : (∃ e, s.toEntry = .ok e) ↔ s.Timed := by
  rw [toEntry]
  by_cases timed : s.Timed
  · have named : Instant.ofUnix? s.secs.toInt s.nanos.toNat = some _ := dif_pos timed
    rw [named]
    exact iff_of_true ⟨_, rfl⟩ timed
  · have none : Instant.ofUnix? s.secs.toInt s.nanos.toNat = none := dif_neg timed
    rw [none]
    exact iff_of_false (by simp) timed

/-- Entries are read back if their times name instants. -/
theorem StoredEntry.exists_read_iff (stored : List StoredEntry) :
    (∃ read : List Entry, stored.map toEntry = read.map .ok) ↔ ∀ s ∈ stored, s.Timed := by
  constructor
  · rintro ⟨read, same⟩ s mem
    have reads : s.toEntry ∈ read.map .ok := same ▸ List.mem_map_of_mem mem
    obtain ⟨e, -, ok⟩ := List.mem_map.mp reads
    exact s.exists_toEntry_iff.mp ⟨e, ok.symm⟩
  · intro timed
    induction stored with
    | nil => exact ⟨[], rfl⟩
    | cons s rest ih =>
      obtain ⟨first, others⟩ := List.forall_mem_cons.mp timed
      obtain ⟨e, ok⟩ := s.exists_toEntry_iff.mpr first
      obtain ⟨read, same⟩ := ih others
      exact ⟨e :: read, by rw [List.map_cons, List.map_cons, ok, same]⟩

/-! ## What records tell -/

namespace Record

/-- Where an append starts, and what it holds. -/
def append? (r : Record) : Option (Nat × List StoredEntry) :=
  match r.change with
  | .append start stored => some (start.toNat, stored)
  | _ => none

/-- The term that a record tells, and the vote in it. -/
def term? (r : Record) : Option (Term × Option Member) :=
  match r.change with
  | .term term vote => some (term, vote)
  | _ => none

/-- The appends among records. -/
def appends (records : List Record) : List (Nat × List StoredEntry) := records.filterMap append?

/-- The last append that starts at an index or before it. -/
def lastAppend? (records : List Record) (index : Nat) : Option (Nat × List StoredEntry) :=
  ((appends records).filter fun a => decide (a.1 ≤ index)).getLast?

/-- What the last append that starts at an index or before it holds for the index, if it reaches so
far. -/
def written? (records : List Record) (index : Nat) : Option StoredEntry :=
  (lastAppend? records index).bind fun a => a.2[index - a.1]?

/-- The number of entries up to the end of the last append. -/
def entryCount (records : List Record) : Nat :=
  (appends records).getLast?.elim 0 fun a => a.1 - 1 + a.2.length

/-- The last term and vote that records tell. -/
def lastTerm (records : List Record) : Term × Option Member :=
  (records.filterMap term?).getLastD (0, none)

/-- If the record is an append, it starts behind the sentinel and leaves no gap behind the records
before it, and it holds times that name instants. -/
def InPlace (before : List Record) (r : Record) : Prop :=
  ∀ start stored, r.append? = some (start, stored) →
    (1 ≤ start ∧ start ≤ entryCount before + 1) ∧ ∀ s ∈ stored, s.Timed

variable {records : List Record} {r : Record} {start : Nat} {stored : List StoredEntry}

theorem appends_concat (records : List Record) (r : Record) :
    appends (records ++ [r]) = appends records ++ r.append?.toList := by
  rw [appends, List.filterMap_append]
  cases told : r.append? <;> simp [appends, told]

theorem entryCount_concat_append (told : r.append? = some (start, stored)) :
    entryCount (records ++ [r]) = start - 1 + stored.length := by
  rw [entryCount, appends_concat, told]
  simp

theorem entryCount_concat_other (told : r.append? = none) :
    entryCount (records ++ [r]) = entryCount records := by
  rw [entryCount, appends_concat, told, Option.toList_none, List.append_nil, entryCount]

/-- An append is the last writer from its start on, and no writer of what is below. -/
theorem written?_concat_append (told : r.append? = some (start, stored)) (index : Nat) :
    written? (records ++ [r]) index =
      if index < start then written? records index else stored[index - start]? := by
  unfold written? lastAppend?
  rw [appends_concat, told]
  split
  · next below => simp [Nat.not_le.mpr below]
  · next behind => simp [Nat.not_lt.mp behind]

theorem written?_concat_other (told : r.append? = none) (index : Nat) :
    written? (records ++ [r]) index = written? records index := by
  unfold written? lastAppend?
  rw [appends_concat, told, Option.toList_none, List.append_nil]

/-- Something holds of every record behind those before it if it holds of the last one and of the
others. -/
theorem forall_split_concat {P : List Record → Record → Prop} :
    (∀ before record after, records ++ [r] = before ++ record :: after → P before record) ↔
      (∀ before record after, records = before ++ record :: after → P before record) ∧
        P records r := by
  constructor
  · intro all
    refine ⟨fun before record after split => ?_, all records r [] rfl⟩
    exact all before record (after ++ [r]) (by rw [split]; simp)
  · rintro ⟨others, last⟩ before record after split
    rcases List.eq_nil_or_concat after with rfl | ⟨after, x, rfl⟩
    · obtain ⟨rfl, same⟩ := List.append_inj' split rfl
      cases same
      exact last
    · rw [List.concat_eq_append, ← List.cons_append, ← List.append_assoc] at split
      exact others before record after (List.append_inj' split rfl).1

end Record

namespace Replica

variable {r next : Replica} {record : Record} {records : List Record} {start : Nat}
  {held held' : Array Entry} {stored : List StoredEntry}

/-! ## One record -/

/-- The entry at an index, from 1 on. -/
def entryAt? (r : Replica) : Nat → Option Entry
  | 0 => none
  | i + 1 => r.entries[i]?

theorem entryAt?_clamp (r : Replica) (index : Nat) : r.clamp.entryAt? index = r.entryAt? index := by
  cases index <;> rfl

/-- Stored entries are put behind others if each of them is read back. -/
theorem extend_eq_ok_iff : extend held stored = .ok held' ↔
    ∃ read : List Entry, stored.map StoredEntry.toEntry = read.map .ok ∧
      held' = held ++ read.toArray := by
  induction stored generalizing held with
  | nil =>
    constructor
    · rintro ⟨⟩
      exact ⟨[], rfl, by simp⟩
    · rintro ⟨read, same, rfl⟩
      rw [List.map_nil, eq_comm, List.map_eq_nil_iff] at same
      simp [extend, same]
  | cons s rest ih =>
    rw [extend, List.map_cons]
    cases back : s.toEntry with
    | error fault =>
      refine iff_of_false (by simp) ?_
      rintro ⟨_ | ⟨e, read⟩, same, -⟩
      · cases same
      · cases same
    | ok e =>
      rw [ih]
      constructor
      · rintro ⟨read, same, rfl⟩
        exact ⟨e :: read, by rw [same, List.map_cons], by simp⟩
      · rintro ⟨_ | ⟨e', read⟩, same, rfl⟩
        · cases same
        · rw [List.map_cons, List.cons.injEq, Except.ok.injEq] at same
          obtain ⟨rfl, same⟩ := same
          exact ⟨read, same, by simp⟩

theorem apply_append_eq_ok_iff (told : record.append? = some (start, stored)) :
    r.apply record = .ok next ↔ (1 ≤ start ∧ start ≤ r.entries.size + 1) ∧
      ∃ read : List Entry, stored.map StoredEntry.toEntry = read.map .ok ∧
        next = { r with entries := r.entries.take (start - 1) ++ read.toArray } := by
  unfold Record.append? at told
  split at told
  · next word _ change =>
    cases told
    have zero_iff : word = 0 ↔ word.toNat = 0 := UInt64.toNat_inj.symm
    simp only [apply, change, zero_iff]
    split
    · refine iff_of_false (by simp) fun placed => ?_
      have within := placed.1
      omega
    · rw [and_iff_right (by omega)]
      cases read : extend (r.entries.take (word.toNat - 1)) stored with
      | error fault =>
        refine iff_of_false (by simp [Except.map]) ?_
        rintro ⟨entries, same, -⟩
        cases read.symm.trans (extend_eq_ok_iff.mpr ⟨entries, same, rfl⟩)
      | ok entries =>
        obtain ⟨found, same, rfl⟩ := extend_eq_ok_iff.mp read
        constructor
        · rintro ⟨⟩
          exact ⟨found, same, rfl⟩
        · rintro ⟨entries, same', rfl⟩
          rw [same, List.map_inj_right fun _ _ => Except.ok.inj] at same'
          rw [same', Except.map]
  · cases told

theorem apply_other (told : record.append? = none) :
    ∃ next, r.apply record = .ok next ∧ next.entries = r.entries := by
  unfold Record.append? at told
  rw [apply]
  cases change : record.change with
  | append start stored =>
    rw [change] at told
    cases told
  | term term vote => exact ⟨_, rfl, rfl⟩
  | commit index => exact ⟨_, rfl, rfl⟩

theorem term_apply (applied : r.apply record = .ok next) :
    (next.term, next.vote) = record.term?.getD (r.term, r.vote) := by
  have done := r.applied_apply record
  rw [applied] at done
  cases done with
  | term change | commit change | append change => rw [Record.term?, change, Option.getD]

/-! ## All records -/

theorem applyAll_concat_eq_ok :
    r.applyAll (records ++ [record]) = .ok next ↔
      ∃ before, r.applyAll records = .ok before ∧ before.apply record = .ok next := by
  rw [applyAll_append]
  cases r.applyAll records with
  | error fault => exact iff_of_false nofun nofun
  | ok before =>
    simp only [Except.bind, applyAll, Except.ok.injEq, exists_eq_left']
    cases before.apply record <;> simp

/-- Term and vote are the last that are told. -/
theorem term_applyAll (leads : empty.applyAll records = .ok r) :
    (r.term, r.vote) = Record.lastTerm records := by
  induction records using List.reverseRecOn generalizing r with
  | nil =>
    cases leads
    rfl
  | append_singleton records record ih =>
    obtain ⟨before, led, applied⟩ := applyAll_concat_eq_ok.mp leads
    rw [term_apply applied, ih led, Record.lastTerm, Record.lastTerm, List.filterMap_append]
    cases told : record.term? <;> simp [told]

/-- The entries end where the last append does. -/
theorem size_of_applyAll (leads : empty.applyAll records = .ok r) :
    r.entries.size = Record.entryCount records := by
  induction records using List.reverseRecOn generalizing r with
  | nil =>
    cases leads
    rfl
  | append_singleton records record ih =>
    obtain ⟨before, led, applied⟩ := applyAll_concat_eq_ok.mp leads
    cases told : record.append? with
    | none =>
      obtain ⟨next, applied', same⟩ := apply_other (r := before) told
      cases applied.symm.trans applied'
      rw [same, ih led, Record.entryCount_concat_other told]
    | some a =>
      obtain ⟨within, read, same, rfl⟩ := (apply_append_eq_ok_iff told).mp applied
      have length : a.2.length = read.length := by
        simpa using congrArg List.length same
      rw [Record.entryCount_concat_append told, length]
      simp only [Array.size_append, Array.take, Array.size_extract, List.size_toArray]
      omega

/-- An append that is read back stands from its start on, and what is below is left alone. -/
theorem entryAt?_append {read : List Entry} (placed : 1 ≤ start ∧ start ≤ r.entries.size + 1)
    (index : Nat) :
    entryAt? { r with entries := r.entries.take (start - 1) ++ read.toArray } index =
      if index < start then r.entryAt? index else read[index - start]? := by
  cases index with
  | zero => exact (if_pos placed.1).symm
  | succ i =>
    have cut : (r.entries.take (start - 1)).size = start - 1 := by
      simp only [Array.take, Array.size_extract]
      omega
    simp only [entryAt?]
    split
    · rw [Array.getElem?_append_left (by omega), Array.take, Array.getElem?_extract,
        if_pos (by omega), Nat.zero_add]
    · have place : i - (start - 1) = i + 1 - start := by omega
      rw [Array.getElem?_append_right (by omega), cut, List.getElem?_toArray, place]

/-- Every index is as its last writer has left it. -/
theorem entryAt?_of_applyAll (leads : empty.applyAll records = .ok r) (index : Nat) :
    (r.entryAt? index).map .ok = (Record.written? records index).map StoredEntry.toEntry := by
  induction records using List.reverseRecOn generalizing r with
  | nil =>
    cases leads
    cases index <;> rfl
  | append_singleton records record ih =>
    obtain ⟨before, led, applied⟩ := applyAll_concat_eq_ok.mp leads
    cases told : record.append? with
    | none =>
      obtain ⟨next, applied', same⟩ := apply_other (r := before) told
      cases applied.symm.trans applied'
      have entry : r.entryAt? index = before.entryAt? index := by
        cases index <;> simp only [entryAt?, same]
      rw [entry, ih led, Record.written?_concat_other told]
    | some a =>
      obtain ⟨start, stored⟩ := a
      obtain ⟨placed, read, same, rfl⟩ := (apply_append_eq_ok_iff told).mp applied
      rw [entryAt?_append placed, Record.written?_concat_append told]
      split
      · exact ih led
      · rw [← List.getElem?_map, ← List.getElem?_map, same]

/-- Records lead to a state exactly if every append among them is in place. -/
theorem exists_applyAll_iff : (∃ r, empty.applyAll records = .ok r) ↔
    ∀ before record after, records = before ++ record :: after → record.InPlace before := by
  induction records using List.reverseRecOn with
  | nil => exact iff_of_true ⟨_, rfl⟩ (by simp)
  | append_singleton records record ih =>
    rw [Record.forall_split_concat, ← ih]
    constructor
    · rintro ⟨r, leads⟩
      obtain ⟨before, led, applied⟩ := applyAll_concat_eq_ok.mp leads
      refine ⟨⟨before, led⟩, fun start stored told => ?_⟩
      obtain ⟨placed, read, same, -⟩ := (apply_append_eq_ok_iff told).mp applied
      rw [size_of_applyAll led] at placed
      exact ⟨placed, (StoredEntry.exists_read_iff stored).mp ⟨read, same⟩⟩
    · rintro ⟨⟨before, led⟩, inPlace⟩
      suffices ∃ next, before.apply record = .ok next by
        obtain ⟨next, applied⟩ := this
        exact ⟨next, applyAll_concat_eq_ok.mpr ⟨before, led, applied⟩⟩
      cases told : record.append? with
      | none =>
        obtain ⟨next, applied, -⟩ := apply_other (r := before) told
        exact ⟨next, applied⟩
      | some a =>
        obtain ⟨placed, timed⟩ := inPlace a.1 a.2 told
        obtain ⟨read, same⟩ := (StoredEntry.exists_read_iff a.2).mpr timed
        rw [← size_of_applyAll led] at placed
        exact ⟨_, (apply_append_eq_ok_iff told).mpr ⟨placed, read, same, rfl⟩⟩

end Replica

/-! ## The main result -/

/-- **The last writer of an index wins.** Records are replayed if every append among them starts
behind the sentinel, leaves no gap behind the entries that the records before it lead to, and holds
times that name instants. The entries then end where the last append ends, and an index has an entry
if the last append that starts at or before it reaches so far, and it is the one this append holds
for it. Term and vote are the last that are told; the commit index is the last one, brought down to
the entries there are. -/
theorem replay_last_writer_wins (records : List Record) :
    ((∃ r, Replica.ofRecords records = .ok r) ↔
      ∀ before record after, records = before ++ record :: after → record.InPlace before) ∧
    ∀ r, Replica.ofRecords records = .ok r →
      r.entries.size = Record.entryCount records ∧
      (∀ index, (r.entryAt? index).map .ok =
        (Record.written? records index).map StoredEntry.toEntry) ∧
      (r.term, r.vote) = Record.lastTerm records ∧
      r.commitIndex = min (Record.committed records) r.entries.size := by
  constructor
  · rw [← Replica.exists_applyAll_iff]
    constructor
    · rintro ⟨r, leads⟩
      obtain ⟨recorded, replayed, -⟩ := Replica.exists_of_ofRecords leads
      exact ⟨recorded, replayed⟩
    · rintro ⟨recorded, replayed⟩
      exact ⟨_, Replica.ofRecords_of_applyAll replayed⟩
  · intro r leads
    obtain ⟨recorded, replayed, rfl⟩ := Replica.exists_of_ofRecords leads
    have commits : recorded.commitIndex = Record.committed records :=
      Replica.commitIndex_applyAll replayed
    have size := Replica.size_of_applyAll replayed
    have term := Replica.term_applyAll replayed
    refine ⟨size, fun index => ?_, term, ?_⟩
    · rw [Replica.entryAt?_clamp, Replica.entryAt?_of_applyAll replayed]
    · rw [← commits]
      rfl

/-- Three entries are cut down to one, and a second one is put behind it. -/
example :
    let stored (term : Term) : StoredEntry := ⟨term, 0, 0, .empty, false⟩
    let records : List Record :=
      [⟨1, .append 1 [stored 1, stored 1, stored 1], 0⟩, ⟨2, .append 1 [stored 2], 0⟩,
        ⟨3, .append 2 [stored 3], 0⟩]
    (List.range 4).map (Record.written? records) =
      [none, some (stored 2), some (stored 3), none] := by
  decide

end DurableLog
