import DurableLog.Log.Log
import DurableLog.Proofs.JournalOnDisk
import DurableLog.Proofs.Timestamps
import DurableLog.Session.Run

/-!
# Inspecting a file and opening it

Two ways lead from the bytes of a log file to a state: an inspection surveys the file and replays
what it finds; opening a log recovers the file, replays, surveys what is left once more and goes on
behind it. They agree on files of any content (`inspection_agrees_with_opening`):

* the one fails exactly when the other does, with the same fault, and else they give the same
  state;
* an inspection leaves the file alone, and opening leaves its valid prefix, whether it fails or not;
* a dump tells the entries of the log that opens, a line for each index asked for
  (`Inspection.dumpLines_eq`);
* a line is made of words (`Inspection.entryLine_eq`) from which everything it tells can be read
  back (`Inspection.entryLine_inj`).
-/

namespace DurableLog

namespace Inspection

/-! ## What a line tells -/

section
open Text

/-- The marks at the end of a line. -/
def marks (isSnapshot isCommitted : Bool) : List Char :=
  (if isSnapshot then " snapshot".toList else []) ++ if isCommitted then " committed".toList else []

theorem marks_inj : ∀ {snapshot snapshot' committed committed' : Bool},
    marks snapshot committed = marks snapshot' committed' →
      snapshot = snapshot' ∧ committed = committed' := by decide

theorem toList_entryLine (commitIndex index : Nat) (e : Entry) :
    (entryLine commitIndex index e).toList =
      (column 8 index).toList ++ ' ' :: ((Rfc3339.text e.timestamp).toList ++
        ' ' :: ("term=".toList ++ (numeral e.term.toNat ++ ' ' :: (numeral e.size ++
          ' ' :: ("bytes".toList ++ marks e.isSnapshot (index ≤ commitIndex)))))) := by
  have term : (toString e.term).toList = numeral e.term.toNat := Nat.toList_repr
  by_cases snapshot : e.isSnapshot = true <;> by_cases committed : index ≤ commitIndex <;>
    simp [entryLine, numeral, term, marks, snapshot, committed]

/-- A line tells the index, the time, the term and the size of an entry, whether it is a snapshot
and whether it is committed. -/
theorem entryLine_inj {commitIndex commitIndex' index index' : Nat} {e e' : Entry} :
    entryLine commitIndex index e = entryLine commitIndex' index' e' ↔
      index = index' ∧ e.timestamp = e'.timestamp ∧ e.term = e'.term ∧ e.size = e'.size ∧
        e.isSnapshot = e'.isSnapshot ∧ (index ≤ commitIndex ↔ index' ≤ commitIndex') := by
  constructor
  · intro h
    have chars := congrArg String.toList h
    have number (back : List Char) : ∀ c ∈ (' ' :: back).head?, c.isDigit = false := by simp
    have word (back : List Char) : ∀ c ∈ (' ' :: back).head?, (c != ' ') = false := by simp
    have one_word (i : Instant) : ∀ c ∈ (Rfc3339.text i).toList, c != ' ' := fun c mem =>
      bne_iff_ne.mpr fun blank => Rfc3339.blank_not_mem_text i (blank ▸ mem)
    rw [toList_entryLine, toList_entryLine] at chars
    obtain ⟨index, chars⟩ := column_append_inj (number _) (number _) chars
    obtain ⟨time, chars⟩ := eq_of_span (p := (· != ' ')) (one_word _) (one_word _) (word _)
      (word _) (List.cons.inj chars).2
    obtain ⟨term, chars⟩ := numeral_append_inj (number _) (number _)
      (List.append_cancel_left (List.cons.inj chars).2)
    obtain ⟨size, chars⟩ := numeral_append_inj (number _) (number _) (List.cons.inj chars).2
    obtain ⟨snapshot, committed⟩ := marks_inj (List.append_cancel_left (List.cons.inj chars).2)
    exact ⟨index, Rfc3339.text_inj.mp (String.toList_inj.mp time), UInt64.toNat_inj.mp term, size,
      snapshot, decide_eq_decide.mp committed⟩
  · rintro ⟨rfl, time, term, size, snapshot, committed⟩
    simp only [entryLine, time, term, size, snapshot, committed]

end

/-! ## The lines of a dump -/

variable {r : Replica} {commitIndex index first : Nat} {last : Option Nat} {entries : List Entry}

theorem entryLines_eq_map (commitIndex index : Nat) (entries : List Entry) :
    (entryLines commitIndex index entries).map some =
      (List.range' index entries.length).map fun i =>
        entries[i - index]?.map (entryLine commitIndex i) := by
  induction entries generalizing index with
  | nil => rfl
  | cons e rest ih =>
    have here : (e :: rest)[index - index]? = some e := by simp
    have later : ∀ i ∈ List.range' (index + 1) rest.length,
        rest[i - (index + 1)]?.map (entryLine commitIndex i) =
          (e :: rest)[i - index]?.map (entryLine commitIndex i) := by
      intro i mem
      have behind := (List.mem_range'_1.mp mem).1
      have place : i - index = i - (index + 1) + 1 := by omega
      rw [place, List.getElem?_cons_succ]
    rw [entryLines, List.map_cons, ih, List.length_cons, List.range'_succ, List.map_cons, here,
      List.map_congr_left later]
    rfl

/-- Entries stand at their indices behind the sentinel. -/
theorem getElem?_slots (entries : Array Entry) {i : Nat} (behind : 1 ≤ i) :
    (Snapshot.ofEntries entries).slots[i]? = entries[i - 1]? :=
  Array.getElem?_append_right behind

/-- A dump tells a line for each index asked for, of the entry that a log has there that opens in
this state. -/
theorem dumpLines_eq (r : Replica) (first : Nat) {last : Nat} (within : last ≤ r.entries.size) :
    ∃ lines, dumpLines r first (some last) = .ok lines ∧
      lines.map some =
        (List.range' (max first 1) (last + 1 - max first 1)).map fun i =>
          (Memory.ofReplica r).snapshot.slots[i]?.map (entryLine r.commitIndex i) := by
  let start := max first 1
  let told := (r.entries.extract (start - 1) last).toList
  have some_index : 1 ≤ start := Nat.le_max_right ..
  have length : told.length = last + 1 - start := by
    simp only [told, Array.length_toList, Array.size_extract]
    omega
  refine ⟨entryLines r.commitIndex start told, if_neg (Nat.not_lt.mpr within), ?_⟩
  rw [entryLines_eq_map, length]
  refine List.map_congr_left fun i mem => ?_
  obtain ⟨above, below⟩ := List.mem_range'_1.mp mem
  have place : start - 1 + (i - start) = i - 1 := by omega
  have asked : told[i - start]? = r.entries[i - 1]? := by
    rw [Array.getElem?_toList, Array.getElem?_extract, if_pos (by omega), place]
  have opened : (Memory.ofReplica r).snapshot = .ofEntries r.entries := rfl
  rw [asked, opened, getElem?_slots _ (by omega)]

/-- A dump past the last entry is refused. -/
theorem dumpLines_error {r : Replica} (first : Nat) {last : Nat} (past : r.entries.size < last) :
    dumpLines r first (some last) = .error (.indexOutOfRange last (r.entries.size + 1)) :=
  if_pos past

/-- What a dump comes to, told of a log that opens in the state that is dumped. -/
theorem dumpLines_spec (r : Replica) (first : Nat) (last : Option Nat) :
    let log := (Memory.ofReplica r).snapshot
    let upto := last.getD log.lastIndex
    ((∃ index length, dumpLines r first last = .error (.indexOutOfRange index length)) ↔
      log.lastIndex < upto) ∧
    (upto ≤ log.lastIndex → ∃ lines, dumpLines r first last = .ok lines ∧
      lines.map some = (List.range' (max first 1) (upto + 1 - max first 1)).map fun i =>
        log.slots[i]?.map (entryLine r.commitIndex i)) := by
  intro log upto
  have lastIndex : log.lastIndex = r.entries.size := by
    rw [← Snapshot.size_entries]
    exact congrArg Array.size (Snapshot.entries_ofEntries r.entries)
  -- without an end a dump goes on to the last entry
  have asked : dumpLines r first last = dumpLines r first (some upto) := by
    simp only [upto, lastIndex]
    cases last <;> rfl
  rw [asked, lastIndex]
  by_cases past : r.entries.size < upto
  · have refused := dumpLines_error first past
    exact ⟨⟨fun _ => past, fun _ => ⟨_, _, refused⟩⟩, fun within => absurd past (by omega)⟩
  · obtain ⟨lines, printed, all⟩ := dumpLines_eq r first (Nat.not_lt.mp past)
    refine ⟨⟨?_, fun out => absurd out past⟩, fun _ => ⟨lines, printed, all⟩⟩
    rintro ⟨index, length, refused⟩
    rw [printed] at refused
    cases refused

/-- Inspecting the state reads it. -/
theorem replica_eq {d : Disk} {file : Nat} {b : ByteArray} (stores : d.Stores file b) :
    replica d = d.readReplica := if_pos stores.hasLog

end Inspection

/-! ## The main result -/

/-- On a log file of any content, with any valid settings for a log in its directory: reading the
state and opening the log fail alike or give the same state; a session that reads, verifies or
inspects leaves the disk as it is, while opening leaves the valid prefix of the file; and a dump is
refused exactly if it goes past the last index of the opened log, and else tells its entries, one
line for each index from the first that is asked for to the last. A line is made of the index, the
time, the term and the size of the entry, of a mark if it is a snapshot and of one if the log has it
committed; and two lines are the same only if they tell the same of all these. -/
theorem inspection_agrees_with_opening {d : Disk} {file : Nat} {b : ByteArray}
    (stores : d.Stores file b) {config : Config} (valid : config.Valid)
    (durable : config.dataDir.isSome) :
    (∃ records s, d.survey = .ok (records, s) ∧ s.validBytes ≤ b.size ∧
      (d.openLog config).2 = d.setContent file (.regular (b.extract 0 s.validBytes))) ∧
    (∀ session : Session, session.disk = d → ∀ inspection,
      (session.perform .readReplica).2.disk = d ∧
        (session.perform (.inspect inspection)).2.disk = d) ∧
    (∀ fault, d.readReplica = .error fault ↔ (d.openLog config).1 = .error fault) ∧
    (∀ r, d.readReplica = .ok r ↔ ∃ j, (d.openLog config).1 = .ok (r, some j)) ∧
    (∀ r j, (d.openLog config).1 = .ok (r, some j) →
      let m := (Log.ofReplica config r).memory
      (m.term = r.term ∧ m.vote = r.vote ∧ m.snapshot.entries = r.entries ∧
        m.commitIndex = r.commitIndex) ∧
      ∀ first last,
        let dumped := (Inspection.dump first last).run d
        let upto := last.getD m.snapshot.lastIndex
        ((∃ index length, dumped = .error (.indexOutOfRange index length)) ↔
          m.snapshot.lastIndex < upto) ∧
        (upto ≤ m.snapshot.lastIndex → ∃ lines, dumped = .ok lines ∧
          lines.map some = (List.range' (max first 1) (upto + 1 - max first 1)).map fun i =>
            m.snapshot.slots[i]?.map (Inspection.entryLine m.commitIndex i))) ∧
    (∀ commitIndex index e, Inspection.entryLine commitIndex index e = " ".intercalate (
      [Text.column 8 index, Rfc3339.text e.timestamp, "term=" ++ toString e.term,
        toString e.size, "bytes"] ++ (if e.isSnapshot then ["snapshot"] else []) ++
        if index ≤ commitIndex then ["committed"] else [])) ∧
    ∀ commitIndex index e commitIndex' index' e',
      Inspection.entryLine commitIndex index e = Inspection.entryLine commitIndex' index' e' ↔
        index = index' ∧ e.timestamp = e'.timestamp ∧ e.term = e'.term ∧ e.size = e'.size ∧
          e.isSnapshot = e'.isSnapshot ∧ (index ≤ commitIndex ↔ index' ≤ commitIndex') := by
  obtain ⟨records, s, finds⟩ := Survey.exists_finds b
  have read := stores.readReplica finds
  have opens := stores.openLog_cases finds valid durable
  refine ⟨⟨records, s, stores.survey finds, finds.within, ?_⟩, ?_, ?_, ?_, ?_,
    Inspection.entryLine_eq, fun _ _ _ _ _ _ => Inspection.entryLine_inj⟩
  · rcases opens with ⟨r, j, -, opened⟩ | ⟨fault, -, failed⟩
    · rw [opened, Disk.repaired]
    · rw [failed, Disk.repaired]
  · rintro session rfl inspection
    exact ⟨rfl, rfl⟩
  · intro fault
    rw [read]
    rcases opens with ⟨r, j, leads, opened⟩ | ⟨cause, fails, failed⟩
    · rw [leads, opened]
      constructor
      · rintro ⟨⟩
      · rintro ⟨⟩
    · rw [fails, failed]
      simp only [Except.error.injEq]
  · intro r
    rw [read]
    rcases opens with ⟨state, j, leads, opened⟩ | ⟨cause, fails, failed⟩
    · rw [leads, opened]
      simp only [Except.ok.injEq, Prod.mk.injEq, Option.some.injEq, exists_and_left, exists_eq',
        and_true]
    · rw [fails, failed]
      constructor
      · rintro ⟨⟩
      · rintro ⟨_, ⟨⟩⟩
  · intro r j opened m
    have leads : d.readReplica = .ok r := by
      rw [read]
      rcases opens with ⟨state, j', leads, opened'⟩ | ⟨cause, -, failed⟩
      · rw [opened'] at opened
        cases opened
        exact leads
      · rw [failed] at opened
        cases opened
    refine ⟨⟨rfl, rfl, Snapshot.entries_ofEntries _, rfl⟩, fun first last => ?_⟩
    have dumped : (Inspection.dump first last).run d = Inspection.dumpLines r first last := by
      simp only [Inspection.run, Inspection.replica_eq stores, leads, Except.bind]
    rw [dumped]
    exact Inspection.dumpLines_spec r first last

/-- A file with one entry, a commit past it, and something torn behind them. -/
theorem inspection_agrees_with_opening_torn :
    let entry : Entry := ⟨3, .epoch, Bytes.ofList [7], true⟩
    let records : List Record := [⟨1, .append 1 [.ofEntry entry], 0⟩, ⟨2, .commit 5, 0⟩]
    let torn := Record.frames records ++ Bytes.ofList [9, 9]
    let disk : Disk :=
      ({ Disk.blank "data" with place := .aDirectory } : Disk).addLog (.regular torn)
    let config := { Config.default with dataDir := some "data" }
    disk.Stores 0 torn ∧ config.Valid ∧
      (∃ j, (disk.openLog config).1 = .ok (⟨0, none, #[entry], 1⟩, some j)) ∧
      (Inspection.dump 0 none).run disk =
        .ok ["       1 1970-01-01T00:00:00+00:00 term=3 1 bytes snapshot committed"] ∧
      ∃ index length, (Inspection.dump 1 (some 2)).run disk =
        .error (.indexOutOfRange index length) := by
  intro entry records torn disk config
  have stores : disk.Stores 0 torn := ⟨rfl, rfl, Nat.zero_lt_one, rfl⟩
  have valid : config.Valid := config.fault?_eq_none_iff.mp rfl
  obtain ⟨-, -, -, read_iff, opened, -, -⟩ := inspection_agrees_with_opening stores valid rfl
  have read : disk.readReplica = .ok ⟨0, none, #[entry], 1⟩ := by
    have fits : ∀ r ∈ records, r.encode.size ≤ maxRecordSize := by decide +kernel
    have short : Survey.Torn (Bytes.ofList [9, 9]) :=
      ⟨Nat.lt_of_lt_of_le (by decide) (Nat.le_add_right ..), fun whole => absurd whole (by decide)⟩
    exact stores.readReplica
      (Survey.finds_torn (Record.laid_frames fits) ⟨rfl, rfl, trivial⟩ short)
  obtain ⟨j, opens⟩ := (read_iff _).mp read
  obtain ⟨-, dumps⟩ := opened _ j opens
  obtain ⟨lines, dumped, told⟩ := (dumps 0 none).2 (Nat.le_refl _)
  have line : lines = [Inspection.entryLine 1 1 entry] :=
    (List.map_inj_right fun _ _ => Option.some.inj).mp told
  have text : Inspection.entryLine 1 1 entry =
      "       1 1970-01-01T00:00:00+00:00 term=3 1 bytes snapshot committed" := by decide +kernel
  refine ⟨stores, valid, ⟨j, opens⟩, by rw [dumped, line, text], ?_⟩
  exact (dumps 1 (some 2)).1.mpr (by decide)

end DurableLog
