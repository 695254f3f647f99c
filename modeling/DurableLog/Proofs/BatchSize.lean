import DurableLog.Journal.Store
import DurableLog.Proofs.Arrival
import DurableLog.Proofs.Origins
import DurableLog.Proofs.Reading

/-!
# A batch fits into its records

Four bounds have to meet for a batch to be stored: the limit that valid settings put on payloads,
what is held of a payload that is read, what a splitter counts for an entry, and what the fields of
an append really take.

* A payload that is taken in is never longer than the limit (`Capture.Leads.within`).
* An append takes 36 bytes besides its entries, and an entry 29 besides its payload
  (`Record.size_append`), of the 64 and 32 that are set aside.
* So the records of a batch of possible payloads have frames (`Record.fits_of_mem_splitAppend`),
  and only the file can make a writer fail (`Writer.appendAll_error`).

`captured_batch_fits` puts them together.
-/

namespace DurableLog

/-! ## What is taken in -/

/-- What is true of the state in which an attempt waits, or of what it gives at its end. -/
def Attempt.Keeps {σ α : Type} (state : σ → Prop) (result : α → Prop) : Attempt σ α → Prop
  | .waiting s => state s
  | .finished (.ok a) => result a
  | .finished (.error _) => True

/-- The payload is not longer than it may be. -/
def Entry.Within (intake : Intake) (e : Entry) : Prop := e.size ≤ intake.limit

namespace Filling

variable {intake : Intake} {signals : Signals} {f g : Filling}

/-- No more is held than may be. -/
def Within (intake : Intake) (f : Filling) : Prop := f.held.size ≤ intake.limit

theorem within_start (intake : Intake) (stream : Stream) : (start intake stream).Within intake :=
  Nat.zero_le _

/-- The limit is looked at after every read, and an entry is made of what is held. -/
theorem Within.next (h : f.Within intake) (signals : Signals) :
    match f.next intake signals with
    | .blocked => True
    | .go g => g.Within intake
    | .ended (.ok entry) => entry.Within intake
    | .ended (.error _) => True := by
  have step := f.next_step intake signals
  generalize f.next intake signals = next at step ⊢
  cases step with
  | cancelled | fails | blocked | overflows => trivial
  | ends | passes => exact h
  | reads _ _ _ within _ | finishes _ _ within _ => exact within

/-- A piece for which there is room is read at once. -/
theorem next_piece {data : ByteArray} {rest : List Piece} (on : signals.cancelled = false)
    (pending : f.pending = .bytes data :: rest) (taken : f.taken = 0) (some : data.size ≠ 0)
    (room : data.size ≤ f.nextRoom intake) (short : f.held.size + data.size ≤ intake.limit) :
    f.next intake signals = .go { f with
      pending := rest
      taken := 0
      held := f.held ++ data
      room := f.nextRoom intake - data.size } := by
  have count : min (f.nextRoom intake) (data.size - 0) = data.size := by omega
  have within : ¬ intake.limit < (f.held ++ data).size := by
    rw [ByteArray.size_append]
    omega
  simp only [next, on, Bool.false_eq_true, if_false, pending, if_neg some, taken, count,
    Bytes.slice_whole, if_neg within, Nat.zero_add, Nat.lt_irrefl]

/-- Reading on never holds more than may be held. -/
theorem Within.run (h : f.Within intake) (signals : Signals) :
    (f.run intake signals).Keeps (Filling.Within intake) (Entry.Within intake) := by
  fun_induction Filling.run intake signals f with
  | case1 f _ => exact h
  | case2 f result ended =>
    have step := h.next signals
    rw [ended] at step
    cases result with
    | error fault => trivial
    | ok entry => exact step
  | case3 f g goes ih =>
    have step := h.next signals
    rw [goes] at step
    exact ih step

end Filling

namespace Capture

variable {intake : Intake} {signals : Signals}

/-- No payload taken in so far is longer than it may be, and none to come is finished yet. -/
structure Within (intake : Intake) (c : Capture) : Prop where
  finished : ∀ entry ∈ c.finished, entry.Within intake
  current : ∀ f ∈ c.current, f.Within intake
  rest : ∀ source ∈ c.rest, source.reusable = none

theorem within_start {sources : List Source}
    (streamed : ∀ source ∈ sources, source.reusable = none) : (start sources).Within intake where
  finished := by simp [start]
  current := by simp [start]
  rest := streamed

theorem within_push {entries : Array Entry} {entry : Entry}
    (before : ∀ e ∈ entries, e.Within intake) (new : entry.Within intake) :
    ∀ e ∈ entries.push entry, e.Within intake := by
  intro e mem
  rcases Array.mem_push.mp mem with mem | rfl
  · exact before e mem
  · exact new

/-- A source that is no finished entry is read. -/
theorem begin_keeps (intake : Intake) (signals : Signals) {source : Source}
    (streamed : source.reusable = none) :
    (begin intake signals source).Keeps (Filling.Within intake) (Entry.Within intake) := by
  cases source with
  | complete entry => cases streamed
  | streamed stream =>
    have none : stream.reusable = none := streamed
    have read := (Filling.within_start intake stream).run signals
    simp only [begin, none]
    by_cases off : signals.cancelled = true
    · rw [if_pos off]
      trivial
    · rw [if_neg off]
      cases stream.announced with
      | none => exact read
      | some size =>
        simp only
        by_cases long : intake.limit < size
        · rw [if_pos long]
          trivial
        · rwa [if_neg long]

theorem runRest_keeps {finished : Array Entry} {sources : List Source}
    (before : ∀ entry ∈ finished, entry.Within intake)
    (streamed : ∀ source ∈ sources, source.reusable = none) :
    (runRest intake signals finished sources).Keeps (Capture.Within intake)
      (∀ entry ∈ ·, entry.Within intake) := by
  induction sources generalizing finished with
  | nil => exact before
  | cons source rest ih =>
    obtain ⟨first, others⟩ := List.forall_mem_cons.mp streamed
    have begun := begin_keeps intake signals first
    rw [runRest]
    cases attempt : begin intake signals source with
    | waiting f =>
      rw [attempt] at begun
      refine ⟨before, ?_, others⟩
      rintro _ ⟨⟩
      exact begun
    | finished result =>
      rw [attempt] at begun
      cases result with
      | error fault => trivial
      | ok entry => exact ih (within_push before begun) others

/-- Every step of taking in keeps payloads within the limit. -/
theorem Within.run {c : Capture} (h : c.Within intake) (signals : Signals) :
    (c.run intake signals).Keeps (Capture.Within intake) (∀ entry ∈ ·, entry.Within intake) := by
  unfold Capture.run
  cases filling : c.current with
  | none => exact runRest_keeps h.finished h.rest
  | some f =>
    have read := (h.current f filling).run signals
    simp only
    cases attempt : f.run intake signals with
    | waiting g =>
      rw [attempt] at read
      refine ⟨h.finished, ?_, h.rest⟩
      rintro _ ⟨⟩
      exact read
    | finished result =>
      rw [attempt] at read
      cases result with
      | error fault => trivial
      | ok entry => exact runRest_keeps (within_push h.finished read) h.rest

/-- However the pieces arrive, no payload that is taken in is longer than the limit. -/
theorem Leads.within {c : Capture} {taken : Except Fault (Array Entry)}
    (leads : c.Leads intake taken) (h : c.Within intake) :
    ∀ entries, taken = .ok entries → ∀ entry ∈ entries, entry.Within intake := by
  induction leads with
  | ends signals ended =>
    rintro entries rfl
    have kept := h.run signals
    rwa [ended] at kept
  | goes signals pauses _ ih =>
    have kept := h.run signals
    rw [pauses] at kept
    exact ih kept

end Capture

/-! ## What an append takes -/

/-- The entries of an append take 3 bytes each less than the splitter counts for them. -/
theorem Body.size_entries (group : List Entry) :
    (entries (group.map StoredEntry.ofEntry)).size + 3 * group.length = Entry.totalCost group := by
  induction group with
  | nil => rfl
  | cons e rest ih =>
    have split : (entries ((e :: rest).map StoredEntry.ofEntry)).size =
        (encodeEntry (.ofEntry e)).size + (entries (rest.map StoredEntry.ofEntry)).size :=
      ByteArray.size_append
    have payload : (StoredEntry.ofEntry e).payload.size = e.size := rfl
    rw [split, size_encodeEntry, payload, List.length_cons, Entry.totalCost, Entry.cost,
      entryOverhead]
    omega

namespace Record

/-- An append takes 36 bytes besides its entries, and 29 for each besides its payload. -/
theorem size_append (lsn stamp start : UInt64) (group : List Entry) :
    (Record.mk lsn (.append start (group.map .ofEntry)) stamp).encode.size + 3 * group.length =
      36 + Entry.totalCost group := by
  have all := Body.size_entries group
  rw [size_encode]
  simp only [Body.fields, ByteArray.size_append, Bytes.size_le32, Bytes.size_le64]
  omega

end Record

/-! ## What the splitter makes -/

/-- The splitter makes appends of entries that fit the budget, or of a single one of the batch. -/
theorem mem_splitAppend {start budget : Nat} {batch : List Entry} {change : Change}
    (mem : change ∈ splitAppend start batch budget) :
    ∃ first group, change = .append first (group.map .ofEntry) ∧
      (Entry.totalCost group ≤ budget ∨ ∃ e ∈ batch, group = [e]) := by
  unfold splitAppend at mem
  split at mem
  · rw [List.mem_singleton] at mem
    exact ⟨_, [], mem, .inl (Nat.zero_le _)⟩
  · obtain ⟨first, group, part, made⟩ := mem_appendsFrom mem
    refine ⟨first, group, made, ?_⟩
    rcases cost_of_mem_groups part with fits | ⟨e, rfl⟩
    · exact .inl fits
    · refine .inr ⟨e, ?_, rfl⟩
      rw [← flatten_groups budget batch]
      exact List.mem_flatten_of_mem part List.mem_cons_self

/-- Records of a batch of possible payloads have frames, whatever their numbers and times. -/
theorem Record.fits_of_mem_splitAppend {start : Nat} {batch : List Entry} {change : Change}
    (short : ∀ e ∈ batch, e.size ≤ maxEntryPayload)
    (mem : change ∈ splitAppend start batch recordBudget) (lsn stamp : UInt64) :
    (Record.mk lsn change stamp).Fits := by
  obtain ⟨first, group, rfl, small⟩ := mem_splitAppend mem
  have size := size_append lsn stamp first group
  have cost : Entry.totalCost group ≤ recordBudget := by
    rcases small with fits | ⟨e, held, rfl⟩
    · exact fits
    · have payload := short e held
      simp only [Entry.totalCost, Entry.cost, entryOverhead, recordBudget, maxEntryPayload,
        maxRecordSize, appendOverhead] at payload ⊢
      omega
  simp only [Fits, maxRecordSize, recordBudget, appendOverhead] at cost ⊢
  omega

/-! ## Why a writer fails -/

namespace Writer

variable {φ : Type} [LogFile φ] {w : Writer} {stamps : UInt64 → UInt64} {changes : List Change}
  {fault : Fault}

/-- The fault is one of the file, told with the number of a record. -/
def FileFailed (w : Writer) (fault : Fault) : Prop := ∃ lsn cause, fault = w.failed lsn cause

theorem putAll_error {g g' : Gathered φ} {lsn : UInt64}
    (fits : ∀ r ∈ Record.numbered stamps lsn changes, r.Fits)
    (failed : w.putAll stamps g lsn changes = (.error fault, g')) : w.FileFailed fault := by
  induction changes generalizing g lsn with
  | nil => cases failed
  | cons change rest ih =>
    obtain ⟨first, others⟩ := List.forall_mem_cons.mp fits
    rw [putAll, Record.toFrame_of_fits first] at failed
    simp only at failed
    split at failed
    · cases failed
      exact ⟨_, _, rfl⟩
    · next next _ =>
      split at failed
      · next cause _ onward =>
        cases failed
        exact ih others onward
      · cases failed

theorem writeRecords_error {file file' : φ}
    (fits : ∀ r ∈ Record.numbered stamps w.nextLsn changes, r.Fits)
    (failed : w.writeRecords stamps file changes = (.error fault, file')) : w.FileFailed fault := by
  simp only [writeRecords] at failed
  split at failed
  · next put =>
    cases failed
    exact putAll_error fits put
  · split at failed
    · cases failed
      exact ⟨_, _, rfl⟩
    · split at failed
      · split at failed
        · cases failed
          exact ⟨_, _, rfl⟩
        · cases failed
      · cases failed

/-- Where all records have frames, only the file can make a call fail. -/
theorem appendAll_error {file : φ} {after : Writer × φ}
    (fits : ∀ r ∈ Record.numbered stamps w.nextLsn changes, r.Fits)
    (failed : w.appendAll stamps file changes = (.error fault, after)) : w.FileFailed fault := by
  unfold appendAll at failed
  split at failed
  · cases failed
  · split at failed
    · cases failed
      exact ⟨_, _, rfl⟩
    · split at failed
      · cases failed
      · next wrote =>
        cases failed
        exact writeRecords_error fits wrote

end Writer

/-- The changes of records are where the records come from. -/
theorem Record.change_mem_of_mem_numbered {stamps : UInt64 → UInt64} {lsn : UInt64}
    {changes : List Change} {r : Record} (mem : r ∈ numbered stamps lsn changes) :
    r.change ∈ changes := by
  have mapped := List.mem_map_of_mem (f := change) mem
  rwa [map_change_numbered] at mapped

namespace Journal

variable {j : Journal} {stamps : UInt64 → UInt64} {d : Disk} {fault : Fault}

/-- Where every change can be stored under every number, only the file can make a journal fail. -/
theorem keep_error {start : Nat} {entries : Array Entry} {after : Journal × Disk}
    (fits : ∀ change ∈ splitAppend start entries.toList recordBudget,
      ∀ lsn stamp, (Record.mk lsn change stamp).Fits)
    (failed : j.keep stamps d (.append start entries) = (.error fault, after)) :
    j.writer.FileFailed fault := by
  have each : ∀ r ∈ Record.numbered stamps j.writer.nextLsn
      (splitAppend start entries.toList recordBudget), r.Fits :=
    fun r mem => fits r.change (Record.change_mem_of_mem_numbered mem) r.lsn r.timestamp
  simp only [keep, changesOf, appendAll, withFile] at failed
  cases ended : j.writer.appendAll stamps (⟨d, j.file, j.place⟩ : OpenFile)
      (splitAppend start entries.toList recordBudget) with
  | mk result rest =>
    rw [ended] at failed
    cases result with
    | ok last => cases failed
    | error cause =>
      cases failed
      exact Writer.appendAll_error each ended

end Journal

/-! ## The main result -/

/-- Where the settings are accepted, every record of a batch that was read within their limit has a
frame, at whatever index, number and time it is stored, and a reader in front of it gives it back.
So storing such a batch fails with a fault of the file or not at all. -/
theorem captured_batch_fits {config : Config} {sources : List Source} {entries : Array Entry}
    (accepted : config.fault? = none) (streamed : ∀ source ∈ sources, source.reusable = none)
    (taken : (Capture.start sources).Leads (.ofConfig config) (.ok entries)) (start : Nat) :
    (∀ change ∈ splitAppend start entries.toList recordBudget, ∀ lsn stamp : UInt64,
      let r : Record := ⟨lsn, change, stamp⟩
      r.encode.size ≤ maxRecordSize ∧ r.toFrame = .ok r.frame ∧
        ∀ (front behind : ByteArray) (reader : Reader),
          reader.Stands (front ++ (r.frame ++ behind)) front.size front.size →
            ∃ reader', reader.next (.regular (front ++ (r.frame ++ behind))) =
                (.ok (some r), reader') ∧
              reader'.Stands (front ++ (r.frame ++ behind)) (front ++ r.frame).size
                (front ++ r.frame).size) ∧
    ∀ (j : Journal) stamps d fault after,
      j.keep stamps d (.append start entries) = (.error fault, after) →
        j.writer.FileFailed fault := by
  obtain ⟨-, -, bounded, -⟩ := config.fault?_eq_none_iff.mp accepted
  have short : ∀ e ∈ entries.toList, e.size ≤ maxEntryPayload := by
    intro e mem
    have within := taken.within (Capture.within_start streamed) entries rfl e (by simpa using mem)
    exact Nat.le_trans within bounded
  have fits {change : Change} (mem : change ∈ splitAppend start entries.toList recordBudget)
      (lsn stamp : UInt64) : (Record.mk lsn change stamp).Fits :=
    Record.fits_of_mem_splitAppend short mem lsn stamp
  constructor
  · intro change mem lsn stamp r
    have small : r.Fits := fits mem lsn stamp
    refine ⟨small, Record.toFrame_of_fits small, ?_⟩
    intro front behind reader stands
    exact Reader.next_ok stands rfl (Record.isFrame_frame small)
  · intro j stamps d fault after failed
    exact Journal.keep_error (fun _ mem => fits mem) failed

/-- A payload that arrives in two pieces with a pause between them, under a limit of four bytes. -/
theorem captured_batch_fits_paused :
    let config : Config := ⟨none, .everyWrite, 4, 4⟩
    let stream : Stream := { Stream.plain 1 ⟨.epoch, 0⟩ .empty with
      pieces := [.bytes (Bytes.ofList [1, 2, 3]), .gate "later", .bytes (Bytes.ofList [4])] }
    let entries : Array Entry := #[⟨1, .epoch, Bytes.ofList [1, 2, 3, 4], false⟩]
    config.fault? = none ∧
      (Capture.start [.streamed stream]).Leads (.ofConfig config) (.ok entries) ∧
      (∀ change ∈ splitAppend 1 entries.toList recordBudget, ∀ lsn stamp,
        (Record.mk lsn change stamp).encode.size ≤ maxRecordSize) ∧
      ∀ (j : Journal) stamps d fault after,
        j.keep stamps d (.append 1 entries) = (.error fault, after) →
          j.writer.FileFailed fault := by
  intro config stream entries
  have accepted : config.fault? = none := by decide
  have streamed : ∀ source ∈ [Source.streamed stream], source.reusable = none := by
    simp [Source.reusable, stream, Stream.plain]
  let intake := Intake.ofConfig config
  let shut : Signals := ⟨false, fun _ => false⟩
  let later : Signals := ⟨false, fun _ => true⟩
  let paused : Filling := ⟨stream, [.gate "later", .bytes (Bytes.ofList [4])], 0,
    .empty ++ Bytes.ofList [1, 2, 3], 1⟩
  let resumed : Filling := { paused with pending := [.bytes (Bytes.ofList [4])] }
  let read : Filling := ⟨stream, [], 0, paused.held ++ Bytes.ofList [4], 0⟩
  have pauses : Capture.begin intake shut (.streamed stream) = .waiting paused := by
    have first : (Filling.start intake stream).next intake shut = .go paused :=
      Filling.next_piece rfl rfl rfl (by decide) (by decide) (by decide)
    exact (Filling.run_of_go first).trans (Filling.run_of_blocked rfl)
  have resumes : paused.run intake later = .finished (.ok read.entry) := by
    have opened : paused.next intake later = .go resumed := rfl
    have second : resumed.next intake later = .go read :=
      Filling.next_piece rfl rfl rfl (by decide) (by decide) (by decide)
    rw [Filling.run_of_go opened, Filling.run_of_go second, Filling.run_of_ended rfl]
  have taken : (Capture.start [.streamed stream]).Leads intake (.ok entries) := by
    have begun : (Capture.start [.streamed stream]).run intake shut =
        .waiting ⟨#[], some paused, []⟩ := by
      simp only [Capture.run, Capture.start, Capture.runRest, pauses]
    refine .goes shut begun (.ends later ?_)
    have joined : read.entry = ⟨1, .epoch, Bytes.ofList [1, 2, 3, 4], false⟩ := by decide +kernel
    simp only [Capture.run, resumes, Capture.runRest, joined]
    rfl
  obtain ⟨records, journal⟩ := captured_batch_fits accepted streamed taken 1
  exact ⟨accepted, taken, fun change mem lsn stamp => (records change mem lsn stamp).1, journal⟩

end DurableLog
