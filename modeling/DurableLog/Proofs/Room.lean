import DurableLog.Proofs.DiskFile
import DurableLog.Proofs.FailingFile

/-!
# A file with room

What a writer adds is all or nothing on any file. On a file that takes what is written as long as
it does not grow past a limit (`FileView.Roomy`) it is all: a call whose records can be written as
frames, and whose frames fit below the limit, succeeds (`Writer.Added.perform_ok`), and so does a
run of such calls (`Writer.Added.performAll_ok`). Regular files of a disk have room up to the
disk's limit (`OpenFile.roomy`).

How long a frame is depends on the change alone (`Change.frameSize`), so the room that calls need is
known before their records are numbered.
-/

namespace DurableLog

/-! ## The length of frames -/

namespace Change

/-- The length of a frame that holds the change. -/
def frameSize (c : Change) : Nat := headerSize + (16 + (Body.fields c).size)

/-- The length of the frames that hold changes. -/
def framesSize : List Change → Nat
  | [] => 0
  | c :: rest => c.frameSize + framesSize rest

/-- The change can be stored. -/
def Fits (c : Change) : Prop := 16 + (Body.fields c).size ≤ maxRecordSize

@[simp] theorem framesSize_nil : framesSize [] = 0 := rfl

@[simp] theorem framesSize_cons (c : Change) (rest : List Change) :
    framesSize (c :: rest) = c.frameSize + framesSize rest := rfl

theorem framesSize_append (first second : List Change) :
    framesSize (first ++ second) = framesSize first + framesSize second := by
  induction first with
  | nil => simp
  | cons c rest ih => simp [ih, Nat.add_assoc]

end Change

namespace Record

theorem fits_iff (r : Record) : r.Fits ↔ r.change.Fits := by
  rw [Fits, size_encode, Change.Fits]

theorem size_frame_eq (r : Record) : r.frame.size = r.change.frameSize := by
  rw [size_frame, size_encode, Change.frameSize]

theorem size_frames (records : List Record) :
    (frames records).size = Change.framesSize (records.map change) := by
  induction records with
  | nil => rfl
  | cons r rest ih =>
    rw [frames_cons, ByteArray.size_append, size_frame_eq, ih, List.map_cons,
      Change.framesSize_cons]

end Record

/-! ## Files -/

variable {φ : Type} [LogFile φ] {V : FileView φ} {w : Writer} {f : φ} {b base extra : ByteArray}
  {limit : Nat}

namespace FileView

/-- A write at the end takes something as long as the file does not grow past the limit, and
handing on what was written succeeds. -/
structure Roomy (V : FileView φ) (limit : Nat) : Prop where
  write {f : φ} {b new : ByteArray} (atEnd : V.AtEnd f b) (some : new.size ≠ 0)
    (room : b.size + new.size ≤ limit) : ∃ n f', LogFile.write f new = (.ok n, f') ∧ n ≠ 0
  flush {f : φ} {b : ByteArray} (atEnd : V.AtEnd f b) : (LogFile.flush f).1 = .ok ()
  sync {f : φ} {b : ByteArray} (atEnd : V.AtEnd f b) : (LogFile.sync f).1 = .ok ()

theorem AtEnd.writeAll_ok (h : V.AtEnd f b) (roomy : V.Roomy limit) (stuck : FileFault)
    (new : ByteArray) (room : b.size + new.size ≤ limit) :
    (DurableLog.writeAll stuck f new).1 = .ok () := by
  fun_induction DurableLog.writeAll stuck f new generalizing b with
  | case1 f new none => rfl
  | case2 f new some fault f' failed =>
    obtain ⟨n, f', written, -⟩ := roomy.write h some room
    rw [written] at failed
    cases failed
  | case3 f new some f' written =>
    obtain ⟨n, f', taken, more⟩ := roomy.write h some room
    rw [written] at taken
    cases taken
    exact absurd rfl more
  | case4 f new some n f' written more ih =>
    obtain ⟨le, atEnd⟩ := h.write written
    refine ih atEnd ?_
    simp only [ByteArray.size_append, ByteArray.size_extract]
    omega

end FileView

namespace Gathered

variable {g : Gathered φ}

theorem Holds.flush_ok (h : g.Holds V base extra) (roomy : V.Roomy limit)
    (room : base.size + extra.size ≤ limit) : g.flush.1 = .ok () := by
  obtain ⟨part, atEnd, rfl⟩ := h
  have written := atEnd.writeAll_ok roomy .blockNotTaken g.block
    (by simp only [ByteArray.size_append] at room ⊢; omega)
  unfold Gathered.flush
  cases ended : writeAll .blockNotTaken g.file g.block with
  | mk result file =>
    rw [ended] at written
    cases written
    rfl

theorem Holds.finish_ok (h : g.Holds V base extra) (roomy : V.Roomy limit)
    (room : base.size + extra.size ≤ limit) : g.finish.1 = .ok () := by
  have written := h.flush
  have ok := h.flush_ok roomy room
  unfold Gathered.finish
  cases ended : g.flush with
  | mk result g' =>
    rw [ended] at written ok
    cases ok
    exact roomy.flush written.1

theorem Holds.place_ok (h : g.Holds V base extra) (roomy : V.Roomy limit) {frame : ByteArray}
    (empty : blockSize ≤ frame.size → g.block = .empty)
    (room : base.size + extra.size + frame.size ≤ limit) : (g.place frame).1 = .ok () := by
  obtain ⟨part, atEnd, whole⟩ := h
  unfold Gathered.place
  by_cases large : blockSize ≤ frame.size
  · have direct : part = extra := by rw [← whole, empty large, ByteArray.append_empty]
    rw [if_pos large]
    refine atEnd.writeAll_ok roomy .frameNotTaken frame ?_
    rwa [ByteArray.size_append, direct]
  · rw [if_neg large]

theorem Holds.put_ok (h : g.Holds V base extra) (roomy : V.Roomy limit) (frame : ByteArray)
    (room : base.size + extra.size + frame.size ≤ limit) : (g.put frame).1 = .ok () := by
  unfold Gathered.put
  simp only
  by_cases fits : frame.size < blockSize - g.block.size
  · rw [if_pos fits]
  · rw [if_neg fits]
    by_cases full : blockSize - g.block.size < frame.size
    · rw [if_pos full]
      have flushed := h.flush
      have ok := h.flush_ok roomy (by omega)
      cases ended : g.flush with
      | mk result g' =>
        rw [ended] at flushed ok
        cases ok
        obtain ⟨atEnd, emptied⟩ := flushed
        have holds : g'.Holds V base extra :=
          ⟨extra, atEnd, by rw [emptied, ByteArray.append_empty]⟩
        exact holds.place_ok roomy (fun _ => emptied) room
    · rw [if_neg full]
      -- the frame fills the room exactly, so a frame of a whole block finds the block empty
      have some_room : 0 < blockSize := by decide
      exact h.place_ok roomy (fun large => ByteArray.size_eq_zero_iff.mp (by omega)) room

end Gathered

/-! ## Calls -/

namespace Writer

variable {changes new : List Change} {first : UInt64}

theorem putAll_ok (w : Writer) (stamps : UInt64 → UInt64) {g : Gathered φ}
    (h : g.Holds V base extra) (roomy : V.Roomy limit) (lsn : UInt64) (fits : ∀ c ∈ new, c.Fits)
    (room : base.size + extra.size + Change.framesSize new ≤ limit) :
    ∃ length, (w.putAll stamps g lsn new).1 = .ok length := by
  induction new generalizing g extra lsn with
  | nil => exact ⟨0, rfl⟩
  | cons change rest ih =>
    obtain ⟨small, others⟩ := List.forall_mem_cons.mp fits
    let record : Record := ⟨lsn, change, stamps lsn⟩
    have size : record.frame.size = change.frameSize := record.size_frame_eq
    rw [Change.framesSize_cons] at room
    have added := h.put record.frame
    have ok := h.put_ok roomy record.frame (by omega)
    rw [putAll, Record.toFrame_of_fits (record.fits_iff.mpr small)]
    simp only
    cases put : g.put record.frame with
    | mk result g' =>
      rw [put] at added ok
      cases ok
      obtain ⟨length, onward⟩ := ih added (lsn + 1) others
        (by rw [ByteArray.size_append]; omega)
      simp only
      cases ended : w.putAll stamps g' (lsn + 1) rest with
      | mk result g'' =>
        rw [ended] at onward
        cases onward
        exact ⟨_, rfl⟩

theorem writeRecords_ok (w : Writer) (stamps : UInt64 → UInt64) (h : V.AtEnd f base)
    (roomy : V.Roomy limit) (fits : ∀ c ∈ new, c.Fits)
    (room : base.size + Change.framesSize new ≤ limit) :
    ∃ written, (w.writeRecords stamps f new).1 = .ok written := by
  have empty := Gathered.holds_empty h
  have gathered := putAll_spec (w := w) stamps empty w.nextLsn new
  obtain ⟨length, ok⟩ := putAll_ok w stamps empty roomy w.nextLsn fits
    (by rwa [ByteArray.size_empty])
  rw [writeRecords]
  cases put : w.putAll stamps ⟨f, .empty⟩ w.nextLsn new with
  | mk result g =>
    rw [put] at gathered ok
    cases ok
    obtain ⟨holds, -⟩ := gathered
    rw [ByteArray.empty_append] at holds
    have size : (Record.frames (Record.numbered stamps w.nextLsn new)).size =
        Change.framesSize new := by
      rw [Record.size_frames, Record.map_change_numbered]
    have finished := holds.finish
    have ok := holds.finish_ok roomy (by rwa [size])
    simp only
    cases ended : g.finish with
    | mk result g' =>
      rw [ended] at finished ok
      cases ok
      have synced := roomy.sync finished
      simp only
      by_cases due : w.policy.due (w.unsynced + new.length) = true
      · rw [if_pos due]
        cases sync : LogFile.sync g'.file with
        | mk result f' =>
          rw [sync] at synced
          cases synced
          exact ⟨_, rfl⟩
      · rw [if_neg due]
        exact ⟨_, rfl⟩

theorem appendAll_ok (stamps : UInt64 → UInt64) (h : V.AtEnd f base) (roomy : V.Roomy limit)
    (enabled : w.disabled = false) (fits : ∀ c ∈ new, c.Fits)
    (room : base.size + Change.framesSize new ≤ limit) :
    ∃ last, (w.appendAll stamps f new).1 = .ok last := by
  obtain ⟨written, ok⟩ := writeRecords_ok w stamps h roomy fits room
  unfold appendAll
  by_cases none : new.isEmpty = true
  · rw [if_pos none]
    exact ⟨_, rfl⟩
  · rw [if_neg none, enabled]
    simp only [Bool.false_eq_true, if_false]
    cases ended : w.writeRecords stamps f new with
    | mk result f' =>
      rw [ended] at ok
      cases ok
      exact ⟨_, rfl⟩

theorem sync_ok (h : V.AtEnd f base) (roomy : V.Roomy limit) (enabled : w.disabled = false) :
    (w.sync f).1 = .ok () := by
  have flushed := roomy.flush h
  have synced := roomy.sync h.flush
  unfold sync
  rw [enabled]
  simp only [Bool.false_eq_true, if_false]
  cases flush : LogFile.flush f with
  | mk result f₁ =>
    rw [flush] at flushed synced
    cases flushed
    simp only at synced ⊢
    cases sync : LogFile.sync f₁ with
    | mk result f₂ =>
      rw [sync] at synced
      cases synced
      rfl

/-- The file has grown by the frames of the changes. -/
theorem Added.size (h : w.Added V base first f changes) :
    (V.bytes f).size = base.size + Change.framesSize changes := by
  obtain ⟨records, rfl, -, -, atEnd⟩ := h.file
  rw [atEnd.bytes, ByteArray.size_append, Record.size_frames]

/-- A call succeeds for which there is room. -/
theorem Added.perform_ok (h : w.Added V base first f changes) (roomy : V.Roomy limit)
    (enabled : w.disabled = false) {call : WriterCall} (fits : ∀ c ∈ call.changes, c.Fits)
    (room : base.size + Change.framesSize (changes ++ call.changes) ≤ limit) :
    ∃ told, (call.perform w f).1 = .ok told := by
  have size := h.size
  rw [Change.framesSize_append] at room
  cases call with
  | append stamps change =>
    obtain ⟨last, ok⟩ := appendAll_ok stamps h.atEnd roomy enabled fits (by omega)
    have told : (WriterCall.perform w f (.append stamps change)).1 =
        (w.appendAll stamps f [change]).1.map some := rfl
    exact ⟨some last, told.trans (congrArg (Except.map some) ok)⟩
  | appendAll stamps new =>
    obtain ⟨last, ok⟩ := appendAll_ok stamps h.atEnd roomy enabled fits (by omega)
    have told : (WriterCall.perform w f (.appendAll stamps new)).1 =
        (w.appendAll stamps f new).1.map some := rfl
    exact ⟨some last, told.trans (congrArg (Except.map some) ok)⟩
  | sync =>
    have told : (WriterCall.perform w f .sync).1 = (w.sync f).1.map fun _ => none := rfl
    exact ⟨none, told.trans (congrArg (Except.map _) (sync_ok h.atEnd roomy enabled))⟩

/-- What a run of calls has added that all succeeded. -/
theorem Added.performAll_of_ok (h : w.Added V base first f changes) (enabled : w.disabled = false)
    {calls : List WriterCall} :
    match WriterCall.performAll w f calls with
    | (answers, w', f') =>
      (∀ answer ∈ answers, ∃ told, answer = .ok told) →
        w'.disabled = false ∧
          w'.Added V base first f' (changes ++ calls.flatMap WriterCall.changes) := by
  induction calls generalizing w f changes with
  | nil =>
    rintro -
    exact ⟨enabled, by simpa using h⟩
  | cons call rest ih =>
    have step := h.perform enabled call
    rw [WriterCall.performAll]
    cases made : call.perform w f with
    | mk answer after =>
      obtain ⟨w₁, f₁⟩ := after
      rw [made] at step
      intro ok
      obtain ⟨⟨told, rfl⟩, others⟩ := List.forall_mem_cons.mp ok
      have onward := ih step.2 step.1 others
      rwa [List.append_assoc] at onward

/-- A run of calls succeeds for which there is room. -/
theorem Added.performAll_ok (h : w.Added V base first f changes) (roomy : V.Roomy limit)
    (enabled : w.disabled = false) {calls : List WriterCall}
    (fits : ∀ c ∈ calls.flatMap WriterCall.changes, c.Fits)
    (room : base.size +
      Change.framesSize (changes ++ calls.flatMap WriterCall.changes) ≤ limit) :
    ∀ answer ∈ (WriterCall.performAll w f calls).1, ∃ told, answer = .ok told := by
  induction calls generalizing w f changes with
  | nil => exact List.forall_mem_nil _
  | cons call rest ih =>
    rw [List.flatMap_cons, ← List.append_assoc] at room
    rw [List.flatMap_cons] at fits
    obtain ⟨small, others⟩ := List.forall_mem_append.mp fits
    have near : base.size + Change.framesSize (changes ++ call.changes) ≤ limit := by
      rw [Change.framesSize_append _ (rest.flatMap _)] at room
      omega
    have step := h.perform enabled call
    obtain ⟨told, ok⟩ := h.perform_ok roomy enabled small near
    rw [WriterCall.performAll]
    cases made : call.perform w f with
    | mk answer after =>
      obtain ⟨w₁, f₁⟩ := after
      rw [made] at step ok
      cases ok
      exact List.forall_mem_cons.mpr ⟨⟨told, rfl⟩, ih step.2 step.1 others room⟩

end Writer

/-! ## Regular files -/

/-- A regular file of a disk has room up to the disk's limit. -/
theorem OpenFile.roomy {d : Disk} {file : Nat} (valid : file < d.files.size) :
    (view d file valid).Roomy d.limit where
  write := by
    rintro f b new ⟨⟨held, of⟩, bytes, behind⟩ some room
    have whole : held = b := (of.bytes valid).symm.trans bytes
    subst whole
    have place : f.place = held.size := behind
    have limit : f.disk.limit = d.limit := by rw [of.disk, Disk.setContent]
    have below : ¬ d.limit ≤ held.size := by omega
    refine ⟨new.size, ⟨d.setContent file (.regular (held ++ new)), f.file, held.size + new.size⟩,
      ?_, some⟩
    simp only [LogFile.write, OpenFile.write, of.content valid, place, limit, Content.write,
      if_neg some, if_neg below, if_pos room, Bytes.writeAt_size, of.setContent]
  flush := fun _ => rfl
  sync := by
    rintro f b ⟨⟨held, of⟩, -, -⟩
    simp only [LogFile.sync, of.content valid, Content.sync]

end DurableLog
