import DurableLog.Journal.Writer
import DurableLog.Proofs.Numbering
import DurableLog.Proofs.Roundtrip.Frame

/-!
# All changes or none

A writer adds its frames at the end of its file. Until a call has ended the file may hold any
beginning of them; then it either holds all, or is cut back to what it was, or the writer is
disabled.

`FileView` says what is needed of the file: what it holds, and that its operations do what they
tell. Nothing is asked of an operation that fails but that the file still begins with what it held
when it was written to at its end.
-/

namespace DurableLog

/-- How files of a kind behave as long as they are `Sound`. -/
structure FileView (φ : Type) [LogFile φ] where
  Sound : φ → Prop
  bytes : φ → ByteArray
  place : φ → Nat
  /-- A write at the end takes a part of the bytes, from their beginning. -/
  write {f f' : φ} {new : ByteArray} {n : Nat} (sound : Sound f) (atEnd : place f = (bytes f).size)
    (h : LogFile.write f new = (.ok n, f')) :
    Sound f' ∧ n ≤ new.size ∧ bytes f' = bytes f ++ new.extract 0 n ∧ place f' = place f + n
  /-- A failed write at the end leaves what was there before. -/
  write_error {f f' : φ} {new : ByteArray} {fault : FileFault} (sound : Sound f)
    (atEnd : place f = (bytes f).size) (h : LogFile.write f new = (.error fault, f')) :
    Sound f' ∧ ∃ more, bytes f' = bytes f ++ more
  cut {f f' : φ} {n : Nat} (sound : Sound f) (within : n ≤ (bytes f).size)
    (h : LogFile.setLength f n = (.ok (), f')) : Sound f' ∧ bytes f' = (bytes f).extract 0 n
  seek {f f' : φ} {n : Nat} (sound : Sound f) (h : LogFile.seek f n = (.ok (), f')) :
    Sound f' ∧ bytes f' = bytes f ∧ place f' = n
  flush {f : φ} (sound : Sound f) :
    Sound (LogFile.flush f).2 ∧ bytes (LogFile.flush f).2 = bytes f ∧
      place (LogFile.flush f).2 = place f
  sync {f : φ} (sound : Sound f) :
    Sound (LogFile.sync f).2 ∧ bytes (LogFile.sync f).2 = bytes f ∧
      place (LogFile.sync f).2 = place f

namespace FileView

variable {φ : Type} [LogFile φ] (V : FileView φ)

/-- The file holds these bytes, and the next write goes behind them. -/
structure AtEnd (f : φ) (b : ByteArray) : Prop where
  sound : V.Sound f
  bytes : V.bytes f = b
  place : V.place f = b.size

/-- The file begins with these bytes. -/
structure Begins (f : φ) (b : ByteArray) : Prop where
  sound : V.Sound f
  bytes : ∃ more, V.bytes f = b ++ more

/-- Some file that begins with these bytes cannot be cut back to them. -/
def Stuck (b : ByteArray) : Prop :=
  ∃ f, V.Begins f b ∧
    ((LogFile.setLength f b.size).1 ≠ .ok () ∨
      (LogFile.seek (LogFile.setLength f b.size).2 b.size).1 ≠ .ok ())

variable {V} {f f' : φ} {b : ByteArray}

theorem AtEnd.begins (h : V.AtEnd f b) : V.Begins f b :=
  ⟨h.sound, .empty, by rw [h.bytes, ByteArray.append_empty]⟩

theorem Begins.of_append {more : ByteArray} (h : V.Begins f (b ++ more)) : V.Begins f b := by
  obtain ⟨rest, held⟩ := h.bytes
  exact ⟨h.sound, more ++ rest, by rw [held, ByteArray.append_assoc]⟩

theorem AtEnd.write {new : ByteArray} {n : Nat} (h : V.AtEnd f b)
    (written : LogFile.write f new = (.ok n, f')) :
    n ≤ new.size ∧ V.AtEnd f' (b ++ new.extract 0 n) := by
  obtain ⟨sound, le, bytes, place⟩ := V.write h.sound (by rw [h.place, h.bytes]) written
  refine ⟨le, sound, by rw [bytes, h.bytes], ?_⟩
  rw [place, h.place, ByteArray.size_append, ByteArray.size_extract]
  omega

theorem AtEnd.write_error {new : ByteArray} {fault : FileFault} (h : V.AtEnd f b)
    (failed : LogFile.write f new = (.error fault, f')) : V.Begins f' b := by
  obtain ⟨sound, more, bytes⟩ := V.write_error h.sound (by rw [h.place, h.bytes]) failed
  exact ⟨sound, more, by rw [bytes, h.bytes]⟩

/-- Flushing moves nothing, whether it succeeds or not. -/
theorem AtEnd.flush (h : V.AtEnd f b) : V.AtEnd (LogFile.flush f).2 b := by
  obtain ⟨sound, bytes, place⟩ := V.flush h.sound
  exact ⟨sound, by rw [bytes, h.bytes], by rw [place, h.place]⟩

/-- Nor does syncing. -/
theorem AtEnd.sync (h : V.AtEnd f b) : V.AtEnd (LogFile.sync f).2 b := by
  obtain ⟨sound, bytes, place⟩ := V.sync h.sound
  exact ⟨sound, by rw [bytes, h.bytes], by rw [place, h.place]⟩

/-- Writing goes on until everything is written, or fails on the way. -/
theorem AtEnd.writeAll (h : V.AtEnd f b) (stuck : FileFault) (new : ByteArray) :
    match DurableLog.writeAll stuck f new with
    | (.ok (), f') => V.AtEnd f' (b ++ new)
    | (.error _, f') => V.Begins f' b := by
  fun_induction DurableLog.writeAll stuck f new generalizing b with
  | case1 f new none =>
    have empty : new = .empty := ByteArray.size_eq_zero_iff.mp none
    rw [empty, ByteArray.append_empty]
    exact h
  | case2 f new some fault f' failed => exact h.write_error failed
  | case3 f new some f' written => exact (h.write written).2.begins.of_append
  | case4 f new some n f' written more ih =>
    obtain ⟨le, atEnd⟩ := h.write written
    have whole : b ++ new.extract 0 n ++ new.extract n new.size = b ++ new := by
      rw [ByteArray.append_assoc, ByteArray.extract_append_extract]
      simp [le]
    have onward := ih atEnd
    split at onward
    · rwa [← whole]
    · exact onward.of_append

end FileView

/-! ## Gathering -/

namespace Gathered

variable {φ : Type} [LogFile φ] {V : FileView φ} {g g' : Gathered φ} {base extra : ByteArray}

/-- Behind `base` the file holds a part of `extra`, and the rest of it is gathered. -/
structure Holds (V : FileView φ) (g : Gathered φ) (base extra : ByteArray) : Prop where
  written : ∃ part, V.AtEnd g.file (base ++ part) ∧ part ++ g.block = extra

theorem holds_empty {f : φ} (h : V.AtEnd f base) : Holds V ⟨f, .empty⟩ base .empty :=
  ⟨.empty, by rwa [ByteArray.append_empty], ByteArray.append_empty⟩

theorem Holds.flush (h : g.Holds V base extra) :
    match g.flush with
    | (.ok (), g') => V.AtEnd g'.file (base ++ extra) ∧ g'.block = .empty
    | (.error _, g') => V.Begins g'.file base := by
  obtain ⟨part, atEnd, whole⟩ := h
  have written := atEnd.writeAll .blockNotTaken g.block
  rw [ByteArray.append_assoc, whole] at written
  unfold Gathered.flush
  cases ended : writeAll .blockNotTaken g.file g.block with
  | mk result file =>
    rw [ended] at written
    cases result with
    | ok _ => exact ⟨written, rfl⟩
    | error fault => exact written.of_append

theorem Holds.finish (h : g.Holds V base extra) :
    match g.finish with
    | (.ok (), g') => V.AtEnd g'.file (base ++ extra)
    | (.error _, g') => V.Begins g'.file base := by
  have flushed := h.flush
  unfold Gathered.finish
  cases ended : g.flush with
  | mk result g' =>
    rw [ended] at flushed
    cases result with
    | error fault => exact flushed
    | ok _ =>
      have handed := flushed.1.flush
      simp only
      cases flush : LogFile.flush g'.file with
      | mk result file =>
        rw [flush] at handed
        cases result with
        | error fault => exact handed.begins.of_append
        | ok _ => exact handed

/-- Adding a frame that fits into the block, or for which the block has been emptied. -/
theorem Holds.place (h : g.Holds V base extra) {frame : ByteArray}
    (room : blockSize ≤ frame.size → g.block = .empty) :
    match g.place frame with
    | (.ok (), g') => g'.Holds V base (extra ++ frame)
    | (.error _, g') => V.Begins g'.file base := by
  obtain ⟨part, atEnd, whole⟩ := h
  unfold Gathered.place
  by_cases large : blockSize ≤ frame.size
  · have emptied := room large
    have direct : part = extra := by rw [← whole, emptied, ByteArray.append_empty]
    have written := atEnd.writeAll .frameNotTaken frame
    rw [if_pos large]
    cases ended : writeAll .frameNotTaken g.file frame with
    | mk result file =>
      rw [ended] at written
      cases result with
      | ok _ =>
        refine ⟨part ++ frame, ?_, ?_⟩
        · rwa [← ByteArray.append_assoc]
        · rw [emptied, ByteArray.append_empty, direct]
      | error fault => exact written.of_append
  · rw [if_neg large]
    exact ⟨part, atEnd, by rw [← ByteArray.append_assoc, whole]⟩

/-- Adding a frame. -/
theorem Holds.put (h : g.Holds V base extra) (frame : ByteArray) :
    match g.put frame with
    | (.ok (), g') => g'.Holds V base (extra ++ frame)
    | (.error _, g') => V.Begins g'.file base := by
  unfold Gathered.put
  simp only
  by_cases fits : frame.size < blockSize - g.block.size
  · rw [if_pos fits]
    obtain ⟨part, atEnd, whole⟩ := h
    exact ⟨part, atEnd, by rw [← ByteArray.append_assoc, whole]⟩
  · rw [if_neg fits]
    by_cases full : blockSize - g.block.size < frame.size
    · rw [if_pos full]
      have flushed := h.flush
      cases ended : g.flush with
      | mk result g' =>
        rw [ended] at flushed
        cases result with
        | error fault => exact flushed
        | ok _ =>
          obtain ⟨atEnd, emptied⟩ := flushed
          have holds : g'.Holds V base extra :=
            ⟨extra, atEnd, by rw [emptied, ByteArray.append_empty]⟩
          exact holds.place fun _ => emptied
    · rw [if_neg full]
      -- the frame fills the room exactly, so a frame of a whole block finds the block empty
      have some_room : 0 < blockSize := by decide
      exact h.place fun large => ByteArray.size_eq_zero_iff.mp (by omega)

end Gathered

/-! ## A call of the writer -/

namespace Writer

variable {φ : Type} [LogFile φ] {V : FileView φ} {w : Writer} {base : ByteArray}

/-- The frames of all changes are added, or the file still begins with what it held. -/
theorem putAll_spec (stamps : UInt64 → UInt64) {g : Gathered φ} {extra : ByteArray}
    (h : g.Holds V base extra) (lsn : UInt64) (changes : List Change) :
    match w.putAll stamps g lsn changes with
    | (.ok length, g') =>
      g'.Holds V base (extra ++ Record.frames (Record.numbered stamps lsn changes)) ∧
        length = (Record.frames (Record.numbered stamps lsn changes)).size ∧
        ∀ r ∈ Record.numbered stamps lsn changes, r.Fits
    | (.error _, g') => V.Begins g'.file base := by
  induction changes generalizing g extra lsn with
  | nil => exact ⟨by rwa [Record.numbered, Record.frames, List.foldr_nil, ByteArray.append_empty],
      rfl, by simp [Record.numbered]⟩
  | cons change rest ih =>
    let record : Record := ⟨lsn, change, stamps lsn⟩
    rw [Writer.putAll]
    by_cases fits : record.Fits
    · rw [Record.toFrame_of_fits fits]
      have added := h.put record.frame
      simp only
      cases put : g.put record.frame with
      | mk result g' =>
        rw [put] at added
        cases result with
        | error fault => exact added
        | ok _ =>
          have onward := ih added (lsn + 1)
          simp only
          cases ended : w.putAll stamps g' (lsn + 1) rest with
          | mk result g'' =>
            rw [ended] at onward
            cases result with
            | error fault => exact onward
            | ok length =>
              obtain ⟨holds, size, each⟩ := onward
              rw [Record.numbered, Record.frames_cons, ← ByteArray.append_assoc]
              refine ⟨holds, ?_, List.forall_mem_cons.mpr ⟨fits, each⟩⟩
              rw [size, ByteArray.size_append]
    · obtain ⟨part, atEnd, -⟩ := h.written
      rw [Record.toFrame_of_not_fits fits]
      exact atEnd.begins.of_append

theorem writeRecords_spec (stamps : UInt64 → UInt64) {f : φ} (h : V.AtEnd f base)
    (changes : List Change) :
    match w.writeRecords stamps f changes with
    | (.ok (length, unsynced), f') =>
      V.AtEnd f' (base ++ Record.frames (Record.numbered stamps w.nextLsn changes)) ∧
        length = (Record.frames (Record.numbered stamps w.nextLsn changes)).size ∧
        (∀ r ∈ Record.numbered stamps w.nextLsn changes, r.Fits) ∧
        unsynced = if w.policy.due (w.unsynced + changes.length) then 0
          else w.unsynced + changes.length
    | (.error _, f') => V.Begins f' base := by
  have gathered := putAll_spec (w := w) stamps (Gathered.holds_empty h) w.nextLsn changes
  rw [ByteArray.empty_append] at gathered
  rw [Writer.writeRecords]
  cases put : w.putAll stamps ⟨f, .empty⟩ w.nextLsn changes with
  | mk result g =>
    rw [put] at gathered
    cases result with
    | error fault => exact gathered
    | ok length =>
      obtain ⟨holds, size, each⟩ := gathered
      have finished := holds.finish
      simp only
      cases ended : g.finish with
      | mk result g' =>
        rw [ended] at finished
        cases result with
        | error fault => exact finished
        | ok _ =>
          simp only
          by_cases due : w.policy.due (w.unsynced + changes.length) = true
          · rw [if_pos due]
            have synced := FileView.AtEnd.sync finished
            cases sync : LogFile.sync g'.file with
            | mk result f' =>
              rw [sync] at synced
              cases result with
              | error fault => exact synced.begins.of_append
              | ok _ => exact ⟨synced, size, each, by rw [if_pos due]⟩
          · rw [if_neg due]
            exact ⟨finished, size, each, by rw [if_neg due]⟩

/-- The file is cut back; if that is not possible the writer is disabled. -/
theorem rollback_spec {f : φ} (h : V.Begins f base) (offset : w.offset = base.size) :
    (w.rollback f).1 = w ∧ V.AtEnd (w.rollback f).2 base ∨
      V.Stuck base ∧ (w.rollback f).1 = { w with disabled := true } := by
  obtain ⟨more, held⟩ := h.bytes
  unfold Writer.rollback
  cases cut : LogFile.setLength f w.offset with
  | mk result f' =>
    cases result with
    | error fault => exact .inr ⟨⟨f, h, .inl (by rw [← offset, cut]; exact nofun)⟩, rfl⟩
    | ok _ =>
      have within : w.offset ≤ (V.bytes f).size := by
        rw [held, offset, ByteArray.size_append]
        omega
      obtain ⟨sound, bytes⟩ := V.cut h.sound within cut
      have kept : V.bytes f' = base := by
        rw [bytes, held, offset, ByteArray.extract_append_eq_left rfl]
      simp only
      cases sought : LogFile.seek f' w.offset with
      | mk result f'' =>
        cases result with
        | error fault =>
          exact .inr ⟨⟨f, h, .inr (by rw [← offset, cut, sought]; exact nofun)⟩, rfl⟩
        | ok _ =>
          obtain ⟨sound', bytes', place'⟩ := V.seek sound sought
          exact .inl ⟨rfl, sound', by rw [bytes', kept], by rw [place', offset]⟩

/-- All changes are appended; or none is, and the file and the writer are what they were; or the
file cannot be cut back and the writer is disabled. -/
theorem appendAll_spec (stamps : UInt64 → UInt64) {f : φ} (h : V.AtEnd f base)
    (offset : w.offset = base.size) (enabled : w.disabled = false) (changes : List Change) :
    match w.appendAll stamps f changes with
    | (.ok _, w', f') =>
      V.AtEnd f' (base ++ Record.frames (Record.numbered stamps w.nextLsn changes)) ∧
        (∀ r ∈ Record.numbered stamps w.nextLsn changes, r.Fits) ∧
        w' = { w with
          offset := w.offset + (Record.frames (Record.numbered stamps w.nextLsn changes)).size
          nextLsn := w.nextLsn + UInt64.ofNat changes.length
          unsynced := w'.unsynced }
    | (.error _, w', f') =>
      w' = w ∧ V.AtEnd f' base ∨ V.Stuck base ∧ w' = { w with disabled := true } := by
  unfold Writer.appendAll
  by_cases none : changes.isEmpty = true
  · rw [if_pos none]
    have empty := List.isEmpty_iff.mp none
    subst empty
    refine ⟨?_, by simp [Record.numbered], ?_⟩
    · rwa [Record.numbered, Record.frames, List.foldr_nil, ByteArray.append_empty]
    · simp [Record.numbered, Record.frames]
  · rw [if_neg none, enabled]
    have written := writeRecords_spec (w := w) stamps h changes
    simp only [Bool.false_eq_true, if_false]
    cases ended : w.writeRecords stamps f changes with
    | mk result f' =>
      rw [ended] at written
      cases result with
      | error fault => exact rollback_spec written offset
      | ok written' =>
        obtain ⟨length, unsynced⟩ := written'
        obtain ⟨atEnd, rfl, each, -⟩ := written
        refine ⟨atEnd, each, ?_⟩
        simp [lastOf]

end Writer

end DurableLog
