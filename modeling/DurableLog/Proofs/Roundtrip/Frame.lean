import DurableLog.Journal.Frame
import DurableLog.Proofs.Roundtrip.Body

/-!
# The round trip of a frame

The header of a frame is read back, whatever follows it. A record that is not too long has a frame
(`Record.frame`), and the frames of records stand one after another in a file (`Record.frames`).
-/

namespace DurableLog

namespace Header

/-- The header is read from the first bytes, whatever follows them. -/
theorem decode_append (h : Header) (rest : ByteArray) : decode (h.encode ++ rest) = h := by
  have first := Bytes.word64At_le64 .empty h.lsn
    (Bytes.le32 h.checksum ++ Bytes.le32 h.length ++ rest)
  have second := Bytes.word32At_le32 (Bytes.le64 h.lsn) h.checksum (Bytes.le32 h.length ++ rest)
  have third := Bytes.word32At_le32 (Bytes.le64 h.lsn ++ Bytes.le32 h.checksum) h.length rest
  simp only [ByteArray.empty_append, ByteArray.size_append, Bytes.size_le64, Bytes.size_le32,
    ByteArray.append_assoc] at first second third
  obtain ⟨lsn, checksum, length⟩ := h
  simp only [decode, encode, ByteArray.append_assoc, Header.mk.injEq]
  exact ⟨first, second, third⟩

end Header

namespace Record

/-- The frame of a record. -/
def frame (r : Record) : ByteArray := (r.header r.encode).encode ++ r.encode

/-- The record is not too long for a frame. -/
def Fits (r : Record) : Prop := r.encode.size ≤ maxRecordSize

theorem toFrame_of_fits {r : Record} (fits : r.Fits) : r.toFrame = .ok r.frame := if_pos fits

theorem toFrame_of_not_fits {r : Record} (long : ¬ r.Fits) :
    r.toFrame = .error (.write (.recordTooLong r.encode.size)) := if_neg long

@[simp] theorem size_frame (r : Record) : r.frame.size = headerSize + r.encode.size := by
  rw [frame, ByteArray.size_append, Header.size_encode]

theorem Fits.countable {r : Record} (fits : r.Fits) : r.change.Countable := by
  refine Change.countable_of_size ?_
  have := r.size_encode
  unfold Fits maxRecordSize at fits
  have : 64 * 1024 * 1024 < UInt64.size := by decide
  omega

/-! ## Frames in a row -/

/-- The frames of records one after another. -/
def frames (records : List Record) : ByteArray := records.foldr (frame · ++ ·) .empty

theorem frames_cons (r : Record) (rest : List Record) :
    frames (r :: rest) = r.frame ++ frames rest := rfl

theorem frames_append (first second : List Record) :
    frames (first ++ second) = frames first ++ frames second := by
  induction first with
  | nil => exact ByteArray.empty_append.symm
  | cons r rest ih => rw [List.cons_append, frames_cons, frames_cons, ih, ByteArray.append_assoc]

end Record

end DurableLog
