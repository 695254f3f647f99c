import DurableLog.Checksum.Crc32
import DurableLog.Journal.Body

/-!
# Frames

A record in the file: a header of 16 bytes (the record's number, the checksum of its body, the
length of its body) and the body.

## Which fault is told

A frame is checked from the front: header, length, body, checksum, fields, and last whether the
number in the header is the record's own. The first check that fails is told.
-/

namespace DurableLog

/-- The header of a frame. -/
structure Header where
  lsn : UInt64
  checksum : UInt32
  length : UInt32
  deriving DecidableEq

namespace Header

def encode (h : Header) : ByteArray :=
  Bytes.le64 h.lsn ++ Bytes.le32 h.checksum ++ Bytes.le32 h.length

@[simp] theorem size_encode (h : Header) : h.encode.size = headerSize := by
  simp [encode, ByteArray.size_append, headerSize]

/-- The header in the first 16 bytes. -/
def decode (b : ByteArray) : Header where
  lsn := Bytes.word64At b 0
  checksum := Bytes.word32At b 8
  length := Bytes.word32At b 12

end Header

namespace Record

/-- The header that belongs in front of a body. -/
def header (r : Record) (body : ByteArray) : Header :=
  ⟨r.lsn, Crc32.ofBytes body, UInt32.ofNat body.size⟩

/-- The frame of a record, if its body is not too long. -/
def toFrame (r : Record) : Except Fault ByteArray :=
  let body := r.encode
  if body.size ≤ maxRecordSize then .ok ((r.header body).encode ++ body)
  else .error (.write (.recordTooLong body.size))

/-- The record in a body that was announced by a header. -/
def ofBody (header : Header) (body : ByteArray) : Except Corruption Record :=
  let actual := Crc32.ofBytes body
  if actual = header.checksum then
    match decode body with
    | .error fault => .error (.body fault)
    | .ok record =>
      if record.lsn = header.lsn then .ok record
      else .error (.lsnMismatch header.lsn record.lsn)
  else .error (.checksum header.lsn header.checksum actual)

/-- The record in the frame at the beginning of `b`; bytes behind the frame are ignored. -/
def ofFrame (b : ByteArray) : Except Corruption Record :=
  if b.size < headerSize then .error (.shortHeader b.size)
  else
    let header := Header.decode b
    let length := header.length.toNat
    if maxRecordSize < length then .error (.longRecord length)
    else if b.size - headerSize < length then .error (.shortBody length (b.size - headerSize))
    else ofBody header (Bytes.slice b headerSize length)

end Record

end DurableLog
