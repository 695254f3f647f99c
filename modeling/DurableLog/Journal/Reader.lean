import DurableLog.Journal.Frame
import DurableLog.Journal.ReadAhead

/-!
# Reading records

A reader gives the records of a log file one after another. It ends at the end of the file. A
file that ends inside a frame is *torn* there, and a torn reader gives nothing more. A frame that
is whole but wrong is a corruption; the reader then stands behind the part it has looked at.

The position is the length of the frames that were given out. That is where the last of them ends
as long as no corruption was passed over.
-/

namespace DurableLog

/-- A reader of a log file. -/
structure Reader where
  ahead : ReadAhead
  /-- The length of the frames given out so far. -/
  position : Nat
  torn : Bool

namespace Reader

/-- A reader at the beginning of a file. -/
def start : Reader := ⟨.start, 0, false⟩

/-- The rest of a frame whose header has been read. -/
def nextBody (c : Content) (r : Reader) (header : Header) :
    Except Fault (Option Record) × Reader :=
  let length := header.length.toNat
  if maxRecordSize < length then
    (.error (.corruption (.longRecordAt length r.position)), r)
  else match r.ahead.take c length with
    | .error fault => (.error (.file fault), r)
    | .ok (body, ahead) =>
      if body.size < length then (.ok none, { r with ahead, torn := true })
      else match Record.ofBody header body with
        | .error cause => (.error (.corruption cause), { r with ahead })
        | .ok record =>
          (.ok (some record), { r with ahead, position := r.position + headerSize + length })

/-- The next record, if there is one more. -/
def next (c : Content) (r : Reader) : Except Fault (Option Record) × Reader :=
  if r.torn then (.ok none, r)
  else match r.ahead.take c headerSize with
    | .error fault => (.error (.file fault), r)
    | .ok (bytes, ahead) =>
      if bytes.size = 0 then (.ok none, { r with ahead })
      else if bytes.size < headerSize then (.ok none, { r with ahead, torn := true })
      else nextBody c { r with ahead } (Header.decode bytes)

end Reader

/-- A reader that ends with its first fault. -/
structure RecordIterator where
  reader : Reader
  done : Bool

namespace RecordIterator

def ofReader (r : Reader) : RecordIterator := ⟨r, false⟩

/-- The next record; nothing more after the end or a fault. -/
def next (c : Content) (it : RecordIterator) : Except Fault (Option Record) × RecordIterator :=
  if it.done then (.ok none, it)
  else match it.reader.next c with
    | (.ok (some record), reader) => (.ok (some record), ⟨reader, false⟩)
    | (.ok none, reader) => (.ok none, ⟨reader, true⟩)
    | (.error fault, reader) => (.error fault, ⟨reader, true⟩)

end RecordIterator

end DurableLog
