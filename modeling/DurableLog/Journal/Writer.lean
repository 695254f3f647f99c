import DurableLog.Config
import DurableLog.Journal.Frame
import DurableLog.Journal.LogFile
import DurableLog.Journal.ReadAhead

/-!
# Writing records

A writer numbers changes and appends them to its file as frames. All changes of one call are
written or none: when anything fails, what was gathered is forgotten, the file is cut back to the
length it had before the call, and the call's fault is told. When the cut fails as well, the
writer is *disabled* and does nothing from then on.

## Gathering

Frames are gathered in a block and written when it is full, and at the end of the call. A frame
that does not fit into what is free of the block has the block written first; a frame of a whole
block or more is written directly. So the number told with a failed write is that of the frame
being added, and in the final write the last one.

## Flushing to the medium

Whether a flush is due is decided by the records written since the last one, those of the call
included. Only success moves that count.
-/

namespace DurableLog

/-- Writes all of `bytes`, part by part; `stuck` is told when a write takes nothing. -/
def writeAll {φ : Type} [LogFile φ] (stuck : FileFault) (f : φ) (bytes : ByteArray) :
    Except FileFault Unit × φ :=
  if bytes.size = 0 then (.ok (), f)
  else match LogFile.write f bytes with
    | (.error fault, f) => (.error fault, f)
    | (.ok n, f) =>
      if n = 0 then (.error stuck, f)
      else writeAll stuck f (bytes.extract n bytes.size)
termination_by bytes.size
decreasing_by
  simp only [ByteArray.size_extract]
  omega

/-- A file with the block gathered for it. -/
structure Gathered (φ : Type) where
  file : φ
  block : ByteArray

namespace Gathered

variable {φ : Type} [LogFile φ]

/-- Writes what was gathered. -/
def flush (g : Gathered φ) : Except FileFault Unit × Gathered φ :=
  match writeAll .blockNotTaken g.file g.block with
  | (.ok (), file) => (.ok (), ⟨file, .empty⟩)
  | (.error fault, file) => (.error fault, ⟨file, g.block⟩)

/-- Writes what was gathered, and has the file hand it on. -/
def finish (g : Gathered φ) : Except FileFault Unit × Gathered φ :=
  match g.flush with
  | (.error fault, g) => (.error fault, g)
  | (.ok (), g) =>
    match LogFile.flush g.file with
    | (result, file) => (result, { g with file })

/-- Adds a frame once the block has been written if it was too full. -/
def place (g : Gathered φ) (frame : ByteArray) : Except FileFault Unit × Gathered φ :=
  if blockSize ≤ frame.size then
    match writeAll .frameNotTaken g.file frame with
    | (result, file) => (result, { g with file })
  else (.ok (), { g with block := g.block ++ frame })

/-- Adds a frame. -/
def put (g : Gathered φ) (frame : ByteArray) : Except FileFault Unit × Gathered φ :=
  let room := blockSize - g.block.size
  if frame.size < room then (.ok (), { g with block := g.block ++ frame })
  else if room < frame.size then
    -- the gathered frames are written before this one, even if this one fills a block alone
    match g.flush with
    | (.ok (), g) => g.place frame
    | (.error fault, g) => (.error fault, g)
  else g.place frame

end Gathered

/-- A writer of records, besides its file. -/
structure Writer where
  path : String
  /-- The length of the file's valid part. -/
  offset : Nat
  nextLsn : UInt64
  policy : SyncPolicy
  /-- Records written since the last flush to the medium. -/
  unsynced : Nat
  disabled : Bool
  deriving DecidableEq

namespace Writer

variable {φ : Type} [LogFile φ]

/-- The fault of writing record `lsn`. -/
def failed (w : Writer) (lsn : UInt64) (fault : FileFault) : Fault :=
  .write (.failed w.path lsn fault)

/-- The numbers of the records in a call that stores `count` changes end here. -/
def lastOf (w : Writer) (count : Nat) : UInt64 := w.nextLsn + UInt64.ofNat count - 1

/-- Adds the frames of changes from number `lsn` on; gives the length of the frames. `stamps`
tells the time at which the record with a number is made. -/
def putAll (w : Writer) (stamps : UInt64 → UInt64) (g : Gathered φ) (lsn : UInt64) :
    List Change → Except Fault Nat × Gathered φ
  | [] => (.ok 0, g)
  | change :: rest =>
    match (Record.mk lsn change (stamps lsn)).toFrame with
    | .error fault => (.error fault, g)
    | .ok frame =>
      match g.put frame with
      | (.error fault, g) => (.error (w.failed lsn fault), g)
      | (.ok (), g) =>
        match w.putAll stamps g (lsn + 1) rest with
        | (.error fault, g) => (.error fault, g)
        | (.ok length, g) => (.ok (frame.size + length), g)

/-- Writes the frames of changes; gives their length and the records then not flushed. -/
def writeRecords (w : Writer) (stamps : UInt64 → UInt64) (file : φ) (changes : List Change) :
    Except Fault (Nat × Nat) × φ :=
  let unsynced := w.unsynced + changes.length
  let last := w.lastOf changes.length
  match w.putAll stamps ⟨file, .empty⟩ w.nextLsn changes with
  | (.error fault, g) => (.error fault, g.file)
  | (.ok length, g) =>
    match g.finish with
    | (.error fault, g) => (.error (w.failed last fault), g.file)
    | (.ok (), g) =>
      if w.policy.due unsynced then
        match LogFile.sync g.file with
        | (.error fault, file) => (.error (w.failed last fault), file)
        | (.ok (), file) => (.ok (length, 0), file)
      else (.ok (length, unsynced), g.file)

/-- Cuts the file back to its valid part. -/
def rollback (w : Writer) (file : φ) : Writer × φ :=
  match LogFile.setLength file w.offset with
  | (.error _, file) => ({ w with disabled := true }, file)
  | (.ok (), file) =>
    match LogFile.seek file w.offset with
    | (.error _, file) => ({ w with disabled := true }, file)
    | (.ok (), file) => (w, file)

/-- Appends all changes or none; gives the number of the last record. -/
def appendAll (w : Writer) (stamps : UInt64 → UInt64) (file : φ) (changes : List Change) :
    Except Fault UInt64 × Writer × φ :=
  if changes.isEmpty then (.ok (w.nextLsn - 1), w, file)
  else if w.disabled then (.error (w.failed w.nextLsn .writerDisabled), w, file)
  else
    match w.writeRecords stamps file changes with
    | (.ok (length, unsynced), file) =>
      let last := w.lastOf changes.length
      (.ok last, { w with offset := w.offset + length, nextLsn := last + 1, unsynced }, file)
    | (.error fault, file) =>
      -- the block that was gathered is gone with this call
      match w.rollback file with
      | (w, file) => (.error fault, w, file)

/-- Appends one change; gives its number. -/
def append (w : Writer) (stamps : UInt64 → UInt64) (file : φ) (change : Change) :
    Except Fault UInt64 × Writer × φ :=
  w.appendAll stamps file [change]

/-- Has the medium keep everything written. -/
def sync (w : Writer) (file : φ) : Except Fault Unit × Writer × φ :=
  if w.disabled then (.error (.file .writerDisabled), w, file)
  else match LogFile.flush file with
    | (.error fault, file) => (.error (.file fault), w, file)
    | (.ok (), file) =>
      match LogFile.sync file with
      | (.error fault, file) => (.error (.file fault), w, file)
      | (.ok (), file) => (.ok (), { w with unsynced := 0 }, file)

end Writer

end DurableLog
