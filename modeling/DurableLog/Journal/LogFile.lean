import DurableLog.Disk.Disk

/-!
# Files that records are written to

What a writer needs of its file, whatever medium is behind it. A write may take only the first
part of what it is given, and any of the operations may fail. A write that was interrupted is made
again before it answers.
-/

namespace DurableLog

/-- An open file with a place for the next write. -/
class LogFile (φ : Type) where
  /-- Writes at the place and moves it behind; gives the number of bytes taken. -/
  write : φ → ByteArray → Except FileFault Nat × φ
  /-- Cuts the file, or fills it up with zero bytes. -/
  setLength : φ → Nat → Except FileFault Unit × φ
  /-- Moves the place. -/
  seek : φ → Nat → Except FileFault Unit × φ
  /-- Hands on to the medium what the file itself holds back. -/
  flush : φ → Except FileFault Unit × φ
  /-- Has the medium keep what was written. -/
  sync : φ → Except FileFault Unit × φ

/-- A file of a disk, opened for writing. -/
structure OpenFile where
  disk : Disk
  file : Nat
  place : Nat

namespace OpenFile

def write (f : OpenFile) (bytes : ByteArray) : Except FileFault Nat × OpenFile :=
  let ⟨disk, file, place⟩ := f
  match (disk.content file).write disk.limit place bytes with
  | (.error fault, c) => (.error fault, ⟨disk.setContent file c, file, place⟩)
  | (.ok n, c) => (.ok n, ⟨disk.setContent file c, file, place + n⟩)

def setLength (f : OpenFile) (n : Nat) : Except FileFault Unit × OpenFile :=
  match f.disk.setLength f.file n with
  | (result, disk) => (result, { f with disk })

instance : LogFile OpenFile where
  write := write
  setLength := setLength
  seek f n := (.ok (), { f with place := n })
  -- what is written to a file of a disk is not held back
  flush f := (.ok (), f)
  sync f := ((f.disk.content f.file).sync, f)

end OpenFile

end DurableLog
