import DurableLog.Bytes.Basic
import DurableLog.Fault

/-!
# What a file name leads to

A regular file is its bytes. A *full device* is the file of a medium without any room: it has no
length, reading gives zero bytes without end, and nothing can be written. A directory can be
opened but not read.

## Limits

No file grows past a limit. A write that starts below the limit is cut short there; one that
starts at it or behind it fails. Cutting a file is never limited.
-/

namespace DurableLog

/-- What a file name leads to. -/
inductive Content
  | regular (bytes : ByteArray)
  | fullDevice
  | directory
  deriving DecidableEq

/-- No file is longer, whatever the limit: the largest offset of 63 bits. -/
def maxFileSize : Nat := 0x7FFFFFFFFFFFFFFF

namespace Content

/-- The length the file system tells. -/
def size : Content → Nat
  | regular bytes => bytes.size
  | _ => 0

/-- A read of up to `n` bytes at an offset; fewer come only at the end. -/
def read (c : Content) (offset n : Nat) : Except FileFault ByteArray :=
  match c with
  | regular bytes => .ok (Bytes.slice bytes offset n)
  | fullDevice => .ok (Bytes.zeros n)
  | directory => .error (.system .isADirectory)

/-- A write at an offset: the number of bytes that were taken, and what the file is then. -/
def write (limit : Nat) (c : Content) (offset : Nat) (new : ByteArray) :
    Except FileFault Nat × Content :=
  if new.size = 0 then (.ok 0, c)
  else match c with
    | regular bytes =>
      if limit ≤ offset then (.error (.system .fileTooLarge), .regular bytes)
      else if offset + new.size ≤ limit then
        (.ok new.size, .regular (Bytes.writeAt bytes offset new))
      else
        (.ok (limit - offset),
          .regular (Bytes.writeAt bytes offset (Bytes.slice new 0 (limit - offset))))
    | fullDevice => (.error (.system .noSpace), .fullDevice)
    | directory => (.error (.system .isADirectory), .directory)

/-- Cuts the file or fills it up with zero bytes. -/
def setLength (limit : Nat) (c : Content) (n : Nat) : Except FileFault Unit × Content :=
  match c with
  | regular bytes =>
    if bytes.size < n ∧ limit < n then (.error (.system .fileTooLarge), .regular bytes)
    else (.ok (), .regular (Bytes.resize bytes n))
  | fullDevice => (.error (.system .invalidArgument), .fullDevice)
  | directory => (.error (.system .isADirectory), .directory)

/-- Has the medium keep what was written. -/
def sync (c : Content) : Except FileFault Unit :=
  match c with
  | fullDevice => .error (.system .invalidArgument)
  | _ => .ok ()

end Content

end DurableLog
