import DurableLog.Disk.Content
import DurableLog.Limits

/-!
# The data directory

One directory with at most one file in it, the log file. An open file stays what it was when the
name is removed: files are kept by number, and the name leads to one of them.
-/

namespace DurableLog

/-- What stands where the data directory should be. -/
inductive Place
  | nothing
  | aFile
  | aDirectory
  deriving DecidableEq

/-- The part of the file system that a log uses. -/
structure Disk where
  /-- The path of the data directory. -/
  dataDir : String
  place : Place
  /-- Every file there ever was. -/
  files : Array Content
  /-- The file that the log's name leads to. -/
  named : Option Nat
  /-- No file grows past this length. -/
  limit : Nat
  limit_le : limit ≤ maxFileSize

namespace Disk

/-- A disk without the data directory. -/
def blank (dataDir : String) : Disk :=
  ⟨dataDir, .nothing, #[], none, maxFileSize, Nat.le_refl _⟩

/-- The path of a file in a directory. -/
def joinPath (dir name : String) : String :=
  if dir.endsWith "/" then dir ++ name else dir ++ "/" ++ name

/-- The path of the log file. -/
def walPath (d : Disk) : String := joinPath d.dataDir walFileName

/-- No file grows past `limit` from now on. -/
def setLimit (d : Disk) (limit : Option Nat) : Disk :=
  { d with limit := min (limit.getD maxFileSize) maxFileSize, limit_le := Nat.min_le_right _ _ }

/-- The content with a number; one that was never given is an empty file. -/
def content (d : Disk) (file : Nat) : Content := d.files.getD file (.regular .empty)

def setContent (d : Disk) (file : Nat) (c : Content) : Disk :=
  { d with files := d.files.setIfInBounds file c }

/-- The file that the log's name leads to. -/
def find (d : Disk) : Except FileFault Nat :=
  match d.place, d.named with
  | .aDirectory, some file => .ok file
  | .aFile, _ => .error (.system .notADirectory)
  | _, _ => .error (.system .noEntry)

/-- There is a log file. -/
def hasLog (d : Disk) : Bool :=
  match d.find with
  | .ok _ => true
  | .error _ => false

/-- Puts a new file under the log's name. -/
def addLog (d : Disk) (c : Content) : Disk :=
  { d with files := d.files.push c, named := some d.files.size }

/-- Opens the log file for writing, and makes it if it is missing. -/
def openOrCreate (d : Disk) : Except FileFault (Nat × Disk) :=
  match d.find with
  | .ok file =>
    match d.content file with
    | .directory => .error (.system .isADirectory)
    | _ => .ok (file, d)
  | .error (.system .noEntry) =>
    if d.place = .aDirectory then .ok (d.files.size, d.addLog (.regular .empty))
    else .error (.system .noEntry)
  | .error fault => .error fault

/-- Makes the data directory and the directories above it. -/
def createDataDir (d : Disk) : Except FileFault Disk :=
  match d.place with
  | .nothing => .ok { d with place := .aDirectory }
  | .aFile => .error (.system .alreadyExists)
  | .aDirectory => .ok d

/-- Cuts or fills up an open file. -/
def setLength (d : Disk) (file n : Nat) : Except FileFault Unit × Disk :=
  match (d.content file).setLength d.limit n with
  | (result, c) => (result, d.setContent file c)

/-! ## Whole-file operations -/

/-- Takes the log file away. -/
def remove (d : Disk) : Except FileFault Disk :=
  match d.find with
  | .error fault => .error fault
  | .ok file =>
    match d.content file with
    | .directory => .error (.system .isADirectory)
    | _ => .ok { d with named := none }

/-- Writes all of `bytes` at an offset of an open file, or as much as the limit allows. -/
def fill (d : Disk) (file offset : Nat) (bytes : ByteArray) : Except FileFault Unit × Disk :=
  match (d.content file).write d.limit offset bytes with
  | (.error fault, c) => (.error fault, d.setContent file c)
  | (.ok n, c) =>
    let d := d.setContent file c
    if n < bytes.size then (.error (.system .fileTooLarge), d) else (.ok (), d)

/-- Replaces the content of the log file, making it if it is missing. -/
def replace (d : Disk) (bytes : ByteArray) : Except FileFault Unit × Disk :=
  match d.openOrCreate with
  | .error fault => (.error fault, d)
  | .ok (file, d) =>
    match d.content file with
    | .regular _ => (d.setContent file (.regular .empty)).fill file 0 bytes
    | _ => d.fill file 0 bytes

/-- Continues the log file, making it if it is missing. -/
def extend (d : Disk) (bytes : ByteArray) : Except FileFault Unit × Disk :=
  match d.openOrCreate with
  | .error fault => (.error fault, d)
  | .ok (file, d) => d.fill file (d.content file).size bytes

/-- Cuts the log file, or fills it up with zero bytes. -/
def truncate (d : Disk) (n : Nat) : Except FileFault Unit × Disk :=
  match d.find with
  | .error fault => (.error fault, d)
  | .ok file => d.setLength file n

/-- Changes bits of one byte of the log file. -/
def flip (d : Disk) (offset : Nat) (mask : UInt8) : Except FileFault Unit × Disk :=
  match d.find with
  | .error fault => (.error fault, d)
  | .ok file =>
    match d.content file with
    | .regular bytes =>
      if h : offset < bytes.size then
        (.ok (), d.setContent file (.regular (bytes.set offset (bytes[offset] ^^^ mask) h)))
      else (.ok (), d)
    | .fullDevice => (.error (.system .noSpace), d)
    | .directory => (.error (.system .isADirectory), d)

/-- The length of the log file, if there is one. -/
def length? (d : Disk) : Option Nat :=
  match d.find with
  | .ok file => some (d.content file).size
  | .error _ => none

end Disk

end DurableLog
