import DurableLog.Limits
import DurableLog.Text.Padding
import DurableLog.Time.Duration

/-!
# Faults

Every way in which an operation can fail, as a cause with its data. The wording is in one place,
`Fault.message`; nothing else looks at texts.

A fault can also be *reported* by a durability backend in its own words; such a cause carries its
text.
-/

namespace DurableLog

/-- The kind of an input or output fault. -/
inductive FileFaultKind
  | notFound | permissionDenied | connectionRefused | connectionReset | hostUnreachable
  | networkUnreachable | connectionAborted | notConnected | addressInUse | addressNotAvailable
  | networkDown | brokenPipe | alreadyExists | wouldBlock | notADirectory | isADirectory
  | directoryNotEmpty | readOnlyFileSystem | staleFileHandle | invalidInput | invalidData
  | timedOut | writeZero | storageFull | notSeekable | quotaExceeded | fileTooLarge
  | resourceBusy | executableFileBusy | deadlock | crossesDevices | tooManyLinks
  | invalidFileName | argumentListTooLong | interrupted | unsupported | unexpectedEnd
  | outOfMemory | other
  deriving DecidableEq

/-- A fault of the operating system on a file. -/
inductive SystemFault
  | noEntry | alreadyExists | notADirectory | isADirectory | invalidArgument | fileTooLarge
  | noSpace
  deriving DecidableEq

namespace SystemFault

def code : SystemFault → Nat
  | noEntry => 2
  | alreadyExists => 17
  | notADirectory => 20
  | isADirectory => 21
  | invalidArgument => 22
  | fileTooLarge => 27
  | noSpace => 28

def text : SystemFault → String
  | noEntry => "No such file or directory"
  | alreadyExists => "File exists"
  | notADirectory => "Not a directory"
  | isADirectory => "Is a directory"
  | invalidArgument => "Invalid argument"
  | fileTooLarge => "File too large"
  | noSpace => "No space left on device"

def kind : SystemFault → FileFaultKind
  | noEntry => .notFound
  | alreadyExists => .alreadyExists
  | notADirectory => .notADirectory
  | isADirectory => .isADirectory
  | invalidArgument => .invalidInput
  | fileTooLarge => .fileTooLarge
  | noSpace => .storageFull

end SystemFault

/-- A fault of reading or writing. -/
inductive FileFault
  | system (fault : SystemFault)
  /-- A write took no byte of a frame. -/
  | frameNotTaken
  /-- A write took no byte of the gathered frames. -/
  | blockNotTaken
  /-- The writer gave up its file after it could not undo a failed write. -/
  | writerDisabled
  /-- Told by a stream or backend in its own words. -/
  | reported (kind : FileFaultKind) (text : String)
  deriving DecidableEq

namespace FileFault

def kind : FileFault → FileFaultKind
  | system fault => fault.kind
  | frameNotTaken | blockNotTaken => .writeZero
  | writerDisabled => .other
  | reported kind _ => kind

def message : FileFault → String
  | system fault => fault.text ++ " (os error " ++ toString fault.code ++ ")"
  | frameNotTaken => "failed to write whole buffer"
  | blockNotTaken => "failed to write the buffered data"
  | writerDisabled => "writer disabled after a failed rollback"
  | reported _ text => text

end FileFault

/-- What is wrong with the body of a record. -/
inductive BodyFault
  | unexpectedEnd
  | unknownVariant (found : Nat)
  | badOptionTag (found : Nat)
  | badFlag (found : Nat)
  deriving DecidableEq

def BodyFault.message : BodyFault → String
  | unexpectedEnd => "io error: unexpected end of file"
  | unknownVariant found =>
    "invalid value: integer `" ++ toString found ++ "`, expected variant index 0 <= i < 3"
  | badOptionTag found => "tag for enum is not valid, found " ++ toString found
  | badFlag found =>
    "invalid u8 while decoding bool, expected 0 or 1, found " ++ toString found

/-- What is wrong with a stored log. -/
inductive Corruption
  | shortHeader (found : Nat)
  | longRecord (length : Nat)
  | longRecordAt (length offset : Nat)
  | shortBody (length found : Nat)
  | checksum (lsn : UInt64) (expected actual : UInt32)
  | body (fault : BodyFault)
  | lsnMismatch (header record : UInt64)
  | misplacedAppend (lsn start : UInt64) (length : Nat)
  | badTimestamp (secs : Int) (nanos : Nat)
  | reported (text : String)
  deriving DecidableEq

def Corruption.message : Corruption → String
  | shortHeader found =>
    "incomplete header: expected " ++ toString headerSize ++ " bytes, got " ++ toString found
  | longRecord length =>
    "record length " ++ toString length ++ " exceeds the " ++ toString maxRecordSize
      ++ " byte limit"
  | longRecordAt length offset =>
    "record length " ++ toString length ++ " at offset " ++ toString offset ++ " exceeds the "
      ++ toString maxRecordSize ++ " byte limit"
  | shortBody length found =>
    "incomplete record: expected " ++ toString length ++ " bytes, got " ++ toString found
  | checksum lsn expected actual =>
    "CRC mismatch for LSN " ++ toString lsn ++ ": expected " ++ Text.hexPadded 8 expected.toNat
      ++ ", got " ++ Text.hexPadded 8 actual.toNat
  | body fault => fault.message
  | lsnMismatch header record =>
    "header LSN " ++ toString header ++ " does not match record LSN " ++ toString record
  | misplacedAppend lsn start length =>
    "LSN " ++ toString lsn ++ ": append at index " ++ toString start ++ " on a log of length "
      ++ toString length
  | badTimestamp secs nanos =>
    "invalid entry timestamp " ++ toString secs ++ "s " ++ toString nanos ++ "ns"
  | reported text => text

/-- Why records were not written. -/
inductive WriteFault
  | recordTooLong (size : Nat)
  | failed (path : String) (lsn : UInt64) (cause : FileFault)
  | reported (text : String)
  deriving DecidableEq

def WriteFault.message : WriteFault → String
  | recordTooLong size =>
    "record of " ++ toString size ++ " bytes exceeds the " ++ toString maxRecordSize
      ++ " byte limit"
  | failed path lsn cause => path ++ ": LSN " ++ toString lsn ++ ": " ++ cause.message
  | reported text => text

/-- What is wrong with the settings. -/
inductive SettingsFault
  | noCapacity
  | capacityAboveLimit (capacity limit : Nat)
  | limitAboveRecord (limit : Nat)
  | noSyncCount
  | noLogFile (path : String)
  | reported (text : String)
  deriving DecidableEq

def SettingsFault.message : SettingsFault → String
  | noCapacity => "buffer_initial_capacity must be greater than zero"
  | capacityAboveLimit capacity limit =>
    "buffer_initial_capacity (" ++ toString capacity ++ ") exceeds max_payload_size ("
      ++ toString limit ++ ")"
  | limitAboveRecord limit =>
    "max_payload_size (" ++ toString limit ++ ") exceeds the " ++ toString maxEntryPayload
      ++ " byte WAL entry limit"
  | noSyncCount => "EveryNEntries sync strategy needs a count of at least 1"
  | noLogFile path => "no WAL at " ++ path
  | reported text => text

/-- How the size of a payload that is too large became known. -/
inductive PayloadSize
  /-- The stream announced it. -/
  | announced (size : Nat)
  /-- So many bytes had been read, and more may follow. -/
  | readSoFar (size : Nat)
  deriving DecidableEq

def PayloadSize.toNat : PayloadSize → Nat
  | announced size => size
  | readSoFar size => size

/-- Why an operation failed. -/
inductive Fault
  | file (fault : FileFault)
  | indexOutOfRange (index length : Nat)
  | emptyBatch
  | payloadTooLarge (size : PayloadSize) (limit : Nat)
  | invalidAppendIndex (start commitIndex : Nat)
  | timeout (index : Nat) (after : Duration)
  | canceled
  | corruption (cause : Corruption)
  | write (cause : WriteFault)
  /-- The durability hook stopped in the middle. -/
  | hookPanicked
  | durability (text : String)
  | serialization (text : String)
  | settings (cause : SettingsFault)
  deriving DecidableEq

namespace Fault

/-- A fault of the operating system. -/
def ofSystem (fault : SystemFault) : Fault := file (.system fault)

/-- The text shown for a fault. -/
def message : Fault → String
  | file fault => "IO error: " ++ fault.message
  | indexOutOfRange index length =>
    "Index " ++ toString index ++ " is out of range (log length " ++ toString length ++ ")"
  | emptyBatch => "Entry set is empty"
  | payloadTooLarge size limit =>
    "Entry payload of " ++ toString size.toNat ++ " bytes exceeds the " ++ toString limit
      ++ " byte limit"
  | invalidAppendIndex start commitIndex =>
    "Cannot append at index " ++ toString start ++ ": entries up to " ++ toString commitIndex
      ++ " are committed"
  | timeout index after =>
    "Index " ++ toString index ++ " was not committed within " ++ after.text
  | canceled => "Operation canceled"
  | corruption cause => "WAL corruption detected: " ++ cause.message
  | write cause => "WAL write failed: " ++ cause.message
  | hookPanicked => "Durability hook did not complete: the hook panicked"
  | durability text => "Durability hook did not complete: " ++ text
  | serialization text => "Serialization error: " ++ text
  | settings cause => "Configuration error: " ++ cause.message

/-- A wait ran out of time. -/
def isTimeout : Fault → Bool
  | timeout .. => true
  | _ => false

/-- The operation was called off. -/
def isCanceled : Fault → Bool
  | canceled => true
  | _ => false

end Fault

end DurableLog
