import DurableLog.Inspection
import DurableLog.Log.Log
import DurableLog.Session.Storage

/-!
# Steps and answers

What a session can be asked to do, and what it answers.
-/

namespace DurableLog.Session

/-- How a log is opened. -/
inductive OpenMode
  /-- In memory, the settings unchecked. -/
  | memory
  /-- In memory, the settings checked. -/
  | checkedMemory
  /-- On the disk, with its history. -/
  | onDisk
  /-- With a journal on the disk, without its history. -/
  | freshOnDisk
  | recorder (blocking : Bool)
  deriving DecidableEq

/-- Something that may have to wait. -/
inductive Work
  | onLog (call : Call)
  /-- A range read whose entries are kept under a name. -/
  | readAndHold (first : Nat) (last : Option Nat) (name : String)
  /-- Takes entries in without a log. -/
  | capture (sources : List Source) (token : Option String)
  /-- Takes only the first entry in. -/
  | captureFirst (source : Source) (token : Option String)
  /-- Waits on the session's own board. -/
  | waitOnBoard (index : Nat) (time : Duration) (token : Option String)

/-- A step of a session. -/
inductive Step
  | openLog (mode : OpenMode) (config : Config)
  | work (work : Work)
  | spawn (name : String) (work : Work)
  | firstEntry
  | isVotedFor (candidate : Member)
  | waiters
  | settings
  | describe
  | held (name : String)
  | heldEqual (name other : String)
  | dropLog
  | closeLog
  | failHooks (plan : FailurePlan)
  | healHooks
  | takeCalls
  | holdHooks
  | awaitHook
  | releaseHooks (join : List String)
  | abort (name : String)
  | cancel (token : String)
  | openGate (name : String)
  | advance (time : Duration)
  | setIntake (intake : Intake)
  | newBoard (index : Nat)
  | publish (index : Nat)
  | boardWaiters
  | fileWrite (bytes : ByteArray)
  | fileAppend (bytes : ByteArray)
  | fileTruncate (length : Nat)
  | fileFlip (offset : Nat) (mask : UInt8)
  | fileRemove
  | fileLength
  | fileLimit (limit : Option Nat)
  | readerOpen
  | readerNext
  | iteratorOpen
  | iteratorNext
  | writerOpen (policy : SyncPolicy)
  | writerAppend (changes : List Change)
  | writerSync
  | writerPath
  | writerClose
  | verify
  | read
  | recover
  | readReplica
  | storeOpen (policy : SyncPolicy)
  | storeFromWriter
  | storeClose
  | storeKeep (hook : Hook)
  | storeIsBlocking
  | inspect (inspection : Inspection)

/-- What an inspection told, and how it ended. -/
structure Report where
  exitCode : Nat
  lines : List String
  message : Option String

/-- An answer of a session. -/
inductive Answer
  | nothing
  | ok
  /-- The step needs something that is not there. -/
  | notOpen
  | number (n : Nat)
  | flag (b : Bool)
  | flags (bs : List Bool)
  | text (s : String)
  | fault (fault : Fault)
  | aborted
  | panicked
  | entry (e : Entry)
  | entries (es : Array Entry)
  | heldEntries (es : Array Entry)
  | config (c : Config)
  | calls (hooks : List Hook)
  | record (r : Record)
  | next (found : Except Fault (Option Record)) (position : Nat) (torn : Bool)
  | writer (w : Writer)
  | appended (result : Except Fault UInt64) (w : Writer)
  | synced (result : Except Fault Unit) (w : Writer)
  | survey (s : Survey)
  | records (rs : List Record) (s : Survey)
  | replica (r : Replica)
  | kept (result : Except Fault Unit) (nextLsn : UInt64)
  | report (r : Report)
  | joined (results : List (String × Answer))

namespace Answer

/-- An answer that may be missing. -/
def ofOption {α : Type} (f : α → Answer) : Option α → Answer
  | some a => f a
  | none => nothing

/-- A success, or the fault. -/
def ofExcept {α : Type} (f : α → Answer) : Except Fault α → Answer
  | .ok a => f a
  | .error cause => .fault cause

/-- A success without a value, or the fault. -/
def ofUnit (result : Except Fault Unit) : Answer := ofExcept (fun _ => ok) result

def ofFile (result : Except FileFault Unit) : Answer := ofUnit (result.mapError .file)

def ofReply : Reply → Answer
  | .done => ok
  | .index n => number n
  | .count n => number n
  | .term term => number term.toNat
  | .entries es => entries es

def ofTask : TaskResult → Answer
  | .answered result => ofExcept ofReply result
  | .aborted => aborted
  | .panicked => panicked

end Answer

/-- The state of an open log after a step. -/
structure Status where
  lastIndex : Nat
  commitIndex : Nat
  term : Term
  vote : Option Member
  deriving DecidableEq

/-- What a step comes to. -/
structure Outcome where
  answer : Answer
  /-- The named tasks that ended during the step. -/
  ended : List (String × Answer)
  status : Option Status

end DurableLog.Session
