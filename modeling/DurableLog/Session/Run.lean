import DurableLog.Log.Describe
import DurableLog.Log.Opening
import DurableLog.Session.Session

/-!
# Running a session

Each step is done, then all tasks settle, and what ended in the meantime is told with the answer.

A wait that is not a named task lets time run to its end when nothing else is left to do; the
named waits whose time ends earlier end on the way.
-/

namespace DurableLog.Session

/-! ## Work -/

/-- Does something to its end and gives the answer. -/
def runWork (s : Session) (work : Work) : Answer × Session :=
  match s.begin work with
  | none => (.notOpen, s)
  | some (state, s) =>
    let place := s.jobs.size
    let s := { s with jobs := s.jobs.push ⟨"", state⟩ }.settle
    -- everybody else waits, so time runs on to the end of this wait
    let s := match s.deadline? place with
      | some deadline => (s.modifyEnv fun env => env.passTo deadline).settle
      | none => s
    let answer := match s.jobs[place]?.map Job.state with
      | some (.ended answer) => answer
      | _ => .nothing
    let s := s.abortJob place
    (answer, { s with jobs := s.jobs.eraseIdxIfInBounds place })

/-- Begins a named task. -/
def spawn (s : Session) (name : String) (work : Work) : Answer × Session :=
  match s.begin work with
  | none => (.notOpen, s)
  | some (state, s) => (.nothing, { s with jobs := s.jobs.push ⟨name, state⟩ })

/-- Drops the tasks with this name. -/
def abortNamed (s : Session) (name : String) : Session :=
  (List.range s.jobs.size).foldl
    (fun s place => if s.jobs[place]?.map Job.name = some name then s.abortJob place else s) s

/-! ## Logs -/

/-- The name of a backend in the description of a log. -/
def Keeper.describe : Keeper → String
  | nowhere => "Volatile"
  | recorder _ => "Recorder"
  | journal _ => "WalStore"

/-- Opens a log in a recovered state. -/
def install (s : Session) (config : Config) (replica : Replica) (keeper : Keeper) : Session :=
  { s with
    logs := s.logs.push ⟨.ofReplica config replica, keeper⟩
    current := some s.logs.size }

/-- Opens a log with a journal. -/
def installJournal (s : Session) (config : Config) (replica : Replica) (journal : Journal) :
    Session :=
  let number := s.storage.journals.size
  let storage := { s.storage with journals := s.storage.journals.push journal }
  { s with storage }.install config replica (.journal number)

/-- Opens a log with a new recorder. -/
def installRecorder (s : Session) (config : Config) (blocking : Bool) : Session :=
  let number := s.storage.recorders.size
  let storage := { s.storage with recorders := s.storage.recorders.push (.new blocking) }
  { s with storage, recorder := some number }.install config .empty (.recorder number)

/-- Opens a log as `Disk.openLog` does. -/
def openOnDisk (s : Session) (config : Config) : Answer × Session :=
  match s.disk.openLog config with
  | (.error cause, disk) => (.fault cause, s.setDisk disk)
  | (.ok (replica, some journal), disk) =>
    (.ok, (s.setDisk disk).installJournal config replica journal)
  | (.ok (replica, none), disk) => (.ok, (s.setDisk disk).install config replica .nowhere)

/-- Opens a log; one that is open stays if this fails. -/
def openLog (s : Session) (config : Config) : OpenMode → Answer × Session
  | .memory => (.ok, s.install config .empty .nowhere)
  | .checkedMemory => s.openOnDisk { config with dataDir := none }
  | .onDisk => s.openOnDisk { config with dataDir := some s.disk.dataDir }
  | .freshOnDisk =>
    match Journal.openAt s.disk config.sync with
    | (.error cause, disk) => (.fault cause, s.setDisk disk)
    | (.ok journal, disk) => (.ok, (s.setDisk disk).installJournal config .empty journal)
  | .recorder blocking => (.ok, s.installRecorder config blocking)

/-- Asks the open log. -/
def askLog (s : Session) (f : OpenedLog → Answer) : Answer :=
  match s.openedLog? with
  | some opened => f opened
  | none => .notOpen

/-- Drops the open log and all tasks. -/
def dropLog (s : Session) : Session := { s.abortAll with current := none }

/-- Drops the open log and all tasks, and has its backend keep everything. -/
def closeLog (s : Session) : Answer × Session :=
  match s.openedLog? with
  | none => (.notOpen, s)
  | some opened =>
    let s := s.dropLog
    match (opened.keeper.backend s.storage).keep .sync s.storage with
    | (.kept, storage) => (.ok, { s with storage })
    | (.failed cause, storage) => (.fault cause, { s with storage })
    | (.panicked, storage) => (.panicked, { s with storage })

/-- Compares a range kept under a name with another. -/
def heldEqual (s : Session) (name other : String) : Answer :=
  match s.held.lookup name, s.held.lookup other with
  | some a, some b => .flags [a = b, a = b]
  | _, _ => .nothing

/-! ## The recorder -/

/-- The recorder made last. -/
def recorder? (s : Session) : Option Recorder :=
  s.recorder.bind fun number => s.storage.recorders[number]?

/-- Changes the recorder made last. -/
def withRecorder (s : Session) (f : Recorder → Answer × Recorder) : Answer × Session :=
  match s.recorder, s.recorder? with
  | some number, some r =>
    match f r with
    | (answer, r) =>
      let recorders := s.storage.recorders.setIfInBounds number r
      (answer, { s with storage := { s.storage with recorders } })
  | _, _ => (.notOpen, s)

/-- Lets held hooks go on and waits for tasks; their answers are taken out. -/
def releaseHooks (s : Session) (join : List String) : Answer × Session :=
  match s.withRecorder fun r => (.nothing, { r with holding := false }) with
  | (.notOpen, s) => (.notOpen, s)
  | (_, s) =>
    let s := s.settle
    let joined := s.jobs.toList.filterMap fun job =>
      match job.state with
      | .ended answer => if join.contains job.name then some (job.name, answer) else none
      | _ => none
    let others := s.jobs.filter fun job =>
      match job.state with
      | .ended _ => !join.contains job.name
      | _ => true
    (.joined joined, { s with jobs := others })

/-! ## The log file -/

/-- Changes the disk. -/
def withDisk (s : Session) (f : Disk → Except FileFault Unit × Disk) : Answer × Session :=
  match f s.disk with
  | (result, disk) => (.ofFile result, s.setDisk disk)

def removeFile (s : Session) : Answer × Session :=
  s.withDisk fun disk =>
    match disk.remove with
    | .ok disk => (.ok (), disk)
    | .error cause => (.error cause, disk)

/-- Opens a reader on the log file. -/
def openReader (s : Session) : Answer × Session :=
  match s.disk.find with
  | .ok file => (.ok, { s with reader := some (file, .start) })
  | .error cause => (.fault (.file cause), s)

def readNext (s : Session) : Answer × Session :=
  match s.reader with
  | none => (.notOpen, s)
  | some (file, r) =>
    match r.next (s.disk.content file) with
    | (found, r) => (.next found r.position r.torn, { s with reader := some (file, r) })

/-- Turns the reader into an iterator. -/
def openIterator (s : Session) : Answer × Session :=
  match s.reader with
  | none => (.notOpen, s)
  | some (file, r) => (.nothing, { s with reader := none, iterator := some (file, .ofReader r) })

def iterate (s : Session) : Answer × Session :=
  match s.iterator with
  | none => (.notOpen, s)
  | some (file, it) =>
    match it.next (s.disk.content file) with
    | (found, it) =>
      (.ofExcept (.ofOption .record) found, { s with iterator := some (file, it) })

/-- Opens a journal on the disk. -/
def openJournal (s : Session) (policy : SyncPolicy) : Except Fault Journal × Session :=
  match Journal.openAt s.disk policy with
  | (result, disk) => (result, s.setDisk disk)

def openWriter (s : Session) (policy : SyncPolicy) : Answer × Session :=
  match s.openJournal policy with
  | (.error cause, s) => (.fault cause, s)
  | (.ok j, s) => (.writer j.writer, { s with writer := some j })

/-- Does something with the open writer. -/
def withWriter (s : Session) (f : Journal → Disk → Answer × Journal × Disk) : Answer × Session :=
  match s.writer with
  | none => (.notOpen, s)
  | some j =>
    match f j s.disk with
    | (answer, j, disk) => (answer, { s.setDisk disk with writer := some j })

def appendRecords (s : Session) (changes : List Change) : Answer × Session :=
  s.withWriter fun j disk =>
    match j.appendAll noStamps disk changes with
    | (result, j, disk) => (.appended result j.writer, j, disk)

def syncWriter (s : Session) : Answer × Session :=
  s.withWriter fun j disk =>
    match j.sync disk with
    | (result, j, disk) => (.synced result j.writer, j, disk)

def openStore (s : Session) (policy : SyncPolicy) : Answer × Session :=
  match s.openJournal policy with
  | (.error cause, s) => (.fault cause, s)
  | (.ok j, s) => (.number j.writer.nextLsn.toNat, { s with store := some j })

/-- Makes a store of the open writer. -/
def storeFromWriter (s : Session) : Answer × Session :=
  match s.writer with
  | none => (.notOpen, s)
  | some j => (.number j.writer.nextLsn.toNat, { s with writer := none, store := some j })

def storeKeep (s : Session) (hook : Hook) : Answer × Session :=
  match s.store with
  | none => (.notOpen, s)
  | some j =>
    match j.keep noStamps s.disk hook with
    | (result, j, disk) =>
      (.kept result j.writer.nextLsn, { s.setDisk disk with store := some j })

def recover (s : Session) : Answer × Session :=
  match s.disk.recover with
  | (result, disk) => (.ofExcept (fun found => .records found.1 found.2) result, s.setDisk disk)

/-- The report of an inspection. -/
def inspect (s : Session) (inspection : Inspection) : Answer :=
  match inspection.run s.disk with
  | .ok lines => .report ⟨0, lines, none⟩
  | .error cause => .report ⟨1, [], some cause.message⟩

/-! ## Steps -/

/-- Does what a step asks for. -/
def perform (s : Session) : Step → Answer × Session
  | .openLog mode config => s.openLog config mode
  | .work work => s.runWork work
  | .spawn name work => s.spawn name work
  | .firstEntry => (s.askLog fun o => .entry o.log.memory.snapshot.first, s)
  | .isVotedFor candidate => (s.askLog fun o => .flag (o.log.memory.isVotedFor candidate), s)
  | .waiters => (s.askLog fun o => .number o.log.memory.board.waiting, s)
  | .settings => (s.askLog fun o => .config o.log.config, s)
  | .describe => (s.askLog fun o => .text (o.log.memory.describe o.keeper.describe), s)
  | .held name => (.ofOption .heldEntries (s.held.lookup name), s)
  | .heldEqual name other => (s.heldEqual name other, s)
  | .dropLog => (.nothing, s.dropLog)
  | .closeLog => s.closeLog
  | .failHooks plan => s.withRecorder fun r => (.nothing, { r with plan := some plan })
  | .healHooks => s.withRecorder fun r => (.nothing, { r with plan := none })
  | .takeCalls => s.withRecorder fun r => (.calls r.calls.toList, { r with calls := #[] })
  | .holdHooks => s.withRecorder fun r => (.nothing, { r with holding := true })
  | .awaitHook => s.withRecorder fun r => (.nothing, r)
  | .releaseHooks join => s.releaseHooks join
  | .abort name => (.nothing, s.abortNamed name)
  | .cancel token => (.nothing, s.modifyEnv fun env => env.cancel token)
  | .openGate name => (.nothing, s.modifyEnv fun env => env.openGate name)
  | .advance time => (.nothing, s.modifyEnv fun env => env.passTo (env.now + time.toNanos))
  | .setIntake intake => (.nothing, { s with intake })
  | .newBoard index => (.nothing, { s with boards := s.boards.push (.ofIndex index) })
  | .publish index =>
    (.nothing, s.modifyBoard (s.boards.size - 1) fun board => board.publish index)
  | .boardWaiters => (.number s.board.waiting, s)
  | .fileWrite bytes => s.withDisk fun disk => disk.replace bytes
  | .fileAppend bytes => s.withDisk fun disk => disk.extend bytes
  | .fileTruncate length => s.withDisk fun disk => disk.truncate length
  | .fileFlip offset mask => s.withDisk fun disk => disk.flip offset mask
  | .fileRemove => s.removeFile
  | .fileLength => (.ofOption .number s.disk.length?, s)
  | .fileLimit limit => (.nothing, s.setDisk (s.disk.setLimit limit))
  | .readerOpen => s.openReader
  | .readerNext => s.readNext
  | .iteratorOpen => s.openIterator
  | .iteratorNext => s.iterate
  | .writerOpen policy => s.openWriter policy
  | .writerAppend changes => s.appendRecords changes
  | .writerSync => s.syncWriter
  | .writerPath => s.withWriter fun j disk => (.text j.writer.path, j, disk)
  | .writerClose => (.nothing, { s with writer := none })
  | .verify => (.ofExcept (fun found => .survey found.2) s.disk.survey, s)
  | .read => (.ofExcept (fun found => .records found.1 found.2) s.disk.survey, s)
  | .recover => s.recover
  | .readReplica => (.ofExcept .replica s.disk.readReplica, s)
  | .storeOpen policy => s.openStore policy
  | .storeFromWriter => s.storeFromWriter
  | .storeClose => (.nothing, { s with store := none })
  | .storeKeep hook => s.storeKeep hook
  | .storeIsBlocking => (if s.store.isSome then .flag true else .notOpen, s)
  | .inspect inspection => (s.inspect inspection, s)

/-- The state of the open log. -/
def status? (s : Session) : Option Status :=
  s.openedLog?.map fun opened =>
    let m := opened.log.memory
    ⟨m.snapshot.lastIndex, m.commitIndex, m.term, m.vote⟩

/-- One step with everything that comes of it. -/
def step (s : Session) (request : Step) : Outcome × Session :=
  match s.perform request with
  | (answer, s) =>
    match s.settle.collect with
    | (ended, s) => (⟨answer, ended, s.status?⟩, s)

/-- All steps of a session, one after another. -/
def run (s : Session) : List Step → List Outcome
  | [] => []
  | request :: rest =>
    match s.step request with
    | (outcome, s) => outcome :: s.run rest

end DurableLog.Session
