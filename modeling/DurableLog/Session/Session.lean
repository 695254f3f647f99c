import DurableLog.Log.Run
import DurableLog.Session.Step

/-!
# Sessions

A session holds at most one open log and one of each tool on the log file, and a number of named
tasks that go on by themselves. Time is a number that only the session moves.

Logs and boards that have been replaced are kept, because tasks and hooks that began on them go
on there.

## Settling

After every step the tasks take turns, in the order in which they began, until none of them can.
A task takes at most five turns to its end, its hook's return included, so a number of rounds
known beforehand is enough (`Session.rounds`).
-/

namespace DurableLog.Session

/-- A log of a session and where it keeps its changes. -/
structure OpenedLog where
  log : Log
  keeper : Keeper

/-- What a named task is. -/
inductive JobState
  /-- A task of a log; a range it reads may be kept under a name. -/
  | onLog (log task : Nat) (holdAs : Option String)
  | capturing (capture : Capture) (intake : Intake) (onlyFirst : Bool) (token : Option String)
  | waiting (board : Nat) (wait : CommitWait)
  | ended (answer : Answer)

/-- A named task. -/
structure Job where
  name : String
  state : JobState

end Session

/-- A session. -/
structure Session where
  storage : Session.Storage
  env : Surroundings
  logs : Array Session.OpenedLog
  /-- The open log. -/
  current : Option Nat
  /-- The recorder made last. -/
  recorder : Option Nat
  /-- The session's own boards; the last one is in use. -/
  boards : Array CommitBoard
  intake : Intake
  reader : Option (Nat × Reader)
  iterator : Option (Nat × RecordIterator)
  writer : Option Journal
  store : Option Journal
  /-- The tasks that have not been reported, in the order in which they began. -/
  jobs : Array Session.Job
  /-- Ranges kept under a name, the last one first. -/
  held : List (String × Array Entry)

namespace Session

/-- A session on a disk. -/
def start (disk : Disk) : Session where
  storage := ⟨disk, #[], #[]⟩
  env := .start
  logs := #[]
  current := none
  recorder := none
  boards := #[.ofIndex 0]
  intake := .default
  reader := none
  iterator := none
  writer := none
  store := none
  jobs := #[]
  held := []

def disk (s : Session) : Disk := s.storage.disk

def setDisk (s : Session) (disk : Disk) : Session :=
  { s with storage := { s.storage with disk } }

/-- The open log. -/
def openedLog? (s : Session) : Option OpenedLog := s.current.bind fun number => s.logs[number]?

def setLog (s : Session) (number : Nat) (log : Log) : Session :=
  { s with logs := s.logs.modify number fun opened => { opened with log } }

/-- The board in use. -/
def board (s : Session) : CommitBoard := s.boards.back?.getD (.ofIndex 0)

def modifyBoard (s : Session) (number : Nat) (f : CommitBoard → CommitBoard) : Session :=
  { s with boards := s.boards.modify number f }

def setJob (s : Session) (place : Nat) (state : JobState) : Session :=
  { s with jobs := s.jobs.modify place fun job => { job with state } }

/-! ## Beginning a task -/

/-- What the surroundings let a reader do. -/
def signals (s : Session) (token : Option String) : Signals :=
  ⟨s.env.isCancelled token, fun name => s.env.opened.contains name⟩

/-- Calls the open log, if there is one. -/
def beginCall (s : Session) (call : Call) (holdAs : Option String) : Option (JobState × Session) :=
  match s.current with
  | none => none
  | some number =>
    (s.logs[number]?).map fun opened =>
      (.onLog number opened.log.tasks.size holdAs, s.setLog number (opened.log.call s.env call))

/-- Begins something that may have to wait; nothing if it needs a log and there is none. -/
def begin (s : Session) : Work → Option (JobState × Session)
  | .onLog call => s.beginCall call none
  | .readAndHold first last name => s.beginCall (.read first last) (some name)
  | .capture sources token => some (.capturing (.start sources) s.intake false token, s)
  | .captureFirst source token => some (.capturing (.start [source]) s.intake true token, s)
  | .waitOnBoard index time token =>
    let wait := CommitWait.start s.env index time token
    match wait.firstAnswer? s.env s.board.published with
    | some result => some (.ended (.ofUnit result), s)
    | none =>
      let number := s.boards.size - 1
      some (.waiting number wait, s.modifyBoard number .join)

/-! ## Settling -/

/-- The answer of a capture. -/
def captured (onlyFirst : Bool) : Except Fault (Array Entry) → Answer
  | .ok entries => if onlyFirst then .ofOption .entry entries[0]? else .entries entries
  | .error fault => .fault fault

/-- One turn of a named task, if it need not wait. -/
def turn? (s : Session) (place : Nat) : Option Session :=
  match s.jobs[place]?.map Job.state with
  | some (.onLog number task holdAs) =>
    match s.logs[number]? with
    | none => none
    | some opened =>
      match opened.log.tasks[task]? with
      | some (.finished result) =>
        let s := match holdAs, result with
          | some name, .answered (.ok (.entries entries)) =>
            { s with held := (name, entries) :: s.held }
          | _, _ => s
        some (s.setJob place (.ended (.ofTask result)))
      | _ =>
        (opened.log.turn? (opened.keeper.backend s.storage) s.env task s.storage).map
          fun (log, storage) => { s.setLog number log with storage }
  | some (.capturing capture intake onlyFirst token) =>
    if capture.ready (s.signals token) then
      match capture.run intake (s.signals token) with
      | .waiting capture => some (s.setJob place (.capturing capture intake onlyFirst token))
      | .finished result => some (s.setJob place (.ended (captured onlyFirst result)))
    else none
  | some (.waiting number wait) =>
    match s.boards[number]? with
    | none => none
    | some board =>
      (wait.answer? s.env board.published).map fun result =>
        (s.modifyBoard number .leave).setJob place (.ended (.ofUnit result))
  | some (.ended _) | none => none

/-- A hook that runs for a log returns, unless its backend holds it. -/
def hookReturns? (s : Session) (number : Nat) : Option Session :=
  match s.logs[number]? with
  | none => none
  | some opened =>
    if opened.keeper.isHolding s.storage then none
    else
      match opened.log.running with
      | [] => none
      | (task, _) :: _ =>
        (opened.log.hookReturns? (opened.keeper.backend s.storage) task s.storage).map
          fun (log, storage) => { s.setLog number log with storage }

/-- Every hook that can return does, and every task that can takes a turn. -/
def round (s : Session) : Option Session :=
  let after := (List.range s.logs.size).foldl
    (fun (s, moved) number =>
      match s.hookReturns? number with
      | some s => (s, true)
      | none => (s, moved))
    (s, false)
  let after := (List.range s.jobs.size).foldl
    (fun (s, moved) place =>
      match s.turn? place with
      | some s => (s, true)
      | none => (s, moved))
    after
  if after.2 then some after.1 else none

/-- More rounds than all tasks and hooks together have turns left. -/
def rounds (s : Session) : Nat :=
  s.logs.foldl (fun n opened => n + opened.log.running.length) (8 * (s.jobs.size + 1))

/-- At most so many rounds, until nobody can take a turn. -/
def settleWithin (s : Session) : Nat → Session
  | 0 => s
  | n + 1 =>
    match s.round with
    | some s => s.settleWithin n
    | none => s

/-- All tasks go on until each has ended or waits. -/
def settle (s : Session) : Session := s.settleWithin s.rounds

/-! ## Ending tasks -/

/-- The task is dropped where it awaits; one that has ended is not touched. -/
def abortJob (s : Session) (place : Nat) : Session :=
  match s.jobs[place]?.map Job.state with
  | some (.onLog number task _) =>
    match s.logs[number]? with
    | none => s
    | some opened => (s.setLog number (opened.log.abort task)).setJob place (.ended .aborted)
  | some (.capturing ..) => s.setJob place (.ended .aborted)
  | some (.waiting number _) => (s.modifyBoard number .leave).setJob place (.ended .aborted)
  | some (.ended _) | none => s

/-- All tasks are dropped and forgotten. -/
def abortAll (s : Session) : Session :=
  { (List.range s.jobs.size).foldl abortJob s with jobs := #[] }

/-- The tasks that have ended, with their answers, are taken out. -/
def collect (s : Session) : List (String × Answer) × Session :=
  let ended := s.jobs.toList.filterMap fun job =>
    match job.state with
    | .ended answer => some (job.name, answer)
    | _ => none
  let running := s.jobs.filter fun job =>
    match job.state with
    | .ended _ => false
    | _ => true
  (ended, { s with jobs := running })

/-- The time at which a task stops waiting by itself. -/
def deadline? (s : Session) (place : Nat) : Option Nat :=
  match s.jobs[place]?.map Job.state with
  | some (.onLog number task _) =>
    match s.logs[number]?.bind fun opened => opened.log.tasks[task]? with
    | some (.waiting wait) => some wait.deadline
    | _ => none
  | some (.waiting _ wait) => some wait.deadline
  | _ => none

/-- Changes the surroundings of all tasks. -/
def modifyEnv (s : Session) (f : Surroundings → Surroundings) : Session :=
  { s with env := f s.env }

end Session

end DurableLog
