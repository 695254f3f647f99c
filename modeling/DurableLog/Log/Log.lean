import DurableLog.Entry.Intake
import DurableLog.Log.Backend
import DurableLog.Log.Guard

/-!
# A log and its tasks

Every call on a log is a task, and tasks take turns. A turn goes from one await to the next:

* an append takes its entries in before it asks for the guard;
* a write waits for the guard, plans, and has its hook run. A hook of a blocking backend runs on a
  helper thread and takes the guard along, so the guard stays taken while the hook runs even if
  the task is dropped in the meantime; any other hook runs within the turn;
* when its hook has returned, a write publishes its change and gives the guard back;
* a range read waits for the guard, reads and gives it back;
* a wait for a commit looks at the board.

`Log.turn?` is one turn, `Log.hookReturns?` the end of a hook on its helper thread, and
`Log.abort` drops a task at its await. Whoever drives a log chooses the order; `Log.turn?` gives
nothing when the task has to wait, so a log at rest is one where nobody can take a turn.
-/

namespace DurableLog

/-- How a task ended. -/
inductive TaskResult
  | answered (result : Except Fault Reply)
  /-- It was dropped. -/
  | aborted
  /-- Its hook stopped in the middle of its own turn. -/
  | panicked

/-- Where a task awaits. -/
inductive Task
  | capturing (capture : Capture) (start : Option Nat) (token : Option String)
  /-- For the guard, alone. -/
  | writing (mutation : Mutation)
  /-- For its hook. -/
  | keeping (publication : Publication)
  /-- For its next turn; the hook has returned. -/
  | kept (publication : Publication) (result : HookResult)
  /-- For the guard, shared. -/
  | reading (first : Nat) (last : Option Nat)
  /-- For a commit. -/
  | waiting (wait : CommitWait)
  | finished (result : TaskResult)

/-- A call on a log. -/
inductive Call
  | append (sources : List Source) (start : Option Nat) (token : Option String)
  | commit (last : Option Nat)
  | setTerm (term : Term)
  | nextTerm
  | vote (candidate : Member)
  /-- The entries from `first` to `last`, or to the end. -/
  | read (first : Nat) (last : Option Nat)
  | waitForCommit (index : Nat) (time : Duration) (token : Option String)

/-- A log with its tasks, each known by its place. -/
structure Log where
  config : Config
  memory : Memory
  guard : Guard
  tasks : Array Task
  /-- The hooks that run on helper threads, each with the task that has it run. -/
  running : List (Nat × Hook)

namespace Log

/-- A log in a recovered state, without tasks. -/
def ofReplica (config : Config) (r : Replica) : Log := ⟨config, .ofReplica r, .free, #[], []⟩

/-- Payloads are taken in as the settings say. -/
def intake (log : Log) : Intake := .ofConfig log.config

def setTask (log : Log) (id : Nat) (task : Task) : Log :=
  { log with tasks := log.tasks.setIfInBounds id task }

/-- The task is over. -/
def finish (log : Log) (id : Nat) (result : TaskResult) : Log := log.setTask id (.finished result)

def request (log : Log) (id : Nat) (access : Access) : Log :=
  { log with guard := log.guard.request id access }

def release (log : Log) (id : Nat) : Log := { log with guard := log.guard.release id }

/-- Changes what the board says of those who wait. -/
def updateBoard (log : Log) (f : CommitBoard → CommitBoard) : Log :=
  { log with memory := { log.memory with board := f log.memory.board } }

/-- The task asks for the guard and waits for it. -/
def await (log : Log) (id : Nat) (access : Access) (task : Task) : Log :=
  (log.setTask id task).request id access

/-- The task gives the guard back and is over. -/
def conclude (log : Log) (id : Nat) (result : TaskResult) : Log :=
  (log.finish id result).release id

/-- The answer of a wait, once it is there. -/
def waitResult (result : Except Fault Unit) : TaskResult :=
  .answered (result.map fun _ => .done)

/-! ## Beginning -/

/-- A call is made: its task begins, up to its first await. Its number is the number of tasks
before. -/
def call (log : Log) (s : Surroundings) (c : Call) : Log :=
  let id := log.tasks.size
  let enter (task : Task) : Log := { log with tasks := log.tasks.push task }
  match c with
  | .append sources start token =>
    if sources.isEmpty then enter (.finished (.answered (.error .emptyBatch)))
    else enter (.capturing (.start sources) start token)
  | .commit last => (enter (.writing (.commit last))).request id .exclusive
  | .setTerm term => (enter (.writing (.setTerm term))).request id .exclusive
  | .nextTerm => (enter (.writing .nextTerm)).request id .exclusive
  | .vote candidate => (enter (.writing (.vote candidate))).request id .exclusive
  | .read first last => (enter (.reading first last)).request id .shared
  | .waitForCommit index time token =>
    if index = 0 then
      enter (.finished (.answered (.error (.indexOutOfRange 0 log.memory.snapshot.length))))
    else
      let wait := CommitWait.start s index time token
      match wait.firstAnswer? s log.memory.board.published with
      | some result => enter (.finished (waitResult result))
      | none => (enter (.waiting wait)).updateBoard .join

/-! ## Turns -/

/-- The turn of a write whose hook has returned. -/
def publish (log : Log) (id : Nat) (publication : Publication) (result : HookResult) : Log :=
  match publication.outcome log.memory result with
  | (reply, memory) => { log with memory }.conclude id (.answered reply)

/-- The turn of a write that has the guard. -/
def write {σ : Type} (b : Backend σ) (log : Log) (id : Nat) (mutation : Mutation) (s : σ) :
    Log × σ :=
  match log.memory.plan mutation with
  | .refuse fault => (log.conclude id (.answered (.error fault)), s)
  | .answer reply => (log.conclude id (.answered (.ok reply)), s)
  | .keep hook publication =>
    if b.blocking then
      -- the guard is not given back: it goes with the hook
      ({ log.setTask id (.keeping publication) with running := log.running ++ [(id, hook)] }, s)
    else
      match b.keep hook s with
      | (.panicked, s) => (log.conclude id .panicked, s)
      | (result, s) => (log.publish id publication result, s)

/-- The entries a range read finds. -/
def readRange (log : Log) (first : Nat) (last : Option Nat) : Except Fault (Array Entry) :=
  log.memory.snapshot.range first (last.getD log.memory.snapshot.lastIndex)

/-- One turn of a task, if it need not wait. -/
def turn? {σ : Type} (b : Backend σ) (env : Surroundings) (log : Log) (id : Nat) (s : σ) :
    Option (Log × σ) :=
  match log.tasks[id]? with
  | some (.capturing capture start token) =>
    let signals : Signals := ⟨env.isCancelled token, fun name => env.opened.contains name⟩
    if capture.ready signals then
      match capture.run log.intake signals with
      | .waiting capture => some (log.setTask id (.capturing capture start token), s)
      | .finished (.error fault) => some (log.finish id (.answered (.error fault)), s)
      | .finished (.ok entries) =>
        some (log.await id .exclusive (.writing (.append entries start)), s)
    else none
  | some (.writing mutation) =>
    if log.guard.holds id then some (log.write b id mutation s) else none
  | some (.kept publication result) => some (log.publish id publication result, s)
  | some (.reading first last) =>
    if log.guard.holds id then
      some (log.conclude id (.answered ((log.readRange first last).map .entries)), s)
    else none
  | some (.waiting wait) =>
    (wait.answer? env log.memory.board.published).map fun result =>
      ((log.updateBoard .leave).finish id (waitResult result), s)
  | some (.keeping _) | some (.finished _) | none => none

/-- The hook that the task has run on a helper thread returns. A task that was dropped leaves only
the guard behind; a hook that stopped in the middle gives the guard back itself. -/
def hookReturns? {σ : Type} (b : Backend σ) (log : Log) (id : Nat) (s : σ) : Option (Log × σ) :=
  match log.running.find? (·.1 = id) with
  | none => none
  | some (_, hook) =>
    match b.keep hook s with
    | (result, s) =>
      let log : Log := { log with running := log.running.filter (·.1 ≠ id) }
      let log : Log := if result = .panicked then log.release id else log
      match log.tasks[id]? with
      | some (.keeping publication) => some (log.setTask id (.kept publication result), s)
      -- nobody waits for the result any more: what was kept stays invisible
      | _ => some (log.release id, s)

/-- A task is dropped where it awaits. A hook that runs for it goes on. -/
def abort (log : Log) (id : Nat) : Log :=
  match log.tasks[id]? with
  | some (.capturing ..) => log.finish id .aborted
  | some (.writing _) | some (.kept ..) | some (.reading ..) => log.conclude id .aborted
  | some (.keeping _) => log.finish id .aborted
  | some (.waiting _) => (log.updateBoard .leave).finish id .aborted
  | some (.finished _) | none => log

end Log

end DurableLog
