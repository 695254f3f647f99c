import DurableLog.Proofs.Passage
import Mathlib.Data.List.Induction

/-!
# Waits for a commit

Many tasks wait for the commit index at a time, each with a target, a time and a token of its own,
while others commit, tokens are called off, time passes and tasks are dropped.

1. What a wait looks at decides whether it goes on (`CommitWait.answer?_eq_none`).
2. `World.Attends` lists what an event can do to the waits: nothing, or one begins, is answered or
   is dropped. `World.attends_step` says that nothing else can happen.
3. Every event keeps the board right: it shows the commit index and the number of waits
   (`World.Posted`).
4. One wait is followed from its call to its end (`World.waiting_run`), and only an event that wakes
   it gives it an answer (`World.wakes_run`).
5. `commit_waits_served` puts this together.

Timers count whole milliseconds. What they have of the time is rounded down
(`Surroundings.ticked`), so a wait may end late by less than a millisecond, and never early.
-/

namespace DurableLog

/-! ## Time -/

/-- The time as timers have it, which goes on by whole milliseconds. -/
def Surroundings.ticked (s : Surroundings) : Nat := s.now / 1000000 * 1000000

theorem Surroundings.ticked_le (s : Surroundings) : s.ticked ≤ s.now := Nat.div_mul_le_self ..

/-- A moment brought up to a whole millisecond has come when the timers have reached it. -/
theorem wholeMillis_le_iff {nanos : Nat} {s : Surroundings} :
    wholeMillis nanos ≤ s.now ↔ nanos ≤ s.ticked := by
  unfold wholeMillis Surroundings.ticked
  omega

/-- At a whole millisecond the timers are not behind. -/
theorem Surroundings.ticked_lt_iff {s : Surroundings} {nanos : Nat} (whole : 1000000 ∣ nanos) :
    s.ticked < nanos ↔ s.now < nanos := by
  unfold ticked
  omega

/-! ## What a wait looks at -/

namespace CommitWait

variable {wait : CommitWait} {s : Surroundings} {published : Nat}

theorem answer?_eq_none :
    wait.answer? s published = none ↔
      published < wait.target ∧ s.isCancelled wait.token = false ∧ ¬ wait.Expired s := by
  unfold answer?
  by_cases canceled : s.isCancelled wait.token = true
  · simp [canceled]
  · by_cases reached : wait.target ≤ published
    · simp [canceled, reached, Nat.not_lt.mpr reached]
    · by_cases expired : wait.Expired s
      · simp [canceled, reached, expired]
      · simp [canceled, reached, expired, Nat.lt_of_not_le reached]

theorem answer?_of_firstAnswer? (h : wait.firstAnswer? s published = none) :
    wait.answer? s published = none := by
  unfold firstAnswer? at h
  split at h
  · cases h
  · exact h

/-- The time of a wait has ended once the timers have reached its end. -/
theorem expired_start_iff {begun : Surroundings} {index : Nat} {time : Duration}
    {token : Option String} :
    (CommitWait.start begun index time token).Expired s ↔
      time.toNanos = 0 ∨ begun.now + time.toNanos ≤ s.ticked := by
  unfold Expired start
  rw [wholeMillis_le_iff]

end CommitWait

/-! ## The waits of a log -/

/-- The wait that the task awaits. -/
def Task.wait? : Task → Option CommitWait
  | .waiting wait => some wait
  | _ => none

namespace Log

/-- How many tasks wait for a commit. -/
def waiters (log : Log) : Nat := log.tasks.countP fun task => task.wait?.isSome

/-- The wait that the task with this number awaits. -/
def waitAt? (log : Log) (id : Nat) : Option CommitWait := log.tasks[id]?.bind Task.wait?

/-- No wait begins or ends. -/
structure Undisturbed (log log' : Log) : Prop where
  waits : ∀ id, log'.waitAt? id = log.waitAt? id
  waiters : log'.waiters = log.waiters
  waiting : log'.memory.board.waiting = log.memory.board.waiting

variable {log log' : Log} {id : Nat}

theorem waitAt?_eq_some {wait : CommitWait} :
    log.waitAt? id = some wait ↔ log.tasks[id]? = some (.waiting wait) := by
  unfold waitAt?
  cases log.tasks[id]? with
  | none => simp
  | some task => cases task <;> simp [Task.wait?]

theorem waiters_push {task : Task} (tasks : log'.tasks = log.tasks.push task) :
    log'.waiters = log.waiters + if task.wait?.isSome then 1 else 0 := by
  rw [waiters, tasks, Array.countP_push, waiters]

theorem waiters_set {old task : Task} (found : log.tasks[id]? = some old)
    (tasks : log'.tasks = log.tasks.setIfInBounds id task) :
    log'.waiters = (log.waiters - if old.wait?.isSome then 1 else 0) +
      if task.wait?.isSome then 1 else 0 := by
  obtain ⟨lt, rfl⟩ := Array.getElem?_eq_some_iff.mp found
  rw [waiters, tasks, Array.setIfInBounds_def, dif_pos lt, Array.countP_set, waiters]

namespace Undisturbed

theorem refl (log : Log) : log.Undisturbed log := ⟨fun _ => rfl, rfl, rfl⟩

/-- A task begins that does not wait. -/
theorem of_push {task : Task} (tasks : log'.tasks = log.tasks.push task)
    (idle : task.wait? = none)
    (waiting : log'.memory.board.waiting = log.memory.board.waiting) : log.Undisturbed log' where
  waits i := by
    unfold waitAt?
    by_cases new : i = log.tasks.size
    · subst new
      simp [tasks, idle]
    · simp [tasks, Array.getElem?_push, new]
  waiters := by simp [waiters_push tasks, idle]
  waiting := waiting

/-- A task that does not wait goes on without waiting. -/
theorem of_set {old task : Task} (found : log.tasks[id]? = some old) (before : old.wait? = none)
    (tasks : log'.tasks = log.tasks.setIfInBounds id task) (after : task.wait? = none)
    (waiting : log'.memory.board.waiting = log.memory.board.waiting) : log.Undisturbed log' where
  waits i := by
    unfold waitAt?
    rw [tasks]
    by_cases mine : i = id
    · subst mine
      obtain ⟨lt, -⟩ := Array.getElem?_eq_some_iff.mp found
      rw [Array.getElem?_setIfInBounds_self_of_lt lt, found]
      simp [before, after]
    · rw [Array.getElem?_setIfInBounds_ne (Ne.symm mine)]
  waiters := by simp [waiters_set found tasks, before, after]
  waiting := waiting

end Undisturbed

/-! ## Turns that leave the waits alone -/

theorem waiting_outcome (m : Memory) (p : Publication) (result : HookResult) :
    (p.outcome m result).2.board.waiting = m.board.waiting := by
  cases result with
  | kept => cases p <;> rfl
  | failed fault => rfl
  | panicked => rfl

theorem undisturbed_write {σ : Type} (b : Backend σ) {mutation : Mutation} (store : σ)
    (found : log.tasks[id]? = some (.writing mutation)) :
    log.Undisturbed (log.write b id mutation store).1 := by
  unfold write
  split
  · exact .of_set found rfl rfl rfl rfl
  · exact .of_set found rfl rfl rfl rfl
  · split
    · exact .of_set found rfl rfl rfl rfl
    · split
      · exact .of_set found rfl rfl rfl rfl
      · exact .of_set found rfl rfl rfl (waiting_outcome ..)

theorem undisturbed_hookReturns {σ : Type} {b : Backend σ} {store : σ} {moved : Log × σ}
    (returned : log.hookReturns? b id store = some moved) : log.Undisturbed moved.1 := by
  obtain ⟨memory, -, same | ⟨p, result, keeping, set⟩⟩ := tasks_hookReturns returned
  · exact ⟨fun _ => by rw [waitAt?, same, waitAt?], by rw [waiters, same, waiters], by rw [memory]⟩
  · exact .of_set keeping rfl set rfl (by rw [memory])

theorem undisturbed_abort (idle : log.waitAt? id = none) : log.Undisturbed (log.abort id) := by
  unfold abort
  split
  · next found => exact .of_set found rfl rfl rfl rfl
  · next found => exact .of_set found rfl rfl rfl rfl
  · next found => exact .of_set found rfl rfl rfl rfl
  · next found => exact .of_set found rfl rfl rfl rfl
  · next found => exact .of_set found rfl rfl rfl rfl
  · next found =>
    rw [waitAt?_eq_some.mpr found] at idle
    cases idle
  · exact .refl log
  · exact .refl log

end Log

namespace World

variable {σ : Type} {b : Backend σ} {w : World σ} {id : Nat} {wait : CommitWait}

/-! ## Every event -/

/-- How the wait of a task ends in an event. -/
inductive Leaves (w : World σ) (id : Nat) (wait : CommitWait) : Event → TaskResult → Prop
  | answered {result : Except Fault Unit}
      (answer : wait.answer? w.env w.log.memory.board.published = some result) :
      Leaves w id wait (.turn id) (Log.waitResult result)
  | dropped : Leaves w id wait (.abort id) .aborted

/-- What an event does to the waits. -/
inductive Attends (w : World σ) : Event → Log → Prop
  /-- No wait begins or ends. -/
  | still {e : Event} {log : Log} (undisturbed : w.log.Undisturbed log) : Attends w e log
  | joins {index : Nat} {time : Duration} {token : Option String} (real : index ≠ 0)
      (unanswered : (CommitWait.start w.env index time token).firstAnswer? w.env
        w.log.memory.board.published = none) :
      Attends w (.call (.waitForCommit index time token))
        (({ w.log with
          tasks := w.log.tasks.push (.waiting (.start w.env index time token)) } : Log).updateBoard
            .join)
  | leaves {e : Event} {id : Nat} {wait : CommitWait} {result : TaskResult}
      (waits : w.log.tasks[id]? = some (.waiting wait)) (leaves : w.Leaves id wait e result) :
      Attends w e ((w.log.updateBoard .leave).finish id result)

theorem attends_call (c : Call) : w.Attends (.call c) (w.log.call w.env c) := by
  have entered (task : Task) (idle : task.wait? = none) {log : Log}
      (tasks : log.tasks = w.log.tasks.push task)
      (memory : log.memory = w.log.memory) : w.Attends (.call c) log :=
    .still (.of_push tasks idle (by rw [memory]))
  cases c with
  | append sources start token =>
    simp only [Log.call]
    split
    · exact entered _ rfl rfl rfl
    · exact entered _ rfl rfl rfl
  | commit last => exact entered _ rfl rfl rfl
  | setTerm term => exact entered _ rfl rfl rfl
  | nextTerm => exact entered _ rfl rfl rfl
  | vote candidate => exact entered _ rfl rfl rfl
  | read first last => exact entered _ rfl rfl rfl
  | waitForCommit index time token =>
    simp only [Log.call]
    split
    · exact entered _ rfl rfl rfl
    · next real =>
      split
      · exact entered _ rfl rfl rfl
      · next unanswered => exact .joins real unanswered

theorem attends_turn {next : Log × σ}
    (turned : w.log.turn? b w.env id w.store = some next) : w.Attends (.turn id) next.1 := by
  cases Log.turned_of_turn turned with
  | captures found => exact .still (.of_set found rfl rfl rfl rfl)
  | fails found => exact .still (.of_set found rfl rfl rfl rfl)
  | asks found => exact .still (.of_set found rfl rfl rfl rfl)
  | writes found holds => exact .still (Log.undisturbed_write b w.store found)
  | publishes found => exact .still (.of_set found rfl rfl rfl (Log.waiting_outcome ..))
  | reads found holds => exact .still (.of_set found rfl rfl rfl rfl)
  | answers found answer => exact .leaves found (.answered answer)

/-- Nothing else can happen to the waits. -/
theorem attends_step (b : Backend σ) (w : World σ) (e : Event) :
    w.Attends e (w.step b e).log := by
  cases e with
  | call c => exact attends_call c
  | turn id =>
    cases turned : w.log.turn? b w.env id w.store with
    | none =>
      simp only [step, turned, moved]
      exact .still (.refl _)
    | some next =>
      simp only [step, turned, moved]
      exact attends_turn turned
  | hookReturns id =>
    cases returned : w.log.hookReturns? b id w.store with
    | none =>
      simp only [step, returned, moved]
      exact .still (.refl _)
    | some next =>
      simp only [step, returned, moved]
      exact .still (Log.undisturbed_hookReturns returned)
  | abort id =>
    cases waits : w.log.waitAt? id with
    | none => exact .still (Log.undisturbed_abort waits)
    | some wait =>
      have found := Log.waitAt?_eq_some.mp waits
      have stepped : (w.step b (.abort id)).log =
          (w.log.updateBoard .leave).finish id .aborted := by
        simp only [step, Log.abort, found]
      rw [stepped]
      exact .leaves found .dropped
  | cancel token => exact .still (.refl _)
  | openGate name => exact .still (.refl _)
  | pass nanos => exact .still (.refl _)

/-! ## The board -/

/-- The board shows the commit index and how many tasks wait, and the guard is in order. -/
structure Posted (w : World σ) : Prop where
  standing : ∃ s, w.log.At s
  published : w.log.memory.board.published = w.log.memory.commitIndex
  waiting : w.log.memory.board.waiting = w.log.waiters

end World

/-- What is published with a commit is its index. -/
theorem Publication.outcome_published {m : Memory} (h : m.board.published = m.commitIndex)
    (p : Publication) (result : HookResult) :
    (p.outcome m result).2.board.published = (p.outcome m result).2.commitIndex := by
  cases result with
  | failed fault => exact h
  | panicked => exact h
  | kept =>
    cases p with
    | commit first last => rfl
    | append base start entries => exact h
    | setTerm term => exact h
    | nextTerm => exact h
    | vote candidate => exact h

namespace World

variable {σ : Type} {b : Backend σ} {w : World σ} {id : Nat} {wait : CommitWait}

theorem Passage.published {w' : World σ} {e : Event} {s s' : Stage}
    (passage : Passage b w e w' s s')
    (h : w.log.memory.board.published = w.log.memory.commitIndex) :
    w'.log.memory.board.published = w'.log.memory.commitIndex := by
  cases passage with
  | still _ _ memory => rw [memory.published, memory.commitIndex, h]
  | begins _ _ _ _ memory => rw [memory, h]
  | direct _ _ _ _ memory => rw [memory, Publication.outcome_published h]
  | returns _ _ _ memory _ => rw [memory, h]
  | lapses _ _ _ memory _ => rw [memory, h]
  | publishes _ _ _ memory _ => rw [memory, Publication.outcome_published h]
  | abandons _ _ _ memory _ => rw [memory, h]

/-- A task that ends its wait leaves the number right. -/
theorem waiters_leave {log : Log} (waits : log.tasks[id]? = some (.waiting wait))
    (result : TaskResult) :
    ((log.updateBoard .leave).finish id result).waiters = log.waiters - 1 := by
  have tasks : ((log.updateBoard .leave).finish id result).tasks =
    log.tasks.setIfInBounds id (.finished result) := rfl
  rw [Log.waiters_set waits tasks]
  rfl

theorem Attends.waiting {e : Event} {log : Log} (attends : w.Attends e log)
    (h : w.log.memory.board.waiting = w.log.waiters) :
    log.memory.board.waiting = log.waiters := by
  cases attends with
  | still undisturbed => rw [undisturbed.waiting, undisturbed.waiters, h]
  | joins real unanswered =>
    rw [Log.waiters_push rfl]
    simp [Log.updateBoard, CommitBoard.join, h, Task.wait?]
  | leaves waits leaves =>
    rw [waiters_leave waits]
    exact congrArg (· - 1) h

theorem posted_start (config : Config) (r : Replica) (store : σ) :
    (World.start config r store).Posted :=
  ⟨⟨.idle, Log.at_ofReplica config r⟩, rfl, rfl⟩

theorem Posted.step (h : w.Posted) (e : Event) : (w.step b e).Posted := by
  obtain ⟨s, standing⟩ := h.standing
  obtain ⟨s', standing', passage⟩ := passage_step (b := b) standing e
  exact ⟨⟨s', standing'⟩, passage.published h.published, (attends_step b w e).waiting h.waiting⟩

theorem Posted.run (h : w.Posted) (events : List Event) : (w.run b events).Posted :=
  run_induction (P := Posted) (fun _ e h => h.step e) h events

/-! ## One wait -/

/-- A wait stays or ends. -/
theorem waiting_step (b : Backend σ) (waits : w.log.tasks[id]? = some (.waiting wait)) (e : Event) :
    (w.step b e).log.tasks[id]? = some (.waiting wait) ∨
      ∃ result, w.Leaves id wait e result ∧
        (w.step b e).log.tasks[id]? = some (.finished result) := by
  have attends := attends_step b w e
  generalize (w.step b e).log = log at attends ⊢
  cases attends with
  | still undisturbed =>
    left
    rw [← Log.waitAt?_eq_some, undisturbed.waits, Log.waitAt?_eq_some, waits]
  | joins real unanswered =>
    obtain ⟨lt, -⟩ := Array.getElem?_eq_some_iff.mp waits
    exact .inl (((w.log.turns_enter _).others id (Nat.ne_of_lt lt)).trans waits)
  | @leaves _ i other result found leaves =>
    by_cases mine : id = i
    · subst mine
      rw [waits] at found
      cases found
      exact .inr ⟨result, leaves, (Log.turns_finish waits result).self⟩
    · exact .inl (((Log.turns_finish found result).others id mine).trans waits)

/-- A wait that is there has been there before, or begins. -/
theorem waiting_before {e : Event}
    (waits : (w.step b e).log.tasks[id]? = some (.waiting wait)) :
    w.log.tasks[id]? = some (.waiting wait) ∨
      ∃ index time token, e = .call (.waitForCommit index time token) ∧ index ≠ 0 ∧
        w.log.tasks.size = id := by
  have attends := attends_step b w e
  generalize (w.step b e).log = log at attends waits
  cases attends with
  | still undisturbed =>
    left
    rw [← Log.waitAt?_eq_some, ← undisturbed.waits, Log.waitAt?_eq_some, waits]
  | @joins index time token real unanswered =>
    by_cases new : id = w.log.tasks.size
    · exact .inr ⟨index, time, token, rfl, real, new.symm⟩
    · exact .inl (((w.log.turns_enter _).others id new).symm.trans waits)
  | @leaves _ i other result found leaves =>
    have turns := Log.turns_finish found result
    by_cases mine : id = i
    · subst mine
      cases turns.self.symm.trans waits
    · exact .inl ((turns.others id mine).symm.trans waits)

/-- A wait is under way to the end of a run, or has ended in one of its events. -/
theorem waiting_run (b : Backend σ) (waits : w.log.tasks[id]? = some (.waiting wait))
    (events : List Event) :
    (w.run b events).log.tasks[id]? = some (.waiting wait) ∨
      ∃ mid e later result, events = mid ++ e :: later ∧
        (w.run b mid).log.tasks[id]? = some (.waiting wait) ∧
        (w.run b mid).Leaves id wait e result ∧
        (w.run b (mid ++ [e])).log.tasks[id]? = some (.finished result) := by
  induction events generalizing w with
  | nil => exact .inl waits
  | cons e rest ih =>
    rcases waiting_step b waits e with stays | ⟨result, leaves, ended⟩
    · rcases ih stays with still | ⟨mid, last, later, result, rfl, found, leaves, ended⟩
      · exact .inl still
      · exact .inr ⟨e :: mid, last, later, result, rfl, found, leaves, ended⟩
    · exact .inr ⟨[], e, rest, result, rfl, waits, leaves, ended⟩

theorem finished_of_append {mid later : List Event} {e : Event} {result : TaskResult}
    (ended : (w.run b (mid ++ [e])).log.tasks[id]? = some (.finished result)) :
    (w.run b (mid ++ e :: later)).log.tasks[id]? = some (.finished result) := by
  rw [List.append_cons, run_append]
  exact finished_run ended

/-! ## Waking -/

/-- The event wakes the wait: it changes what is published, calls the token off, or brings the end
of the time. -/
inductive Wakes (b : Backend σ) (w : World σ) (wait : CommitWait) : Event → Prop
  | commits {e : Event}
      (changes : (w.step b e).log.memory.board.published ≠ w.log.memory.board.published) :
      Wakes b w wait e
  | cancels {name : String} (mine : wait.token = some name) : Wakes b w wait (.cancel name)
  | expires {nanos : Nat} (before : w.env.now < wait.deadline)
      (after : wait.deadline ≤ w.env.now + nanos) : Wakes b w wait (.pass nanos)

theorem isCancelled_cancel {s : Surroundings} {name : String} {token : Option String}
    (live : s.isCancelled token = false) (canceled : (s.cancel name).isCancelled token = true) :
    token = some name := by
  cases token with
  | none => cases canceled
  | some mine =>
    simp only [Surroundings.isCancelled, Surroundings.cancel, List.contains_cons,
      Bool.or_eq_true, beq_iff_eq] at live canceled
    rcases canceled with rfl | canceled
    · rfl
    · rw [live] at canceled
      cases canceled

@[simp] theorem env_moved (w : World σ) (change : Option (Log × σ)) :
    (w.moved change).env = w.env := by
  cases change <;> rfl

/-- Nothing but an event that wakes a wait gives it an answer. -/
theorem wakes_of_answer {e : Event}
    (before : wait.answer? w.env w.log.memory.board.published = none)
    (after : wait.answer? (w.step b e).env (w.step b e).log.memory.board.published ≠ none) :
    w.Wakes b wait e := by
  by_cases changes :
      (w.step b e).log.memory.board.published = w.log.memory.board.published
  · obtain ⟨uncommitted, live, early⟩ := CommitWait.answer?_eq_none.mp before
    rw [changes, Ne, CommitWait.answer?_eq_none] at after
    have looks (same : (w.step b e).env = w.env) : w.Wakes b wait e :=
      absurd ⟨uncommitted, by rw [same, live], by rwa [same]⟩ after
    cases e with
    | call c => exact looks rfl
    | turn id => exact looks (by simp [step])
    | hookReturns id => exact looks (by simp [step])
    | abort id => exact looks rfl
    | openGate name => exact absurd ⟨uncommitted, live, early⟩ after
    | cancel name =>
      by_cases canceled : (w.env.cancel name).isCancelled wait.token = true
      · exact .cancels (isCancelled_cancel live canceled)
      · exact absurd ⟨uncommitted, by simpa [step] using canceled, early⟩ after
    | pass nanos =>
      by_cases expired : wait.Expired (w.env.passTo (w.env.now + nanos))
      · simp only [CommitWait.Expired, Surroundings.passTo] at early expired
        exact .expires (by omega) (by omega)
      · exact absurd ⟨uncommitted, live, expired⟩ after
  · exact .commits changes

theorem turn?_eq_none_of_waiting (waits : w.log.tasks[id]? = some (.waiting wait)) :
    w.log.turn? b w.env id w.store = none ↔
      wait.answer? w.env w.log.memory.board.published = none := by
  simp [Log.turn?, waits]

theorem turn?_eq_none_of_finished {result : TaskResult}
    (ended : w.log.tasks[id]? = some (.finished result)) :
    w.log.turn? b w.env id w.store = none := by
  simp [Log.turn?, ended]

/-- A wait that could not go on and then can has been woken in between. -/
theorem wakes_run (waits : w.log.tasks[id]? = some (.waiting wait))
    (stuck : w.log.turn? b w.env id w.store = none) {events : List Event}
    (goes : (w.run b events).log.turn? b (w.run b events).env id (w.run b events).store ≠ none) :
    ∃ mid e later, events = mid ++ e :: later ∧ (w.run b mid).Wakes b wait e := by
  induction events generalizing w with
  | nil => exact absurd stuck goes
  | cons e rest ih =>
    rcases waiting_step b waits e with stays | ⟨result, leaves, ended⟩
    · by_cases next : (w.step b e).log.turn? b (w.step b e).env id (w.step b e).store = none
      · obtain ⟨mid, last, later, rfl, wakes⟩ := ih stays next goes
        exact ⟨e :: mid, last, later, rfl, wakes⟩
      · rw [turn?_eq_none_of_waiting stays] at next
        exact ⟨[], e, rest, rfl, wakes_of_answer ((turn?_eq_none_of_waiting waits).mp stuck) next⟩
    · exact absurd (turn?_eq_none_of_finished (finished_run ended)) goes

/-! ## Answers and times -/

/-- A wait that began in these surroundings has reason to go on waiting: its index is not committed,
its token is not called off and its time is not over. -/
structure Pending (w : World σ) (begun : Surroundings) (index : Nat) (time : Duration)
    (token : Option String) : Prop where
  uncommitted : w.log.memory.commitIndex < index
  live : w.env.isCancelled token = false
  timed : 0 < time.toNanos
  early : w.env.ticked < begun.now + time.toNanos
  /-- If the end is at a whole millisecond, it lies ahead without any rounding. -/
  ahead : 1000000 ∣ begun.now + time.toNanos → w.env.now < begun.now + time.toNanos

/-- A wait that began in these surroundings is rightly told this. -/
inductive Tells (w : World σ) (begun : Surroundings) (index : Nat) (time : Duration)
    (token : Option String) : TaskResult → Prop
  | done (committed : index ≤ w.log.memory.commitIndex) :
      Tells w begun index time token (.answered (.ok .done))
  | timeout (uncommitted : w.log.memory.commitIndex < index)
      (live : w.env.isCancelled token = false) (late : begun.now + time.toNanos ≤ w.env.now) :
      Tells w begun index time token (.answered (.error (.timeout index time)))
  | canceled (off : w.env.isCancelled token = true) :
      Tells w begun index time token (.answered (.error .canceled))

variable {begun : Surroundings} {index : Nat} {time : Duration} {token : Option String}

theorem pending_iff (posted : w.Posted) :
    (CommitWait.start begun index time token).answer? w.env w.log.memory.board.published = none ↔
      w.Pending begun index time token := by
  rw [CommitWait.answer?_eq_none, CommitWait.expired_start_iff, posted.published, not_or,
    Nat.not_le]
  constructor
  · rintro ⟨uncommitted, live, timed, early⟩
    exact ⟨uncommitted, live, Nat.pos_of_ne_zero timed, early,
      fun whole => (Surroundings.ticked_lt_iff whole).mp early⟩
  · rintro ⟨uncommitted, live, timed, early, -⟩
    exact ⟨uncommitted, live, Nat.ne_of_gt timed, early⟩

theorem tells_of_answer (posted : w.Posted) (past : begun.now ≤ w.env.now)
    {result : Except Fault Unit}
    (answer : (CommitWait.start begun index time token).answer? w.env
      w.log.memory.board.published = some result) :
    w.Tells begun index time token (Log.waitResult result) := by
  rw [posted.published] at answer
  unfold CommitWait.answer? at answer
  split at answer
  · next off =>
    cases answer
    exact .canceled off
  · next on =>
    split at answer
    · next committed =>
      cases answer
      exact .done committed
    · next uncommitted =>
      split at answer
      · next expired =>
        cases answer
        have late : begun.now + time.toNanos ≤ w.env.now := by
          rcases CommitWait.expired_start_iff.mp expired with zero | late
          · omega
          · exact Nat.le_trans late w.env.ticked_le
        exact .timeout (Nat.lt_of_not_le uncommitted) (Bool.eq_false_iff.mpr on) late
      · cases answer

/-- A call that is answered at once is rightly answered. -/
theorem tells_of_firstAnswer (posted : w.Posted) {result : Except Fault Unit}
    (answer : (CommitWait.start w.env index time token).firstAnswer? w.env
      w.log.memory.board.published = some result) :
    w.Tells w.env index time token (Log.waitResult result) := by
  unfold CommitWait.firstAnswer? at answer
  split at answer
  · next committed =>
    cases answer
    rw [posted.published] at committed
    exact .done committed
  · exact tells_of_answer posted (Nat.le_refl _) answer

/-- Time does not go back. -/
theorem now_step (b : Backend σ) (w : World σ) (e : Event) : w.env.now ≤ (w.step b e).env.now := by
  cases e with
  | call c => exact Nat.le_refl _
  | turn id => simp [step]
  | hookReturns id => simp [step]
  | abort id => exact Nat.le_refl _
  | cancel token => exact Nat.le_refl _
  | openGate name => exact Nat.le_refl _
  | pass nanos => exact Nat.le_max_left ..

theorem now_run (b : Backend σ) (w : World σ) (events : List Event) :
    w.env.now ≤ (w.run b events).env.now :=
  run_induction (P := fun w' => w.env.now ≤ w'.env.now)
    (fun w' e h => Nat.le_trans h (now_step b w' e)) (Nat.le_refl _) events

/-! ## From the call to the end -/

/-- What a task has come to that was called in `w` to wait for a commit, after more events. -/
inductive Fate (b : Backend σ) (w : World σ) (index : Nat) (time : Duration)
    (token : Option String) (events : List Event) : Option Task → Prop
  /-- It waits, and is at a standstill exactly as long as it has reason to. -/
  | waits
      (pending : (w.run b events).log.turn? b (w.run b events).env w.log.tasks.size
          (w.run b events).store = none ↔
        (w.run b events).Pending w.env index time token) :
      Fate b w index time token events (some (.waiting (.start w.env index time token)))
  /-- It has ended in the event `e`, and rightly so at this moment. -/
  | told {mid later : List Event} {e : Event} {result : TaskResult}
      (split : events = mid ++ e :: later)
      (before : ∀ r, (w.run b mid).log.tasks[w.log.tasks.size]? ≠ some (.finished r))
      (after : (w.run b (mid ++ [e])).log.tasks[w.log.tasks.size]? = some (.finished result))
      (tells : (w.run b mid).Tells w.env index time token result) :
      Fate b w index time token events (some (.finished result))
  | dropped (drop : .abort w.log.tasks.size ∈ events) :
      Fate b w index time token events (some (.finished .aborted))

/-- A call to wait is answered at once or joins the waits. -/
theorem step_waitForCommit (b : Backend σ) (w : World σ) (real : index ≠ 0) (time : Duration)
    (token : Option String) :
    let wait := CommitWait.start w.env index time token
    (w.step b (.call (.waitForCommit index time token))).log.tasks[w.log.tasks.size]? =
      some (match wait.firstAnswer? w.env w.log.memory.board.published with
        | some result => .finished (Log.waitResult result)
        | none => .waiting wait) := by
  intro wait
  simp only [step, Log.call, if_neg real]
  split
  · next result answer =>
    rw [show wait.firstAnswer? _ _ = some result from answer]
    exact Array.getElem?_push_size
  · next unanswered =>
    rw [show wait.firstAnswer? _ _ = none from unanswered]
    exact Array.getElem?_push_size

theorem fate_of_call (posted : w.Posted) (real : index ≠ 0) (time : Duration)
    (token : Option String) (rest : List Event) :
    let events := .call (.waitForCommit index time token) :: rest
    w.Fate b index time token events (w.run b events).log.tasks[w.log.tasks.size]? := by
  intro events
  have called := step_waitForCommit b w real time token
  cases answer : (CommitWait.start w.env index time token).firstAnswer? w.env
      w.log.memory.board.published with
  | some result =>
    simp only [answer] at called
    have ended : ((w.step b (.call (.waitForCommit index time token))).run b rest).log.tasks[
        w.log.tasks.size]? = some (.finished (Log.waitResult result)) := finished_run called
    rw [show w.run b events = _ from rfl, run_cons, ended]
    have split : events = [] ++ .call (.waitForCommit index time token) :: rest := rfl
    exact .told split (by simp) called (tells_of_firstAnswer posted answer)
  | none =>
    simp only [answer] at called
    rcases waiting_run b called rest with
      still | ⟨mid, e, later, result, rfl, found, leaves, ended⟩
    · rw [show (w.run b events).log.tasks[w.log.tasks.size]? = _ from still]
      exact .waits ((turn?_eq_none_of_waiting still).trans (pending_iff (posted.run events)))
    · rw [show w.run b events = _ from rfl, run_cons, finished_of_append ended]
      cases leaves with
      | dropped => exact .dropped (by simp [events])
      | answered answer =>
        have split : events =
          (.call (.waitForCommit index time token) :: mid) ++ .turn w.log.tasks.size :: later := rfl
        refine .told split ?_ ended (tells_of_answer (posted.run _) (now_run b w _) answer)
        intro r
        rw [run_cons, found]
        simp

/-- Whoever begins to wait has just looked, and could not go on. -/
theorem stuck_of_call (b : Backend σ) (posted : w.Posted) (real : index ≠ 0) (time : Duration)
    (token : Option String) :
    let w' := w.step b (.call (.waitForCommit index time token))
    w'.log.turn? b w'.env w.log.tasks.size w'.store = none := by
  intro w'
  obtain ⟨s, standing⟩ := posted.standing
  have alike : w.log.memory.Alike w'.log.memory := (standing.call w.env _).2
  have called := step_waitForCommit b w real time token
  cases answer : (CommitWait.start w.env index time token).firstAnswer? w.env
      w.log.memory.board.published with
  | some result =>
    simp only [answer] at called
    exact turn?_eq_none_of_finished called
  | none =>
    simp only [answer] at called
    rw [turn?_eq_none_of_waiting called, alike.published]
    exact CommitWait.answer?_of_firstAnswer? answer

/-- A wait for what is committed is done at once. -/
theorem waitForCommit_of_committed (b : Backend σ) (posted : w.Posted) (real : index ≠ 0)
    (committed : index ≤ w.log.memory.commitIndex) (time : Duration) (token : Option String) :
    (w.step b (.call (.waitForCommit index time token))).log.tasks[w.log.tasks.size]? =
      some (.finished (.answered (.ok .done))) := by
  have answer : (CommitWait.start w.env index time token).firstAnswer? w.env
      w.log.memory.board.published = some (.ok ()) := by
    rw [CommitWait.firstAnswer?, posted.published]
    exact if_pos committed
  rw [step_waitForCommit b w real, answer]
  rfl

/-- Every wait has been called for. -/
theorem called_of_waiting (config : Config) (r : Replica) (store : σ) {events : List Event}
    (waits : ((World.start config r store).run b events).log.tasks[id]? = some (.waiting wait)) :
    ∃ first index time token rest,
      events = first ++ .call (.waitForCommit index time token) :: rest ∧ index ≠ 0 ∧
        ((World.start config r store).run b first).log.tasks.size = id := by
  induction events using List.reverseRecOn with
  | nil => simp [World.start, Log.ofReplica] at waits
  | append_singleton before e ih =>
    rw [run_append] at waits
    rcases waiting_before waits with earlier | ⟨index, time, token, rfl, real, size⟩
    · obtain ⟨first, index, time, token, rest, rfl, real, size⟩ := ih earlier
      exact ⟨first, index, time, token, rest ++ [e], by simp, real, size⟩
    · exact ⟨before, index, time, token, [], rfl, real, size⟩

/-! ## The main result -/

/-- The waits of a run are served. A task is at a standstill if it cannot take a turn. -/
structure WaitsServed (b : Backend σ) (w : World σ) (events : List Event) : Prop where
  published : (w.run b events).log.memory.board.published = (w.run b events).log.memory.commitIndex
  counted : (w.run b events).log.memory.board.waiting = (w.run b events).log.waiters
  /-- Those that wait have called. -/
  called : ∀ (id : Nat) wait, (w.run b events).log.tasks[id]? = some (.waiting wait) →
    ∃ first index time token rest,
      events = first ++ .call (.waitForCommit index time token) :: rest ∧ index ≠ 0 ∧
        (w.run b first).log.tasks.size = id
  /-- Those that have called wait with reason, have been told rightly or have been dropped. -/
  fates : ∀ first index time token rest, index ≠ 0 →
    events = first ++ .call (.waitForCommit index time token) :: rest →
      (w.run b first).Fate b index time token (.call (.waitForCommit index time token) :: rest)
        (w.run b events).log.tasks[(w.run b first).log.tasks.size]?
  /-- Who calls for what is committed is told at once, whatever the time and the token. -/
  at_once : ∀ first index time token, index ≠ 0 →
    events = first ++ [.call (.waitForCommit index time token)] →
      index ≤ (w.run b first).log.memory.commitIndex →
        (w.run b events).log.tasks[(w.run b first).log.tasks.size]? =
          some (.finished (.answered (.ok .done)))
  /-- Who has just called is at a standstill. -/
  looked : ∀ first index time token, index ≠ 0 →
    events = first ++ [.call (.waitForCommit index time token)] →
      (w.run b events).log.turn? b (w.run b events).env (w.run b first).log.tasks.size
        (w.run b events).store = none
  /-- Who was at a standstill and can go on has been woken by an event in between. -/
  woken : ∀ first rest (id : Nat) wait, events = first ++ rest →
    (w.run b first).log.tasks[id]? = some (.waiting wait) →
      (w.run b first).log.turn? b (w.run b first).env id (w.run b first).store = none →
        (w.run b events).log.turn? b (w.run b events).env id (w.run b events).store ≠ none →
          ∃ mid e later, rest = mid ++ e :: later ∧ (w.run b (first ++ mid)).Wakes b wait e

end World

/-- **Waits for a commit lose no wake-up and get no wrong answer**, however calls, commits,
call-offs, drops and time are ordered. -/
theorem commit_waits_served {σ : Type} (b : Backend σ) (config : Config) (r : Replica) (store : σ)
    (events : List Event) : (World.start config r store).WaitsServed b events := by
  have posted (events : List Event) : ((World.start config r store).run b events).Posted :=
    (World.posted_start config r store).run events
  refine ⟨(posted events).published, (posted events).waiting,
    fun id wait => World.called_of_waiting config r store, ?fates, ?at_once, ?looked, ?woken⟩
  case fates =>
    rintro first index time token rest real rfl
    rw [World.run_append]
    exact World.fate_of_call (posted first) real time token rest
  case at_once =>
    rintro first index time token real rfl committed
    rw [World.run_append]
    exact World.waitForCommit_of_committed b (posted first) real committed time token
  case looked =>
    rintro first index time token real rfl
    rw [World.run_append]
    exact World.stuck_of_call b (posted first) real time token
  case woken =>
    rintro first rest id wait rfl waits stuck goes
    rw [World.run_append] at goes
    simp only [World.run_append]
    exact World.wakes_run waits stuck goes

/-- Five wait while two commits are made. The first asks for what is committed, with no time and a
token called off; of the others one is reached, one runs out of time, one is called off and one
goes on waiting. -/
theorem commit_waits_served_mixed :
    let entry : Source := .complete ⟨1, .epoch, .empty, false⟩
    let wait (index millis : Nat) (token : Option String) : Event :=
      .call (.waitForCommit index (.ofMillis millis) token)
    let events : List Event :=
      [.call (.append [entry, entry, entry] none none), .turn 0, .turn 0,
        .call (.commit (some 1)), .turn 1, .cancel "off",
        wait 1 0 (some "off"), wait 2 50 none, wait 3 20 none, wait 3 50 (some "stop"),
        wait 3 50 none, .turn 4, .pass 20000000, .turn 4, .cancel "stop", .turn 5,
        .call (.commit (some 2)), .turn 7, .turn 3, .turn 6]
    let start := World.start .default .empty ()
    let last := (start.run (.volatile Unit) events).log
    (last.tasks[2]? = some (.finished (.answered (.ok .done))) ∧
      last.tasks[3]? = some (.finished (.answered (.ok .done))) ∧
      last.tasks[4]? = some (.finished (.answered (.error (.timeout 3 (.ofMillis 20))))) ∧
      last.tasks[5]? = some (.finished (.answered (.error .canceled))) ∧
      last.memory.board = ⟨2, 1⟩) ∧
      start.WaitsServed (.volatile Unit) events :=
  ⟨⟨rfl, rfl, rfl, rfl, rfl⟩, commit_waits_served (.volatile Unit) .default .empty () _⟩

end DurableLog
