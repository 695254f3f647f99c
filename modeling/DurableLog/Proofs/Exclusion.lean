import DurableLog.Log.Log
import DurableLog.Proofs.Guard

/-!
# One write at a time

A write is a chain of turns: it waits for the guard, plans, has its hook run, and publishes. Other
tasks take turns in between and any of them can be dropped at any await.

`Stage` is how far the write with the guard has come, and `Log.At` ties a stage to the guard, the
hooks that run and the tasks. Each section below takes one kind of change of a log and says which
stage it leads to; `Log.Turns` is what the changes have in common.
-/

namespace DurableLog

/-! ## Stages -/

/-- What the write under way has come to. -/
inductive Stage
  /-- No hook has been run for it. -/
  | idle
  /-- Its hook runs on a helper thread. -/
  | running (task : Nat) (hook : Hook) (publication : Publication)
  /-- Its hook has returned, and the task has not taken its turn since. -/
  | returned (task : Nat) (hook : Hook) (publication : Publication) (result : HookResult)

/-- The task whose hook it is. -/
def Stage.owner : Stage → Option Nat
  | idle => none
  | running task .. => some task
  | returned task .. => some task

/-- The task may still make a publication visible. -/
def Task.Pending : Task → Prop
  | .keeping _ => True
  | .kept _ result => result ≠ .panicked
  | _ => False

namespace Memory

/-- The memory is what a write looks at when it plans to have this kept and published. -/
def Plans (m : Memory) (hook : Hook) (p : Publication) : Prop :=
  ∃ mutation, m.plan mutation = .keep hook p

/-- The memories differ at most in how many wait for a commit. -/
structure Alike (m m' : Memory) : Prop where
  snapshot : m'.snapshot = m.snapshot
  commitIndex : m'.commitIndex = m.commitIndex
  published : m'.board.published = m.board.published
  term : m'.term = m.term
  vote : m'.vote = m.vote

theorem Alike.refl (m : Memory) : m.Alike m := ⟨rfl, rfl, rfl, rfl, rfl⟩

theorem Alike.plan {m m' : Memory} (h : m.Alike m') (mutation : Mutation) :
    m'.plan mutation = m.plan mutation := by
  cases mutation with
  | append entries start =>
    cases start <;> simp only [Memory.plan, h.snapshot, h.commitIndex]
  | commit last => simp only [Memory.plan, h.snapshot, h.commitIndex]
  | setTerm term => simp only [Memory.plan, h.term, h.vote]
  | nextTerm => simp only [Memory.plan, h.term]
  | vote candidate => simp only [Memory.plan, h.term]

theorem Alike.plans {m m' : Memory} (h : m.Alike m') {hook : Hook} {p : Publication}
    (planned : m.Plans hook p) : m'.Plans hook p := by
  obtain ⟨mutation, hm⟩ := planned
  exact ⟨mutation, by rw [h.plan, hm]⟩

end Memory

namespace Log

/-! ## A stage and the log it belongs to -/

/-- What the stage says of the hooks that run and of their task. -/
def Stands (log : Log) : Stage → Prop
  | .idle => log.running = []
  | .running task hook p =>
    log.running = [(task, hook)] ∧ log.guard.holders = [Guard.writer task] ∧
      log.memory.Plans hook p ∧
      (log.tasks[task]? = some (.keeping p) ∨ log.tasks[task]? = some (.finished .aborted))
  | .returned task hook p result =>
    log.running = [] ∧ log.guard.holders = [Guard.writer task] ∧ log.memory.Plans hook p ∧
      result ≠ .panicked ∧ log.tasks[task]? = some (.kept p result)

/-- The ticket belongs to a task that wants it, or has it while its hook is under way. -/
def Wants (log : Log) (s : Stage) (t : Ticket) : Prop :=
  match t.access with
  | .shared => ∃ first last, log.tasks[t.task]? = some (.reading first last)
  | .exclusive => (∃ mutation, log.tasks[t.task]? = some (.writing mutation)) ∨
      s.owner = some t.task

/-- The log is at this stage, and its guard is in order. -/
structure At (log : Log) (s : Stage) : Prop where
  compatible : Guard.Compatible log.guard.holders
  wanted : ∀ t ∈ log.guard.tickets, log.Wants s t
  pending : ∀ id task, log.tasks[id]? = some task → task.Pending → s.owner = some id
  stands : log.Stands s

variable {log log' : Log} {s : Stage} {id : Nat}

theorem at_ofReplica (config : Config) (r : Replica) : (Log.ofReplica config r).At .idle where
  compatible := Guard.compatible_nil
  wanted := by simp [Log.ofReplica, Guard.free, Guard.tickets]
  pending := by simp [Log.ofReplica]
  stands := rfl

/-- The owner of a stage is a task that does not want the guard. -/
theorem At.owner_task (h : log.At s) (owner : s.owner = some id) :
    ∃ task, log.tasks[id]? = some task ∧ (task.Pending ∨ task = .finished .aborted) := by
  have stands := h.stands
  cases s with
  | idle => cases owner
  | running task hook p =>
    cases owner
    rcases stands.2.2.2 with hk | hf
    · exact ⟨_, hk, Or.inl trivial⟩
    · exact ⟨_, hf, Or.inr rfl⟩
  | returned task hook p result =>
    cases owner
    exact ⟨_, stands.2.2.2.2, Or.inl stands.2.2.2.1⟩

/-- The owner of a stage has the guard. -/
theorem At.holders_of_owner (h : log.At s) (owner : s.owner = some id) :
    log.guard.holders = [Guard.writer id] := by
  have stands := h.stands
  cases s with
  | idle => cases owner
  | running task hook p =>
    cases owner
    exact stands.2.1
  | returned task hook p result =>
    cases owner
    exact stands.2.1

/-- A task that is neither pending nor dropped owns no stage. -/
theorem At.not_owner (h : log.At s) {task : Task} (ht : log.tasks[id]? = some task)
    (done : ¬ task.Pending) (alive : task ≠ .finished .aborted) : s.owner ≠ some id := by
  intro owner
  obtain ⟨task', ht', hp⟩ := h.owner_task owner
  rw [ht] at ht'
  cases ht'
  rcases hp with hp | hp
  · exact done hp
  · exact alive hp

/-- A task that is not there owns no stage. -/
theorem At.not_owner_of_none (h : log.At s) (ht : log.tasks[id]? = none) : s.owner ≠ some id := by
  intro owner
  obtain ⟨task, ht', -⟩ := h.owner_task owner
  rw [ht] at ht'
  cases ht'

/-- Only tasks that read, write or own the stage have a ticket. -/
theorem At.no_ticket (h : log.At s) (other : s.owner ≠ some id)
    (reading : ∀ first last, log.tasks[id]? ≠ some (.reading first last))
    (writing : ∀ mutation, log.tasks[id]? ≠ some (.writing mutation)) :
    ∀ t ∈ log.guard.tickets, t.task ≠ id := by
  rintro ⟨task, access⟩ ht rfl
  have wants := h.wanted _ ht
  cases access with
  | shared =>
    obtain ⟨first, last, hr⟩ := wants
    exact reading first last hr
  | exclusive =>
    rcases wants with ⟨mutation, hw⟩ | owner
    · exact writing mutation hw
    · exact other owner

/-- A writing task that holds the guard is alone. -/
theorem At.holders_of_writing (h : log.At s) {mutation : Mutation}
    (ht : log.tasks[id]? = some (.writing mutation)) (holds : log.guard.holds id = true) :
    log.guard.holders = [Guard.writer id] := by
  refine Guard.holders_of_holds h.compatible ?_ holds
  rintro ⟨task, access⟩ hmem rfl
  have wants := h.wanted _ hmem
  cases access with
  | exclusive => rfl
  | shared =>
    obtain ⟨first, last, hr⟩ := wants
    rw [ht] at hr
    cases hr

/-- While a writing task holds the guard no hook is under way. -/
theorem At.idle_of_writing (h : log.At s) {mutation : Mutation}
    (ht : log.tasks[id]? = some (.writing mutation)) (holds : log.guard.holds id = true) :
    s = .idle := by
  have other : s.owner ≠ some id := h.not_owner ht not_false (by simp)
  have stands := h.stands
  -- the guard would be with the owner of the stage, who is not writing any more
  cases s with
  | idle => rfl
  | running task hook p =>
    have mine : id = task := Guard.eq_of_holds_of_writer stands.2.1 holds
    exact absurd (by rw [mine]; rfl) other
  | returned task hook p result =>
    have mine : id = task := Guard.eq_of_holds_of_writer stands.2.1 holds
    exact absurd (by rw [mine]; rfl) other

/-! ## Changes of the tasks -/

theorem tasks_setTask_other (log : Log) {i : Nat} (task : Task) (other : i ≠ id) :
    (log.setTask id task).tasks[i]? = log.tasks[i]? := by
  rw [setTask, Array.getElem?_setIfInBounds_ne (Ne.symm other)]

theorem tasks_setTask_self {old : Task} (h : log.tasks[id]? = some old) (task : Task) :
    (log.setTask id task).tasks[id]? = some task := by
  obtain ⟨lt, -⟩ := Array.getElem?_eq_some_iff.mp h
  rw [setTask, Array.getElem?_setIfInBounds_self_of_lt lt]

/-- The logs differ in one task and in the guard moved for it. -/
structure Turns (id : Nat) (task : Task) (log log' : Log) : Prop where
  self : log'.tasks[id]? = some task
  others : ∀ i, i ≠ id → log'.tasks[i]? = log.tasks[i]?
  serves : Guard.Serves id log.guard log'.guard

/-- A change for a task that does not own the stage keeps the stage. -/
theorem At.still {task : Task} (h : log.At s) (turns : log.Turns id task log')
    (alike : log.memory.Alike log'.memory) (running : log'.running = log.running)
    (other : s.owner ≠ some id) (done : ¬ task.Pending)
    (own : ∀ t ∈ log'.guard.tickets, t.task = id → log'.Wants s t) : log'.At s where
  compatible := turns.serves.compatible h.compatible
  wanted t ht := by
    by_cases mine : t.task = id
    · exact own t ht mine
    · have wants := h.wanted t (turns.serves.others t ht mine)
      unfold Wants at *
      rwa [turns.others _ mine]
  pending i task' hi hp := by
    by_cases mine : i = id
    · subst mine
      rw [turns.self] at hi
      cases hi
      exact absurd hp done
    · rw [turns.others _ mine] at hi
      exact h.pending i task' hi hp
  stands := by
    have stands := h.stands
    -- the owner is another task; the change leaves it and its place in the guard alone
    cases s with
    | idle => exact running.trans stands
    | running owner hook p =>
      have ne : owner ≠ id := fun e => other (by rw [e]; rfl)
      obtain ⟨hr, hg, hm, ht⟩ := stands
      exact ⟨running.trans hr, turns.serves.writer owner ne hg, alike.plans hm,
        by rwa [turns.others _ ne]⟩
    | returned owner hook p result =>
      have ne : owner ≠ id := fun e => other (by rw [e]; rfl)
      obtain ⟨hr, hg, hm, hres, ht⟩ := stands
      exact ⟨running.trans hr, turns.serves.writer owner ne hg, alike.plans hm, hres,
        by rwa [turns.others _ ne]⟩

/-- When the writer has given the guard back, no write is under way. -/
theorem At.ends {task : Task} (h : log.At s) (turns : log.Turns id task log')
    (running : log'.running = []) (mine : ∀ owner, s.owner = some owner → owner = id)
    (done : ¬ task.Pending) (gone : ∀ t ∈ log'.guard.tickets, t.task ≠ id) :
    log'.At .idle where
  compatible := turns.serves.compatible h.compatible
  wanted t ht := by
    have ne := gone t ht
    have wants := h.wanted t (turns.serves.others t ht ne)
    obtain ⟨task', access⟩ := t
    cases access with
    | shared =>
      unfold Wants at *
      rwa [turns.others _ ne]
    | exclusive =>
      rcases wants with ⟨mutation, hw⟩ | owner
      · exact Or.inl ⟨mutation, by rwa [turns.others _ ne]⟩
      · exact absurd (mine _ owner) ne
  pending i task' hi hp := by
    by_cases self : i = id
    · subst self
      rw [turns.self] at hi
      cases hi
      exact absurd hp done
    · rw [turns.others _ self] at hi
      exact absurd (mine i (h.pending i task' hi hp)) self
  stands := running

theorem turns_finish {old : Task} (h : log.tasks[id]? = some old) (result : TaskResult) :
    log.Turns id (.finished result) (log.finish id result) where
  self := tasks_setTask_self h _
  others _ other := tasks_setTask_other log _ other
  serves := Guard.serves_refl id log.guard

theorem turns_conclude {old : Task} (h : log.tasks[id]? = some old) (result : TaskResult) :
    log.Turns id (.finished result) (log.conclude id result) where
  self := tasks_setTask_self h _
  others _ other := tasks_setTask_other log _ other
  serves := Guard.serves_release id log.guard

theorem turns_setTask {old : Task} (h : log.tasks[id]? = some old) (task : Task) :
    log.Turns id task (log.setTask id task) where
  self := tasks_setTask_self h _
  others _ other := tasks_setTask_other log _ other
  serves := Guard.serves_refl id log.guard

theorem turns_await {old : Task} (h : log.tasks[id]? = some old) (access : Access) (task : Task) :
    log.Turns id task (log.await id access task) where
  self := tasks_setTask_self h _
  others _ other := tasks_setTask_other log _ other
  serves := Guard.serves_request id log.guard access

theorem turns_enter (log : Log) (task : Task) :
    log.Turns log.tasks.size task { log with tasks := log.tasks.push task } where
  self := Array.getElem?_push_size
  others i other := by simp [Array.getElem?_push, other]
  serves := Guard.serves_refl _ log.guard

theorem turns_enter_request (log : Log) (access : Access) (task : Task) :
    log.Turns log.tasks.size task
      (({ log with tasks := log.tasks.push task } : Log).request log.tasks.size access) where
  self := Array.getElem?_push_size
  others i other := by simp [request, Array.getElem?_push, other]
  serves := Guard.serves_request _ log.guard access

/-! ## Beginning -/

/-- A task that has no ticket asks for the guard. -/
theorem At.requests (h : log.At s) {access : Access} {task : Task}
    (turns : log.Turns id task log') (alike : log.memory.Alike log'.memory)
    (running : log'.running = log.running)
    (tickets : log'.guard.tickets = log.guard.tickets ++ [⟨id, access⟩])
    (other : s.owner ≠ some id) (done : ¬ task.Pending)
    (fresh : ∀ t ∈ log.guard.tickets, t.task ≠ id) (wants : log'.Wants s ⟨id, access⟩) :
    log'.At s := by
  refine h.still turns alike running other done fun t ht mine => ?_
  rw [tickets] at ht
  rcases List.mem_append.mp ht with ht | ht
  · exact absurd mine (fresh t ht)
  · rwa [List.mem_singleton.mp ht]

/-- A call that asks for the guard. -/
theorem At.enter_request (h : log.At s) {access : Access} {task : Task} (done : ¬ task.Pending)
    (wants : access = .shared ∧ (∃ first last, task = .reading first last) ∨
      access = .exclusive ∧ ∃ mutation, task = .writing mutation) :
    (({ log with tasks := log.tasks.push task } : Log).request log.tasks.size access).At s := by
  have absent : log.tasks[log.tasks.size]? = none := by simp
  have other := h.not_owner_of_none absent
  have turns := turns_enter_request log access task
  refine h.requests turns (Memory.Alike.refl _) rfl (Guard.tickets_request _ _ _) other done
    (h.no_ticket other (by simp) (by simp)) ?_
  rcases wants with ⟨rfl, first, last, rfl⟩ | ⟨rfl, mutation, rfl⟩
  · exact ⟨first, last, turns.self⟩
  · exact Or.inl ⟨mutation, turns.self⟩

/-- A call that does not ask for the guard. -/
theorem At.enter (h : log.At s) (task : Task) (done : ¬ task.Pending) :
    ({ log with tasks := log.tasks.push task } : Log).At s := by
  have absent : log.tasks[log.tasks.size]? = none := by simp
  have other := h.not_owner_of_none absent
  refine h.still (turns_enter log task) (Memory.Alike.refl _) rfl other done fun t ht mine => ?_
  exact absurd mine (h.no_ticket other (by simp) (by simp) t ht)

theorem At.updateBoard (h : log.At s) {f : CommitBoard → CommitBoard}
    (published : ∀ board, (f board).published = board.published) : (log.updateBoard f).At s where
  compatible := h.compatible
  wanted := h.wanted
  pending := h.pending
  stands := by
    have alike : log.memory.Alike (log.updateBoard f).memory :=
      ⟨rfl, rfl, published _, rfl, rfl⟩
    have stands := h.stands
    cases s with
    | idle => exact stands
    | running task hook p => exact ⟨stands.1, stands.2.1, alike.plans stands.2.2.1, stands.2.2.2⟩
    | returned task hook p result =>
      exact ⟨stands.1, stands.2.1, alike.plans stands.2.2.1, stands.2.2.2⟩

/-- A call changes nothing that a write does. -/
theorem At.call (h : log.At s) (env : Surroundings) (c : Call) :
    (log.call env c).At s ∧ log.memory.Alike (log.call env c).memory := by
  cases c with
  | append sources start token =>
    simp only [Log.call]
    split
    · exact ⟨h.enter _ not_false, .refl _⟩
    · exact ⟨h.enter _ not_false, .refl _⟩
  | commit last => exact ⟨h.enter_request not_false (.inr ⟨rfl, _, rfl⟩), .refl _⟩
  | setTerm term => exact ⟨h.enter_request not_false (.inr ⟨rfl, _, rfl⟩), .refl _⟩
  | nextTerm => exact ⟨h.enter_request not_false (.inr ⟨rfl, _, rfl⟩), .refl _⟩
  | vote candidate => exact ⟨h.enter_request not_false (.inr ⟨rfl, _, rfl⟩), .refl _⟩
  | read first last => exact ⟨h.enter_request not_false (.inl ⟨rfl, _, _, rfl⟩), .refl _⟩
  | waitForCommit index time token =>
    simp only [Log.call]
    split
    · exact ⟨h.enter _ not_false, .refl _⟩
    · cases (CommitWait.start env index time token).firstAnswer? env log.memory.board.published with
      | some result => exact ⟨h.enter _ not_false, .refl _⟩
      | none =>
        have entered := h.enter (.waiting (.start env index time token)) not_false
        exact ⟨entered.updateBoard fun _ => rfl, rfl, rfl, rfl, rfl, rfl⟩

/-! ## The turns of a write -/

/-- A change for the task whose hook is under way, the guard left alone. -/
theorem At.takes (h : log.At s) {s' : Stage} {task : Task} (turns : log.Turns id task log')
    (guard : log'.guard = log.guard)
    (reading : ∀ first last, log.tasks[id]? ≠ some (.reading first last))
    (mine : ∀ owner, s.owner = some owner → owner = id) (owner : s'.owner = some id)
    (stands : log'.Stands s') : log'.At s' where
  compatible := turns.serves.compatible h.compatible
  wanted t ht := by
    rw [guard] at ht
    have wants := h.wanted t ht
    obtain ⟨i, access⟩ := t
    by_cases self : i = id
    · subst self
      cases access with
      | shared =>
        obtain ⟨first, last, hr⟩ := wants
        exact absurd hr (reading first last)
      | exclusive => exact Or.inr owner
    · cases access with
      | shared =>
        obtain ⟨first, last, hr⟩ := wants
        exact ⟨first, last, (turns.others _ self).trans hr⟩
      | exclusive =>
        rcases wants with ⟨mutation, hw⟩ | other
        · exact Or.inl ⟨mutation, (turns.others _ self).trans hw⟩
        · exact absurd (mine _ other) self
  pending i task' hi hp := by
    by_cases self : i = id
    · rw [self, owner]
    · rw [turns.others _ self] at hi
      exact absurd (mine _ (h.pending i task' hi hp)) self
  stands := stands

/-- A write that has the guard has its hook run. -/
theorem At.begins (h : log.At .idle) {mutation : Mutation} {hook : Hook} {p : Publication}
    (ht : log.tasks[id]? = some (.writing mutation)) (holds : log.guard.holds id = true)
    (planned : log.memory.plan mutation = .keep hook p) :
    ({ log.setTask id (.keeping p) with running := log.running ++ [(id, hook)] } : Log).At
      (.running id hook p) := by
  have none_running : log.running = [] := h.stands
  have turns := turns_setTask ht (.keeping p)
  refine h.takes ⟨turns.self, turns.others, turns.serves⟩ rfl (by simp [ht]) (by rintro _ ⟨⟩) rfl ?_
  exact ⟨by simp [none_running], h.holders_of_writing ht holds, ⟨mutation, planned⟩,
    Or.inl turns.self⟩

/-- The hook that runs is that of the stage. -/
theorem At.running_eq (h : log.At s) {ran : Nat × Hook}
    (found : log.running.find? (·.1 = id) = some ran) :
    ∃ hook p, s = .running id hook p ∧ ran = (id, hook) := by
  have stands := h.stands
  cases s with
  | idle =>
    have none_running : log.running = [] := stands
    simp [none_running] at found
  | returned task hook p result => simp [stands.1] at found
  | running task hook p =>
    rw [stands.1] at found
    obtain ⟨hid, hran⟩ : task = id ∧ (task, hook) = ran := by simpa using found
    subst hid
    exact ⟨hook, p, rfl, hran.symm⟩

/-- The hook returns to the task that waits for it. -/
theorem At.returns {hook : Hook} {p : Publication} {result : HookResult}
    (h : log.At (.running id hook p)) (ht : log.tasks[id]? = some (.keeping p))
    (ended : result ≠ .panicked) :
    (({ log with running := log.running.filter (·.1 ≠ id) } : Log).setTask id
      (.kept p result)).At (.returned id hook p result) := by
  obtain ⟨running, alone, planned, -⟩ := h.stands
  have turns := turns_setTask ht (.kept p result)
  refine h.takes ⟨turns.self, turns.others, turns.serves⟩ rfl (by simp [ht])
    (by rintro _ ⟨⟩; rfl) rfl ?_
  exact ⟨by simp [setTask, running], alone, planned, ended, turns.self⟩

/-- A hook that stops in the middle gives the guard back. -/
theorem turns_stops {p : Publication} (ht : log.tasks[id]? = some (.keeping p)) :
    log.Turns id (.kept p .panicked)
      (({ log with running := log.running.filter (·.1 ≠ id) } : Log).release id |>.setTask id
        (.kept p .panicked)) where
  self := tasks_setTask_self ht _
  others _ other := tasks_setTask_other log _ other
  serves := Guard.serves_release id log.guard

/-! ## Ends -/

/-- The write of the stage gives the guard back. -/
theorem At.concluded (h : log.At s) {old : Task} (ht : log.tasks[id]? = some old)
    (none_running : log.running = []) (mine : ∀ owner, s.owner = some owner → owner = id)
    (result : TaskResult) : (log.conclude id result).At .idle :=
  h.ends (turns_conclude ht result) none_running mine not_false
    fun _ => Guard.task_ne_of_mem_release

/-- The write of the stage publishes and gives the guard back. -/
theorem At.published (h : log.At s) {old : Task} (ht : log.tasks[id]? = some old)
    (none_running : log.running = []) (mine : ∀ owner, s.owner = some owner → owner = id)
    (p : Publication) (result : HookResult) : (log.publish id p result).At .idle := by
  have ended := turns_conclude ht (.answered (p.outcome log.memory result).1)
  exact h.ends ⟨ended.self, ended.others, ended.serves⟩ none_running mine not_false
    fun _ => Guard.task_ne_of_mem_release

theorem write_of_nonblocking {σ : Type} {b : Backend σ} {mutation : Mutation} {hook : Hook}
    {p : Publication} (blocking : b.blocking = false)
    (planned : log.memory.plan mutation = .keep hook p) (store : σ) :
    log.write b id mutation store =
      (if (b.keep hook store).1 = .panicked then log.conclude id .panicked
        else log.publish id p (b.keep hook store).1, (b.keep hook store).2) := by
  cases kept : b.keep hook store with
  | mk result store' => cases result <;> simp [write, planned, blocking, kept]

/-- A task that owns no stage gives the guard back. -/
theorem At.leaves (h : log.At s) {old : Task} (ht : log.tasks[id]? = some old)
    (other : s.owner ≠ some id) (result : TaskResult) : (log.conclude id result).At s :=
  h.still (turns_conclude ht result) (Memory.Alike.refl _) rfl other not_false
    fun _ hmem mine => absurd mine (Guard.task_ne_of_mem_release hmem)

/-- A task that owns no stage and does not want the guard goes on. -/
theorem At.goes_on (h : log.At s) {old : Task} (task : Task) (ht : log.tasks[id]? = some old)
    (other : s.owner ≠ some id) (done : ¬ task.Pending)
    (reading : ∀ first last, old ≠ .reading first last)
    (writing : ∀ mutation, old ≠ .writing mutation) : (log.setTask id task).At s :=
  h.still (turns_setTask ht task) (Memory.Alike.refl _) rfl other done fun t hmem mine =>
    absurd mine <| h.no_ticket other (by simpa [ht] using reading) (by simpa [ht] using writing)
      t hmem

/-- An append whose entries are there asks for the guard. -/
theorem At.asks (h : log.At s) {capture : Capture} {place : Option Nat} {token : Option String}
    (ht : log.tasks[id]? = some (.capturing capture place token)) (other : s.owner ≠ some id)
    (entries : Array Entry) (start : Option Nat) :
    (log.await id .exclusive (.writing (.append entries start))).At s := by
  have turns := turns_await ht .exclusive (.writing (.append entries start))
  exact h.requests turns (Memory.Alike.refl _) rfl (Guard.tickets_request _ _ _) other not_false
    (h.no_ticket other (by simp [ht]) (by simp [ht])) (Or.inl ⟨_, turns.self⟩)

/-- The result that a task holds is that of the stage. -/
theorem At.returned_of_kept (h : log.At s) {p : Publication} {result : HookResult}
    (ht : log.tasks[id]? = some (.kept p result)) (ended : result ≠ .panicked) :
    ∃ hook, s = .returned id hook p result := by
  have owner := h.pending id _ ht ended
  have stands := h.stands
  cases s with
  | idle => cases owner
  | running task hook p' =>
    cases owner
    rcases stands.2.2.2 with hk | hf
    · rw [ht] at hk
      cases hk
    · rw [ht] at hf
      cases hf
  | returned task hook p' result' =>
    cases owner
    have same := stands.2.2.2.2
    rw [ht] at same
    cases same
    exact ⟨hook, rfl⟩

/-- The hook that a task waits for is that of the stage. -/
theorem At.running_of_keeping (h : log.At s) {p : Publication}
    (ht : log.tasks[id]? = some (.keeping p)) : ∃ hook, s = .running id hook p := by
  have owner := h.pending id _ ht trivial
  have stands := h.stands
  cases s with
  | idle => cases owner
  | running task hook p' =>
    cases owner
    rcases stands.2.2.2 with hk | hf
    · rw [ht] at hk
      cases hk
      exact ⟨hook, rfl⟩
    · rw [ht] at hf
      cases hf
  | returned task hook p' result' =>
    cases owner
    have same := stands.2.2.2.2
    rw [ht] at same
    cases same

/-- The task is dropped and its hook goes on. -/
theorem At.dropped {hook : Hook} {p : Publication} (h : log.At (.running id hook p))
    (ht : log.tasks[id]? = some (.keeping p)) :
    (log.finish id .aborted).At (.running id hook p) := by
  obtain ⟨running, alone, planned, -⟩ := h.stands
  have turns := turns_finish ht .aborted
  refine h.takes turns rfl (by simp [ht]) (by rintro _ ⟨⟩; rfl) rfl ?_
  exact ⟨running, alone, planned, Or.inr turns.self⟩

/-! ## Turns -/

/-- What a turn of a task comes to. -/
inductive Turned {σ : Type} (b : Backend σ) (env : Surroundings) (log : Log) (id : Nat)
    (store : σ) : Log × σ → Prop
  /-- An append goes on taking its entries in. -/
  | captures {capture next : Capture} {start : Option Nat} {token : Option String}
      (found : log.tasks[id]? = some (.capturing capture start token)) :
      Turned b env log id store (log.setTask id (.capturing next start token), store)
  | fails {capture : Capture} {start : Option Nat} {token : Option String} {fault : Fault}
      (found : log.tasks[id]? = some (.capturing capture start token)) :
      Turned b env log id store (log.finish id (.answered (.error fault)), store)
  | asks {capture : Capture} {start : Option Nat} {token : Option String} {entries : Array Entry}
      (found : log.tasks[id]? = some (.capturing capture start token)) :
      Turned b env log id store (log.await id .exclusive (.writing (.append entries start)), store)
  | writes {mutation : Mutation} (found : log.tasks[id]? = some (.writing mutation))
      (holds : log.guard.holds id = true) :
      Turned b env log id store (log.write b id mutation store)
  | publishes {p : Publication} {result : HookResult}
      (found : log.tasks[id]? = some (.kept p result)) :
      Turned b env log id store (log.publish id p result, store)
  | reads {first : Nat} {last : Option Nat} (found : log.tasks[id]? = some (.reading first last))
      (holds : log.guard.holds id = true) :
      Turned b env log id store
        (log.conclude id (.answered ((log.readRange first last).map .entries)), store)
  | answers {wait : CommitWait} {result : Except Fault Unit}
      (found : log.tasks[id]? = some (.waiting wait))
      (answer : wait.answer? env log.memory.board.published = some result) :
      Turned b env log id store ((log.updateBoard .leave).finish id (waitResult result), store)

theorem turned_of_turn {σ : Type} {b : Backend σ} {env : Surroundings} {store : σ}
    {moved : Log × σ} (turned : log.turn? b env id store = some moved) :
    Turned b env log id store moved := by
  unfold turn? at turned
  split at turned
  · next found =>
    simp only at turned
    split at turned
    · split at turned <;> cases turned
      · exact .captures found
      · exact .fails found
      · exact .asks found
    · cases turned
  · next found =>
    split at turned
    · next holds =>
      cases turned
      exact .writes found holds
    · cases turned
  · next found =>
    cases turned
    exact .publishes found
  · next found =>
    split at turned
    · next holds =>
      cases turned
      exact .reads found holds
    · cases turned
  · next found =>
    obtain ⟨result, answer, rfl⟩ := Option.map_eq_some_iff.mp turned
    exact .answers found answer
  · cases turned
  · cases turned
  · cases turned

/-! ## Tasks that are over -/

/-- No task that is over has changed, and none has been dropped. -/
def Moves (before after : Array Task) : Prop :=
  ∀ id : Nat, after[id]? = before[id]? ∨
    (∀ result, before[id]? ≠ some (.finished result)) ∧ after[id]? ≠ some (.finished .aborted)

theorem Moves.refl (tasks : Array Task) : Moves tasks tasks := fun _ => .inl rfl

theorem Moves.finished {before after : Array Task} (h : Moves before after) {result : TaskResult}
    (ended : before[id]? = some (.finished result)) : after[id]? = some (.finished result) := by
  rcases h id with same | ⟨alive, -⟩
  · rw [same, ended]
  · exact absurd ended (alive result)

theorem Moves.dropped {before after : Array Task} (h : Moves before after)
    (dropped : after[id]? = some (.finished .aborted)) :
    before[id]? = some (.finished .aborted) := by
  rcases h id with same | ⟨-, kept⟩
  · rw [← same, dropped]
  · exact absurd dropped kept

theorem moves_enter (tasks : Array Task) (task : Task) (kept : task ≠ .finished .aborted) :
    Moves tasks (tasks.push task) := by
  intro i
  by_cases new : i = tasks.size
  · subst new
    exact .inr ⟨by simp, by simpa using kept⟩
  · exact .inl (by simp [Array.getElem?_push, new])

theorem moves_setTask {old : Task} (h : log.tasks[id]? = some old)
    (alive : ∀ result, old ≠ .finished result) (task : Task) (kept : task ≠ .finished .aborted) :
    Moves log.tasks (log.setTask id task).tasks := by
  intro i
  by_cases mine : i = id
  · subst mine
    refine .inr ⟨fun result ended => ?_, ?_⟩
    · rw [h] at ended
      cases ended
      exact alive _ rfl
    · rw [tasks_setTask_self h]
      simpa using kept
  · exact .inl (tasks_setTask_other log task mine)

theorem moves_call (log : Log) (env : Surroundings) (c : Call) :
    Moves log.tasks (log.call env c).tasks := by
  have entered (task : Task) (kept : task ≠ .finished .aborted) := moves_enter log.tasks task kept
  cases c with
  | append sources start token =>
    simp only [call]
    split <;> exact entered _ (by simp)
  | waitForCommit index time token =>
    simp only [call]
    split
    · exact entered _ (by simp)
    · split <;> exact entered _ (by simp [waitResult])
  | commit last => exact entered _ (by simp)
  | setTerm term => exact entered _ (by simp)
  | nextTerm => exact entered _ (by simp)
  | vote candidate => exact entered _ (by simp)
  | read first last => exact entered _ (by simp)

theorem moves_write {σ : Type} (b : Backend σ) {mutation : Mutation} (store : σ)
    (h : log.tasks[id]? = some (.writing mutation)) :
    Moves log.tasks (log.write b id mutation store).1.tasks := by
  have moves (task : Task) (kept : task ≠ .finished .aborted) := moves_setTask h (by simp) task kept
  unfold write
  split
  · exact moves _ (by simp)
  · exact moves _ (by simp)
  · split
    · exact moves _ (by simp)
    · split <;> exact moves _ (by simp)

theorem moves_turn {σ : Type} {b : Backend σ} {env : Surroundings} {store : σ}
    {moved : Log × σ} (turned : log.turn? b env id store = some moved) :
    Moves log.tasks moved.1.tasks := by
  cases turned_of_turn turned with
  | captures found => exact moves_setTask found (by simp) _ (by simp)
  | fails found => exact moves_setTask found (by simp) _ (by simp)
  | asks found => exact moves_setTask found (by simp) _ (by simp)
  | writes found holds => exact moves_write b store found
  | publishes found => exact moves_setTask found (by simp) _ (by simp)
  | reads found holds => exact moves_setTask found (by simp) _ (by simp)
  | answers found answer => exact moves_setTask found (by simp) _ (by simp [waitResult])

/-- A hook that returns changes its task at most, and that only if it waits for the hook. -/
theorem tasks_hookReturns {σ : Type} {b : Backend σ} {store : σ} {moved : Log × σ}
    (returned : log.hookReturns? b id store = some moved) :
    moved.1.memory = log.memory ∧ moved.1.config = log.config ∧
      (moved.1.tasks = log.tasks ∨ ∃ p result, log.tasks[id]? = some (.keeping p) ∧
        moved.1.tasks = (log.setTask id (.kept p result)).tasks) := by
  unfold hookReturns? at returned
  split at returned
  · cases returned
  · next ran hook found =>
    by_cases panicked : (b.keep hook store).1 = .panicked
    · simp only [panicked, if_true] at returned
      split at returned
      · next keeping =>
        cases returned
        exact ⟨rfl, rfl, .inr ⟨_, _, keeping, rfl⟩⟩
      · cases returned
        exact ⟨rfl, rfl, .inl rfl⟩
    · simp only [panicked, if_false] at returned
      split at returned
      · next keeping =>
        cases returned
        exact ⟨rfl, rfl, .inr ⟨_, _, keeping, rfl⟩⟩
      · cases returned
        exact ⟨rfl, rfl, .inl rfl⟩

theorem moves_hookReturns {σ : Type} {b : Backend σ} {store : σ} {moved : Log × σ}
    (returned : log.hookReturns? b id store = some moved) : Moves log.tasks moved.1.tasks := by
  obtain ⟨-, -, same | ⟨p, result, keeping, set⟩⟩ := tasks_hookReturns returned
  · rw [same]
    exact .refl log.tasks
  · rw [set]
    exact moves_setTask keeping (by simp) _ (by simp)

theorem finished_abort {i : Nat} {result : TaskResult}
    (h : log.tasks[id]? = some (.finished result)) :
    (log.abort i).tasks[id]? = some (.finished result) := by
  have other {old : Task} (hi : log.tasks[i]? = some old) (alive : ∀ r, old ≠ .finished r)
      (task : Task) : (log.setTask i task).tasks[id]? = some (.finished result) := by
    have ne : id ≠ i := by
      rintro rfl
      rw [h] at hi
      cases hi
      exact alive _ rfl
    rw [tasks_setTask_other log task ne, h]
  unfold abort
  split
  · next ht => exact other ht (by simp) _
  · next ht => exact other ht (by simp) _
  · next ht => exact other ht (by simp) _
  · next ht => exact other ht (by simp) _
  · next ht => exact other ht (by simp) _
  · next ht => exact other ht (by simp) _
  · exact h
  · exact h

end Log

end DurableLog
