import DurableLog.Log.Run
import DurableLog.Proofs.Exclusion

/-!
# What an event can do

* `Passage` lists what an event can do to the memory, the backend and the stage of the write under
  way.
* `World.passage_step` says that nothing else can happen, whatever the order of events.

A property of all runs is then a case analysis over `Passage` and needs no look at tasks or guard.
-/

namespace DurableLog

/-! ## Settling a stage -/

theorem Publication.outcome_of_not_kept (m : Memory) (p : Publication) {result : HookResult}
    (h : result ≠ .kept) : (p.outcome m result).2 = m := by
  cases result with
  | kept => exact absurd rfl h
  | failed fault => rfl
  | panicked => rfl

/-- The memory once the task of the stage has published. -/
def Stage.settled (m : Memory) : Stage → Memory
  | .returned _ _ p result => (p.outcome m result).2
  | _ => m

theorem Memory.Alike.apply {m m' : Memory} (h : m.Alike m') (p : Publication) :
    (p.apply m).1.Alike (p.apply m').1 := by
  obtain ⟨snapshot, commitIndex, published, term, vote⟩ := h
  cases p with
  | append base start entries => exact ⟨rfl, commitIndex, published, term, vote⟩
  | commit first last => exact ⟨snapshot, rfl, rfl, term, vote⟩
  | setTerm new =>
    exact ⟨snapshot, commitIndex, published, rfl, by simp [Publication.apply, term, vote]⟩
  | nextTerm => exact ⟨snapshot, commitIndex, published, by simp [Publication.apply, term], rfl⟩
  | vote candidate => exact ⟨snapshot, commitIndex, published, term, rfl⟩

theorem Memory.Alike.settled {m m' : Memory} (h : m.Alike m') (s : Stage) :
    (s.settled m).Alike (s.settled m') := by
  cases s with
  | idle => exact h
  | running task hook p => exact h
  | returned task hook p result =>
    cases result with
    | kept => exact h.apply p
    | failed fault => exact h
    | panicked => exact h

namespace World

variable {σ : Type} {b : Backend σ} {w : World σ} {s : Stage} {id : Nat}

/-! ## Passages -/

/-- The hook that an event hands to the backend, with the task that has it run. -/
def offered? (b : Backend σ) (w : World σ) : Event → Option (Nat × Hook)
  | .hookReturns id => w.log.running.find? (·.1 = id)
  | .turn id =>
    match w.log.tasks[id]? with
    | some (.writing mutation) =>
      if w.log.guard.holds id ∧ b.blocking = false then
        match w.log.memory.plan mutation with
        | .keep hook _ => some (id, hook)
        | _ => none
      else none
    | _ => none
  | _ => none

/-- What an event can do to the memory, to the backend and to the write under way. -/
inductive Passage (b : Backend σ) (w : World σ) (e : Event) (w' : World σ) : Stage → Stage → Prop
  /-- It does nothing that a write does. -/
  | still {s : Stage} (offered : w.offered? b e = none) (store : w'.store = w.store)
      (memory : w.log.memory.Alike w'.log.memory) : Passage b w e w' s s
  /-- A write has its hook run on a helper thread. -/
  | begins {id : Nat} {hook : Hook} {p : Publication} (blocking : b.blocking = true)
      (planned : w.log.memory.Plans hook p) (offered : w.offered? b e = none)
      (store : w'.store = w.store) (memory : w'.log.memory = w.log.memory) :
      Passage b w e w' .idle (.running id hook p)
  /-- A write is done in one turn. -/
  | direct {id : Nat} {hook : Hook} {p : Publication} (nonblocking : b.blocking = false)
      (planned : w.log.memory.Plans hook p) (offered : w.offered? b e = some (id, hook))
      (store : w'.store = (b.keep hook w.store).2)
      (memory : w'.log.memory = (p.outcome w.log.memory (b.keep hook w.store).1).2) :
      Passage b w e w' .idle .idle
  /-- The hook returns to its task. -/
  | returns {id : Nat} {hook : Hook} {p : Publication}
      (planned : w.log.memory.Plans hook p) (offered : w.offered? b e = some (id, hook))
      (store : w'.store = (b.keep hook w.store).2) (memory : w'.log.memory = w.log.memory)
      (ended : (b.keep hook w.store).1 ≠ .panicked) :
      Passage b w e w' (.running id hook p) (.returned id hook p (b.keep hook w.store).1)
  /-- The hook returns to nobody, or stops in the middle. -/
  | lapses {id : Nat} {hook : Hook} {p : Publication}
      (planned : w.log.memory.Plans hook p) (offered : w.offered? b e = some (id, hook))
      (store : w'.store = (b.keep hook w.store).2) (memory : w'.log.memory = w.log.memory)
      (lost : (b.keep hook w.store).1 = .panicked ∨
        w'.log.tasks[id]? = some (.finished .aborted)) :
      Passage b w e w' (.running id hook p) .idle
  /-- The task publishes what its hook has come to. -/
  | publishes {id : Nat} {hook : Hook} {p : Publication} {result : HookResult}
      (planned : w.log.memory.Plans hook p) (offered : w.offered? b e = none)
      (store : w'.store = w.store)
      (memory : w'.log.memory = (p.outcome w.log.memory result).2)
      (alive : ∃ reply, w'.log.tasks[id]? = some (.finished (.answered reply))) :
      Passage b w e w' (.returned id hook p result) .idle
  /-- The task is dropped after its hook has returned. -/
  | abandons {id : Nat} {hook : Hook} {p : Publication} {result : HookResult}
      (planned : w.log.memory.Plans hook p) (offered : w.offered? b e = none)
      (store : w'.store = w.store) (memory : w'.log.memory = w.log.memory)
      (lost : w'.log.tasks[id]? = some (.finished .aborted)) :
      Passage b w e w' (.returned id hook p result) .idle

/-! ## Every event is a passage -/

/-- The stage after an event, and how the event leads to it. -/
def Passes (b : Backend σ) (w : World σ) (e : Event) (s : Stage) : Prop :=
  ∃ s', (w.step b e).log.At s' ∧ Passage b w e (w.step b e) s s'

theorem passes_still {e : Event} (still : (w.step b e).log.At s) (offered : w.offered? b e = none)
    (store : (w.step b e).store = w.store) (memory : w.log.memory.Alike (w.step b e).log.memory) :
    w.Passes b e s := ⟨s, still, .still offered store memory⟩

theorem passes_call (h : w.log.At s) (c : Call) : w.Passes b (.call c) s :=
  passes_still (h.call w.env c).1 rfl rfl (h.call w.env c).2

/-- The turn of a write that has the guard. -/
theorem passes_write (h : w.log.At s) {mutation : Mutation}
    (ht : w.log.tasks[id]? = some (.writing mutation)) (holds : w.log.guard.holds id = true) :
    w.Passes b (.turn id) s := by
  have idle : s = .idle := h.idle_of_writing ht holds
  subst idle
  have none_running : w.log.running = [] := h.stands
  have mine : ∀ owner, Stage.idle.owner = some owner → owner = id := by rintro _ ⟨⟩
  have concluded (result : TaskResult) : (w.log.conclude id result).At .idle :=
    h.concluded ht none_running mine result
  have stepped : w.step b (.turn id) = w.moved (some (w.log.write b id mutation w.store)) := by
    simp [step, Log.turn?, ht, holds]
  unfold Passes
  rw [stepped]
  cases planned : w.log.memory.plan mutation with
  | refuse fault =>
    simp only [Log.write, planned]
    exact ⟨_, concluded _, .still (by simp [offered?, ht, planned]) rfl (.refl _)⟩
  | answer reply =>
    simp only [Log.write, planned]
    exact ⟨_, concluded _, .still (by simp [offered?, ht, planned]) rfl (.refl _)⟩
  | keep hook p =>
    cases blocking : b.blocking with
    | true =>
      simp only [Log.write, planned, blocking, if_true]
      exact ⟨_, h.begins ht holds planned,
        .begins blocking ⟨mutation, planned⟩ (by simp [offered?, ht, blocking]) rfl rfl⟩
    | false =>
      rw [Log.write_of_nonblocking blocking planned]
      have offered : w.offered? b (.turn id) = some (id, hook) := by
        simp [offered?, ht, holds, blocking, planned]
      refine ⟨.idle, ?_, .direct blocking ⟨mutation, planned⟩ offered rfl ?_⟩
      · simp only [moved]
        split
        · exact concluded _
        · exact h.published ht none_running mine p _
      · simp only [moved]
        split
        · next panicked => rw [panicked]; rfl
        · rfl

/-- The turn of a write whose hook has returned. -/
theorem passes_kept (h : w.log.At s) {p : Publication} {result : HookResult}
    (ht : w.log.tasks[id]? = some (.kept p result)) : w.Passes b (.turn id) s := by
  have stepped : w.step b (.turn id) = w.moved (some (w.log.publish id p result, w.store)) := by
    simp [step, Log.turn?, ht]
  have offered : w.offered? b (.turn id) = none := by simp [offered?, ht]
  unfold Passes
  rw [stepped]
  by_cases panicked : result = .panicked
  · -- the guard went back when the hook stopped, so whoever writes now is another task
    subst panicked
    have other := h.not_owner ht (by simp [Task.Pending]) (by simp)
    exact ⟨s, h.leaves ht other _, .still offered rfl (.refl _)⟩
  · obtain ⟨hook, rfl⟩ := h.returned_of_kept ht panicked
    obtain ⟨none_running, -, planned, -, -⟩ := h.stands
    refine ⟨.idle, h.published ht none_running (by rintro _ ⟨⟩; rfl) p result, ?_⟩
    exact .publishes planned offered rfl rfl ⟨_, (Log.turns_finish ht _).self⟩

theorem passes_stuck (h : w.log.At s) (stuck : w.log.turn? b w.env id w.store = none)
    (offered : w.offered? b (.turn id) = none) : w.Passes b (.turn id) s := by
  have stepped : w.step b (.turn id) = w := by simp [step, stuck, moved]
  refine passes_still ?_ offered ?_ ?_ <;> rw [stepped]
  · exact h
  · exact .refl _

/-- The turn of an append that takes its entries in. -/
theorem passes_capturing (h : w.log.At s) {capture : Capture} {start : Option Nat}
    {token : Option String} (ht : w.log.tasks[id]? = some (.capturing capture start token)) :
    w.Passes b (.turn id) s := by
  have offered : w.offered? b (.turn id) = none := by simp [offered?, ht]
  have other := h.not_owner ht not_false (by simp)
  by_cases ready :
      capture.ready ⟨w.env.isCancelled token, fun name => w.env.opened.contains name⟩ = true
  · cases taken : capture.run w.log.intake
        ⟨w.env.isCancelled token, fun name => w.env.opened.contains name⟩ with
    | waiting capture =>
      refine passes_still ?_ offered ?_ ?_ <;>
        simp only [step, Log.turn?, ht, ready, if_true, taken, moved]
      · exact h.goes_on (.capturing capture start token) ht other not_false (by simp) (by simp)
      · exact .refl _
    | finished result =>
      cases result with
      | error fault =>
        refine passes_still ?_ offered ?_ ?_ <;>
          simp only [step, Log.turn?, ht, ready, if_true, taken, moved]
        · exact h.goes_on (.finished _) ht other not_false (by simp) (by simp)
        · exact .refl _
      | ok entries =>
        refine passes_still ?_ offered ?_ ?_ <;>
          simp only [step, Log.turn?, ht, ready, if_true, taken, moved]
        · exact h.asks ht other entries start
        · exact .refl _
  · refine passes_stuck h ?_ offered
    simp only [Log.turn?, ht]
    rw [if_neg ready]

theorem passes_turn (h : w.log.At s) (id : Nat) : w.Passes b (.turn id) s := by
  cases ht : w.log.tasks[id]? with
  | none => exact passes_stuck h (by simp [Log.turn?, ht]) (by simp [offered?, ht])
  | some task =>
    cases task with
    | capturing capture start token => exact passes_capturing h ht
    | writing mutation =>
      by_cases holds : w.log.guard.holds id = true
      · exact passes_write h ht holds
      · exact passes_stuck h (by simp [Log.turn?, ht, holds]) (by simp [offered?, ht, holds])
    | keeping p => exact passes_stuck h (by simp [Log.turn?, ht]) (by simp [offered?, ht])
    | kept p result => exact passes_kept h ht
    | reading first last =>
      have offered : w.offered? b (.turn id) = none := by simp [offered?, ht]
      have other := h.not_owner ht not_false (by simp)
      by_cases holds : w.log.guard.holds id = true
      · refine passes_still ?_ offered ?_ ?_ <;>
          simp only [step, Log.turn?, ht, holds, if_true, moved]
        · exact h.leaves ht other _
        · exact .refl _
      · exact passes_stuck h (by simp [Log.turn?, ht, holds]) offered
    | waiting wait =>
      have offered : w.offered? b (.turn id) = none := by simp [offered?, ht]
      have other := h.not_owner ht not_false (by simp)
      cases answered : wait.answer? w.env w.log.memory.board.published with
      | none => exact passes_stuck h (by simp [Log.turn?, ht, answered]) offered
      | some result =>
        refine passes_still ?_ offered ?_ ?_ <;>
          simp only [step, Log.turn?, ht, answered, Option.map_some, moved]
        · exact (h.updateBoard (f := .leave) fun _ => rfl).goes_on
            (.finished (Log.waitResult result)) ht other not_false (by simp) (by simp)
        · exact ⟨rfl, rfl, rfl, rfl, rfl⟩
    | finished result => exact passes_stuck h (by simp [Log.turn?, ht]) (by simp [offered?, ht])

theorem passes_hookReturns (h : w.log.At s) (id : Nat) : w.Passes b (.hookReturns id) s := by
  cases found : w.log.running.find? (·.1 = id) with
  | none =>
    have stepped : w.step b (.hookReturns id) = w := by simp [step, Log.hookReturns?, found, moved]
    refine passes_still ?_ found ?_ ?_ <;> rw [stepped]
    · exact h
    · exact .refl _
  | some ran =>
    obtain ⟨hook, p, rfl, rfl⟩ := h.running_eq found
    obtain ⟨running, -, planned, waits⟩ := h.stands
    have mine : ∀ owner, (Stage.running id hook p).owner = some owner → owner = id := by
      rintro _ ⟨⟩
      rfl
    cases kept : b.keep hook w.store with
    | mk result store =>
      by_cases panicked : result = .panicked
      · -- the hook gives the guard back, whether its task waits or was dropped
        subst panicked
        refine ⟨.idle, ?_, .lapses planned found ?_ ?_ (.inl (by rw [kept]))⟩ <;>
          rcases waits with ht | ht <;>
          simp only [step, Log.hookReturns?, found, kept, if_true, Log.release, ht, moved]
        · exact h.ends (Log.turns_stops ht) (by simp [Log.setTask, running]) mine
            (by simp [Task.Pending]) fun _ => Guard.task_ne_of_mem_release
        · exact h.ends ⟨ht, fun _ _ => rfl, (Guard.serves_release _ _).trans
            (Guard.serves_release _ _)⟩ (by simp [running]) mine not_false
            fun _ => Guard.task_ne_of_mem_release
        · rfl
      · rcases waits with ht | ht
        -- the task waits for the result
        · have stepped : w.step b (.hookReturns id) = { w with
              log := ({ w.log with running := w.log.running.filter (·.1 ≠ id) } : Log).setTask id
                (.kept p result), store } := by
            simp [step, Log.hookReturns?, found, kept, panicked, ht, moved]
          have passage : Passage b w (.hookReturns id) (w.step b (.hookReturns id))
              (.running id hook p) (.returned id hook p (b.keep hook w.store).1) := by
            refine .returns planned found ?_ ?_ ?_ <;> simp [stepped, kept, panicked, Log.setTask]
          rw [kept] at passage
          refine ⟨_, ?_, passage⟩
          rw [stepped]
          exact h.returns ht panicked
        -- the task was dropped, and the result is lost
        · have stepped : w.step b (.hookReturns id) = { w with
              log := ({ w.log with running := w.log.running.filter (·.1 ≠ id) } : Log).release id,
              store } := by
            simp [step, Log.hookReturns?, found, kept, panicked, ht, moved]
          refine ⟨.idle, ?_, .lapses planned found ?_ ?_ ?_⟩ <;> rw [stepped]
          · exact h.ends ⟨ht, fun _ _ => rfl, Guard.serves_release _ _⟩
              (by simp [Log.release, running]) mine not_false
              fun _ => Guard.task_ne_of_mem_release
          · rw [kept]
          · rfl
          · exact .inr ht

/-- A task that is over is left alone. -/
theorem passes_abort (h : w.log.At s) (id : Nat) : w.Passes b (.abort id) s := by
  cases ht : w.log.tasks[id]? with
  | none =>
    refine passes_still ?_ rfl rfl ?_ <;> simp only [step, Log.abort, ht]
    · exact h
    · exact .refl _
  | some task =>
    cases task with
    | capturing capture start token =>
      have other := h.not_owner ht not_false (by simp)
      refine passes_still ?_ rfl rfl ?_ <;> simp only [step, Log.abort, ht]
      · exact h.goes_on (.finished .aborted) ht other not_false (by simp) (by simp)
      · exact .refl _
    | writing mutation =>
      have other := h.not_owner ht not_false (by simp)
      refine passes_still ?_ rfl rfl ?_ <;> simp only [step, Log.abort, ht]
      · exact h.leaves ht other _
      · exact .refl _
    | keeping p =>
      obtain ⟨hook, rfl⟩ := h.running_of_keeping ht
      refine passes_still ?_ rfl rfl ?_ <;> simp only [step, Log.abort, ht]
      · exact h.dropped ht
      · exact .refl _
    | kept p result =>
      by_cases panicked : result = .panicked
      · subst panicked
        have other := h.not_owner ht (by simp [Task.Pending]) (by simp)
        refine passes_still ?_ rfl rfl ?_ <;> simp only [step, Log.abort, ht]
        · exact h.leaves ht other _
        · exact .refl _
      · obtain ⟨hook, rfl⟩ := h.returned_of_kept ht panicked
        obtain ⟨none_running, -, planned, -, -⟩ := h.stands
        refine ⟨.idle, ?_, .abandons planned rfl rfl ?_ ?_⟩ <;> simp only [step, Log.abort, ht]
        · exact h.concluded ht none_running (by rintro _ ⟨⟩; rfl) _
        · rfl
        · exact (Log.turns_conclude ht .aborted).self
    | reading first last =>
      have other := h.not_owner ht not_false (by simp)
      refine passes_still ?_ rfl rfl ?_ <;> simp only [step, Log.abort, ht]
      · exact h.leaves ht other _
      · exact .refl _
    | waiting wait =>
      have other := h.not_owner ht not_false (by simp)
      refine passes_still ?_ rfl rfl ?_ <;> simp only [step, Log.abort, ht]
      · exact (h.updateBoard (f := .leave) fun _ => rfl).goes_on
          (.finished .aborted) ht other not_false (by simp) (by simp)
      · exact ⟨rfl, rfl, rfl, rfl, rfl⟩
    | finished result =>
      refine passes_still ?_ rfl rfl ?_ <;> simp only [step, Log.abort, ht]
      · exact h
      · exact .refl _

/-- Whatever happens is a passage. -/
theorem passage_step (h : w.log.At s) (e : Event) : w.Passes b e s := by
  cases e with
  | call c => exact passes_call h c
  | turn id => exact passes_turn h id
  | hookReturns id => exact passes_hookReturns h id
  | abort id => exact passes_abort h id
  | cancel token => exact passes_still h rfl rfl (.refl _)
  | openGate name => exact passes_still h rfl rfl (.refl _)
  | pass nanos => exact passes_still h rfl rfl (.refl _)

/-! ## Tasks that are over -/

/-- Only a drop drops a task. -/
theorem moves_step (w : World σ) {e : Event} (kept : ∀ id, e ≠ .abort id) :
    Log.Moves w.log.tasks (w.step b e).log.tasks := by
  cases e with
  | call c => exact Log.moves_call w.log w.env c
  | turn i =>
    simp only [step]
    cases turned : w.log.turn? b w.env i w.store with
    | none => exact .refl _
    | some moved => exact Log.moves_turn turned
  | hookReturns i =>
    simp only [step]
    cases returned : w.log.hookReturns? b i w.store with
    | none => exact .refl _
    | some moved => exact Log.moves_hookReturns returned
  | abort i => exact absurd rfl (kept i)
  | cancel token => exact .refl _
  | openGate name => exact .refl _
  | pass nanos => exact .refl _

theorem finished_step {e : Event} {result : TaskResult}
    (h : w.log.tasks[id]? = some (.finished result)) :
    (w.step b e).log.tasks[id]? = some (.finished result) := by
  by_cases drops : ∃ i, e = .abort i
  · obtain ⟨i, rfl⟩ := drops
    exact Log.finished_abort h
  · exact (w.moves_step fun i same => drops ⟨i, same⟩).finished h

/-- A task that is over stays as it is. -/
theorem finished_run {events : List Event} {result : TaskResult}
    (h : w.log.tasks[id]? = some (.finished result)) :
    (w.run b events).log.tasks[id]? = some (.finished result) :=
  run_induction (P := fun w => w.log.tasks[id]? = some (.finished result))
    (fun _ _ h => finished_step h) h events

end World

end DurableLog
