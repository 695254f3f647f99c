import DurableLog.Proofs.Ledger

/-!
# What an event does, in full

`Passage` says what an event does to the memory and the backend. This module says what it does to
the tasks as well: an event is either one of the three turns of a write (it reads the state, its
hook returns, it publishes), of which `Deed` tells everything, or it is *aside*, and then it at most
begins, fails or drops single tasks (`Aside`).

What a write has done so far is collected along a run (`World.along`): who has read the state with
the guard in hand, how hooks have ended, and what has become visible.
-/

namespace DurableLog

/-- What comes of an append that has gone on taking its entries in. -/
def Attempt.task (start : Option Nat) (token : Option String) :
    Attempt Capture (Array Entry) → Task
  | .waiting capture => .capturing capture start token
  | .finished (.error fault) => .finished (.answered (.error fault))
  | .finished (.ok entries) => .writing (.append entries start)

/-- The task is the first that the call can come to. -/
inductive Call.Enters : Call → Task → Prop
  | empty {start : Option Nat} {token : Option String} :
      Enters (.append [] start token) (.finished (.answered (.error .emptyBatch)))
  | capturing {sources : List Source} {start : Option Nat} {token : Option String}
      (some : sources ≠ []) :
      Enters (.append sources start token) (.capturing (.start sources) start token)
  | commit {last : Option Nat} : Enters (.commit last) (.writing (.commit last))
  | setTerm {term : Term} : Enters (.setTerm term) (.writing (.setTerm term))
  | nextTerm : Enters .nextTerm (.writing .nextTerm)
  | vote {candidate : Member} : Enters (.vote candidate) (.writing (.vote candidate))
  | reading {first : Nat} {last : Option Nat} : Enters (.read first last) (.reading first last)
  | waiting {index : Nat} {time : Duration} {token : Option String} {wait : CommitWait} :
      Enters (.waitForCommit index time token) (.waiting wait)
  | answered {index : Nat} {time : Duration} {token : Option String}
      {result : Except Fault Reply} :
      Enters (.waitForCommit index time token) (.finished (.answered result))

/-- The call that an event makes. -/
def Event.call? : Event → Option Call
  | .call c => some c
  | _ => none

theorem Attempt.task_ne_kept (attempt : Attempt Capture (Array Entry)) (start : Option Nat)
    (token : Option String) (p : Publication) (result : HookResult) :
    attempt.task start token ≠ .kept p result := by
  cases attempt with
  | waiting capture => exact Task.noConfusion
  | finished taken => cases taken <;> exact Task.noConfusion

namespace Log

/-- At most one task is changed, and none is added. -/
structure Touches (id : Nat) (log log' : Log) : Prop where
  others : ∀ i, i ≠ id → log'.tasks[i]? = log.tasks[i]?
  size : log'.tasks.size = log.tasks.size
  config : log'.config = log.config

variable {log log' : Log} {id : Nat}

theorem Touches.of_eq {task : Task} (tasks : log'.tasks = log.tasks.setIfInBounds id task)
    (config : log'.config = log.config) : log.Touches id log' := by
  refine ⟨?_, ?_, config⟩
  · intro i other
    rw [tasks, Array.getElem?_setIfInBounds_ne (Ne.symm other)]
  · rw [tasks, Array.size_setIfInBounds]

theorem touches_write {σ : Type} (b : Backend σ) (log : Log) (id : Nat) (mutation : Mutation)
    (store : σ) : log.Touches id (log.write b id mutation store).1 := by
  unfold write
  split
  · exact .of_eq rfl rfl
  · exact .of_eq rfl rfl
  · split
    · exact .of_eq rfl rfl
    · split <;> exact .of_eq rfl rfl

theorem touches_hookReturns {σ : Type} {b : Backend σ} {store : σ} {moved : Log × σ}
    (returned : log.hookReturns? b id store = some moved) : log.Touches id moved.1 := by
  obtain ⟨-, config, same | ⟨p, result, -, set⟩⟩ := tasks_hookReturns returned
  · exact ⟨fun _ _ => by rw [same], by rw [same], config⟩
  · exact .of_eq set config

end Log

namespace World

variable {σ : Type}

/-! ## What is collected along a run -/

/-- What the events of a run add, in order. -/
def along {α : Type} (b : Backend σ) (f : World σ → Event → Option α) (w : World σ) :
    List Event → List α
  | [] => []
  | e :: rest => (f w e).toList ++ (w.step b e).along b f rest

theorem along_append {α : Type} (b : Backend σ) (f : World σ → Event → Option α) (w : World σ)
    (first rest : List Event) :
    w.along b f (first ++ rest) = w.along b f first ++ (w.run b first).along b f rest := by
  induction first generalizing w with
  | nil => rfl
  | cons e first ih => rw [List.cons_append, along, along, ih, run_cons, List.append_assoc]

theorem along_concat {α : Type} (b : Backend σ) (f : World σ → Event → Option α) (w : World σ)
    (events : List Event) (e : Event) :
    w.along b f (events ++ [e]) = w.along b f events ++ (f (w.run b events) e).toList := by
  rw [along_append, along, along, List.append_nil]

/-- The write that reads the state in an event, with the guard in hand. -/
def begun? (w : World σ) : Event → Option (Nat × Mutation)
  | .turn id =>
    match w.log.tasks[id]? with
    | some (.writing mutation) => if w.log.guard.holds id then some (id, mutation) else none
    | _ => none
  | _ => none

/-- How a hook ends in an event. -/
def ended? (b : Backend σ) (w : World σ) (e : Event) : Option (Nat × HookResult) :=
  (w.offered? b e).map fun x => (x.1, (b.keep x.2 w.store).1)

/-- The task whose write an event makes visible. -/
def published? (b : Backend σ) (w : World σ) : Event → Option Nat
  | .turn id =>
    match w.log.tasks[id]? with
    | some (.writing _) => (w.accepted? b (.turn id)).map Prod.fst
    | some (.kept _ .kept) => some id
    | _ => none
  | _ => none

/-! ## Events -/

/-- What an event that is no turn of a write does to a task. -/
inductive Aside (w : World σ) (e : Event) (id : Nat) : Option Task → Option Task → Prop
  | stays {task : Option Task} : Aside w e id task task
  | enters {c : Call} {task : Task} (called : e = .call c) (new : id = w.log.tasks.size)
      (enters : c.Enters task) : Aside w e id none (some task)
  | captures {capture : Capture} {start : Option Nat} {token : Option String} {task : Task}
      (signals : Signals) (goes : (capture.run w.log.intake signals).task start token = task) :
      Aside w e id (some (.capturing capture start token)) (some task)
  | reads {first : Nat} {last : Option Nat} (result : Except Fault Reply) :
      Aside w e id (some (.reading first last)) (some (.finished (.answered result)))
  | waits {wait : CommitWait} (result : Except Fault Reply) :
      Aside w e id (some (.waiting wait)) (some (.finished (.answered result)))
  | drops {task : Task} (alive : ∀ result, task ≠ .finished result) :
      Aside w e id (some task) (some (.finished .aborted))

/-- What an event does. -/
inductive Deed (b : Backend σ) (w : World σ) : Event → Prop
  | aside {e : Event} (begun : w.begun? e = none) (offered : w.offered? b e = none)
      (published : w.published? b e = none)
      (size : (w.step b e).log.tasks.size = w.log.tasks.size + e.call?.toList.length)
      (config : (w.step b e).log.config = w.log.config)
      (running : (w.step b e).log.running = w.log.running)
      (memory : w.log.memory.Alike (w.step b e).log.memory)
      (tasks : ∀ id : Nat, w.Aside e id w.log.tasks[id]? (w.step b e).log.tasks[id]?) : Deed b w e
  /-- A write that has the guard reads the state. -/
  | reads {id : Nat} {mutation : Mutation} (task : w.log.tasks[id]? = some (.writing mutation))
      (holds : w.log.guard.holds id = true)
      (touches : w.log.Touches id (w.step b (.turn id)).log) : Deed b w (.turn id)
  /-- A hook returns from its helper thread. -/
  | returns {id : Nat} {ran : Nat × Hook}
      (found : w.log.running.find? (·.1 = id) = some ran)
      (touches : w.log.Touches id (w.step b (.hookReturns id)).log) : Deed b w (.hookReturns id)
  /-- A write whose hook has returned publishes, if the hook has kept it, and answers. -/
  | publishes {id : Nat} {p : Publication} {result : HookResult}
      (task : w.log.tasks[id]? = some (.kept p result))
      (touches : w.log.Touches id (w.step b (.turn id)).log) : Deed b w (.turn id)

variable {b : Backend σ} {w : World σ}

theorem Aside.of_turns {e : Event} {id : Nat} {old : Option Task} {task : Task} {log : Log}
    (found : w.log.tasks[id]? = old) (turns : w.log.Turns id task log)
    (aside : w.Aside e id old (some task)) (i : Nat) :
    w.Aside e i w.log.tasks[i]? log.tasks[i]? := by
  by_cases self : i = id
  · rw [self, turns.self, found]
    exact aside
  · rw [turns.others i self]
    exact .stays

/-- Nothing but the turns of a write has a hook's result handed to a task. -/
theorem Aside.of_kept {e : Event} {id : Nat} {old : Option Task} {p : Publication}
    {result : HookResult} (aside : w.Aside e id old (some (.kept p result))) :
    old = some (.kept p result) := by
  generalize told : some (Task.kept p result) = new at aside
  cases aside with
  | stays => rfl
  | enters called fresh enters =>
    cases told
    cases enters
  | captures signals goes =>
    cases told
    exact absurd goes (Attempt.task_ne_kept _ _ _ _ _)
  | reads result => cases told
  | waits result => cases told
  | drops alive => cases told

/-- Nothing happens to the log. -/
theorem deed_still {e : Event} (begun : w.begun? e = none) (offered : w.offered? b e = none)
    (published : w.published? b e = none) (no_call : e.call? = none)
    (same : (w.step b e).log = w.log) : Deed b w e := by
  refine .aside begun offered published ?_ ?_ ?_ ?_ fun id => ?_ <;> rw [same]
  · rw [no_call]
    rfl
  · exact .refl _
  · exact .stays

/-- One task is changed, and nothing is done that a write does. -/
theorem deed_turns {e : Event} {id : Nat} {old : Option Task} {task : Task} {log : Log}
    (quiet : w.begun? e = none ∧ w.offered? b e = none ∧ w.published? b e = none)
    (stepped : (w.step b e).log = log) (found : w.log.tasks[id]? = old)
    (turns : w.log.Turns id task log) (aside : w.Aside e id old (some task))
    (size : log.tasks.size = w.log.tasks.size + e.call?.toList.length)
    (config : log.config = w.log.config) (running : log.running = w.log.running)
    (memory : w.log.memory.Alike log.memory) : Deed b w e := by
  subst stepped
  exact .aside quiet.1 quiet.2.1 quiet.2.2 size config running memory
    (Aside.of_turns found turns aside)

theorem deed_call (c : Call) : Deed b w (.call c) := by
  have absent : w.log.tasks[w.log.tasks.size]? = none := by simp
  have entered {log : Log} (task : Task) (called : w.log.call w.env c = log)
      (turns : w.log.Turns w.log.tasks.size task log) (enters : c.Enters task)
      (size : log.tasks.size = w.log.tasks.size + 1) (config : log.config = w.log.config)
      (running : log.running = w.log.running) (memory : w.log.memory.Alike log.memory) :
      Deed b w (.call c) :=
    deed_turns ⟨rfl, rfl, rfl⟩ called absent turns (.enters rfl rfl enters) size config running
      memory
  have plain (task : Task) (enters : c.Enters task)
      (called : w.log.call w.env c = { w.log with tasks := w.log.tasks.push task }) :
      Deed b w (.call c) :=
    entered task called (w.log.turns_enter task) enters (Array.size_push _) rfl rfl (.refl _)
  have asks (task : Task) (enters : c.Enters task) (access : Access)
      (called : w.log.call w.env c = ({ w.log with tasks := w.log.tasks.push task } : Log).request
        w.log.tasks.size access) : Deed b w (.call c) :=
    entered task called (w.log.turns_enter_request access task) enters (Array.size_push _) rfl rfl
      (.refl _)
  cases c with
  | append sources start token =>
    cases sources with
    | nil => exact plain _ .empty rfl
    | cons source rest => exact plain _ (.capturing (by simp)) rfl
  | commit last => exact asks _ .commit .exclusive rfl
  | setTerm term => exact asks _ .setTerm .exclusive rfl
  | nextTerm => exact asks _ .nextTerm .exclusive rfl
  | vote candidate => exact asks _ .vote .exclusive rfl
  | read first last => exact asks _ .reading .shared rfl
  | waitForCommit index time token =>
    by_cases sentinel : index = 0
    · subst sentinel
      exact plain _ .answered rfl
    · let wait := CommitWait.start w.env index time token
      cases answer : wait.firstAnswer? w.env w.log.memory.board.published with
      | some result =>
        refine plain (.finished (Log.waitResult result)) .answered ?_
        simp only [Log.call, if_neg sentinel]
        rw [answer]
      | none =>
        have called : w.log.call w.env (.waitForCommit index time token) =
            ({ w.log with tasks := w.log.tasks.push (.waiting wait) } : Log).updateBoard .join := by
          simp only [Log.call, if_neg sentinel]
          rw [answer]
        have turns := w.log.turns_enter (.waiting wait)
        exact entered _ called ⟨turns.self, turns.others, turns.serves⟩ .waiting
          (Array.size_push _) rfl rfl ⟨rfl, rfl, rfl, rfl, rfl⟩

/-- A turn of a task that is not past its reading of the state does nothing that a write does. -/
theorem quiet_turn (b : Backend σ) (w : World σ) (id : Nat)
    (writing : ∀ mutation, w.log.tasks[id]? ≠ some (.writing mutation))
    (kept : ∀ p result, w.log.tasks[id]? ≠ some (.kept p result)) :
    w.begun? (.turn id) = none ∧ w.offered? b (.turn id) = none ∧
      w.published? b (.turn id) = none := by
  cases ht : w.log.tasks[id]? with
  | none => simp [begun?, offered?, published?, ht]
  | some task =>
    cases task with
    | writing mutation => exact absurd ht (writing mutation)
    | kept p result => exact absurd ht (kept p result)
    | capturing _ _ _ => simp [begun?, offered?, published?, ht]
    | keeping _ => simp [begun?, offered?, published?, ht]
    | reading _ _ => simp [begun?, offered?, published?, ht]
    | waiting _ => simp [begun?, offered?, published?, ht]
    | finished _ => simp [begun?, offered?, published?, ht]

/-- A turn of an append that takes its entries in. -/
theorem deed_capturing {id : Nat} {capture : Capture} {start : Option Nat} {token : Option String}
    (ht : w.log.tasks[id]? = some (.capturing capture start token)) : Deed b w (.turn id) := by
  have quiet := quiet_turn b w id (by simp [ht]) (by simp [ht])
  let signals : Signals := ⟨w.env.isCancelled token, fun name => w.env.opened.contains name⟩
  have captures {task : Task} (goes : (capture.run w.log.intake signals).task start token = task) :
      w.Aside (.turn id) id (some (.capturing capture start token)) (some task) :=
    .captures signals goes
  by_cases ready : capture.ready signals = true
  · cases taken : capture.run w.log.intake signals with
    | waiting capture' =>
      have stepped : (w.step b (.turn id)).log =
          w.log.setTask id (.capturing capture' start token) := by
        simp only [step, Log.turn?, ht]
        rw [if_pos ready, taken]
        rfl
      exact deed_turns quiet stepped ht (Log.turns_setTask ht _) (captures (by rw [taken]; rfl))
        Array.size_setIfInBounds rfl rfl (.refl _)
    | finished result =>
      cases result with
      | error fault =>
        have stepped : (w.step b (.turn id)).log = w.log.finish id (.answered (.error fault)) := by
          simp only [step, Log.turn?, ht]
          rw [if_pos ready, taken]
          rfl
        exact deed_turns quiet stepped ht (Log.turns_finish ht _) (captures (by rw [taken]; rfl))
          Array.size_setIfInBounds rfl rfl (.refl _)
      | ok entries =>
        have stepped : (w.step b (.turn id)).log =
            w.log.await id .exclusive (.writing (.append entries start)) := by
          simp only [step, Log.turn?, ht]
          rw [if_pos ready, taken]
          rfl
        exact deed_turns quiet stepped ht (Log.turns_await ht _ _) (captures (by rw [taken]; rfl))
          Array.size_setIfInBounds rfl rfl (.refl _)
  · have stuck : w.log.turn? b w.env id w.store = none := by
      simp only [Log.turn?, ht]
      rw [if_neg ready]
    exact deed_still quiet.1 quiet.2.1 quiet.2.2 rfl (by rw [step, stuck, moved])

theorem deed_turn (id : Nat) : Deed b w (.turn id) := by
  cases ht : w.log.tasks[id]? with
  | none =>
    obtain ⟨begun, offered, published⟩ :=
      quiet_turn b w id (by simp [ht]) (by simp [ht])
    exact deed_still begun offered published rfl (by simp [step, Log.turn?, ht, moved])
  | some task =>
    have quiet (writing : ∀ mutation, task ≠ .writing mutation)
        (kept : ∀ p result, task ≠ .kept p result) :=
      quiet_turn b w id (by simpa [ht] using writing)
        (by simpa [ht] using kept)
    have stuck (writing : ∀ mutation, task ≠ .writing mutation)
        (kept : ∀ p result, task ≠ .kept p result)
        (none : w.log.turn? b w.env id w.store = none) : Deed b w (.turn id) := by
      obtain ⟨begun, offered, published⟩ := quiet writing kept
      exact deed_still begun offered published rfl (by rw [step, none, moved])
    cases task with
    | capturing capture start token => exact deed_capturing ht
    | writing mutation =>
      by_cases holds : w.log.guard.holds id = true
      · refine .reads ht holds ?_
        have stepped : (w.step b (.turn id)).log = (w.log.write b id mutation w.store).1 := by
          simp [step, Log.turn?, ht, holds, moved]
        rw [stepped]
        exact Log.touches_write ..
      · have offered : w.offered? b (.turn id) = none := by simp [offered?, ht, holds]
        exact deed_still (by simp [begun?, ht, holds]) offered
          (by simp [published?, ht, accepted?_of_none offered]) rfl
          (by simp [step, Log.turn?, ht, holds, moved])
    | keeping p => exact stuck (by simp) (by simp) (by simp [Log.turn?, ht])
    | kept p result =>
      have stepped : (w.step b (.turn id)).log = w.log.publish id p result := by
        simp [step, Log.turn?, ht, moved]
      exact .publishes ht (.of_eq (by rw [stepped]; rfl) (by rw [stepped]; rfl))
    | reading first last =>
      by_cases holds : w.log.guard.holds id = true
      · have stepped : (w.step b (.turn id)).log =
            w.log.conclude id (.answered ((w.log.readRange first last).map .entries)) := by
          simp [step, Log.turn?, ht, holds, moved]
        exact deed_turns (quiet (by simp) (by simp)) stepped ht (Log.turns_conclude ht _)
          (.reads _) Array.size_setIfInBounds rfl rfl (.refl _)
      · exact stuck (by simp) (by simp) (by simp [Log.turn?, ht, holds])
    | waiting wait =>
      cases answered : wait.answer? w.env w.log.memory.board.published with
      | none => exact stuck (by simp) (by simp) (by simp [Log.turn?, ht, answered])
      | some result =>
        have stepped : (w.step b (.turn id)).log =
            (w.log.updateBoard .leave).finish id (Log.waitResult result) := by
          simp [step, Log.turn?, ht, answered, moved]
        have turns := Log.turns_finish ht (Log.waitResult result)
        exact deed_turns (quiet (by simp) (by simp)) stepped ht
          ⟨turns.self, turns.others, turns.serves⟩ (.waits _) Array.size_setIfInBounds rfl rfl
          ⟨rfl, rfl, rfl, rfl, rfl⟩
    | finished result => exact stuck (by simp) (by simp) (by simp [Log.turn?, ht])

theorem deed_abort (id : Nat) : Deed b w (.abort id) := by
  cases ht : w.log.tasks[id]? with
  | none => exact deed_still rfl rfl rfl rfl (by simp [step, Log.abort, ht])
  | some task =>
    have finished (alive : ∀ result, task ≠ .finished result)
        (aborted : w.log.abort id = w.log.finish id .aborted) : Deed b w (.abort id) :=
      deed_turns ⟨rfl, rfl, rfl⟩ aborted ht (Log.turns_finish ht _) (.drops alive)
        Array.size_setIfInBounds rfl rfl (.refl _)
    have concluded (alive : ∀ result, task ≠ .finished result)
        (aborted : w.log.abort id = w.log.conclude id .aborted) : Deed b w (.abort id) :=
      deed_turns ⟨rfl, rfl, rfl⟩ aborted ht (Log.turns_conclude ht _) (.drops alive)
        Array.size_setIfInBounds rfl rfl (.refl _)
    cases task with
    | capturing capture start token => exact finished (by simp) (by simp only [Log.abort, ht])
    | writing mutation => exact concluded (by simp) (by simp only [Log.abort, ht])
    | keeping p => exact finished (by simp) (by simp only [Log.abort, ht])
    | kept p result => exact concluded (by simp) (by simp only [Log.abort, ht])
    | reading first last => exact concluded (by simp) (by simp only [Log.abort, ht])
    | waiting wait =>
      have aborted : w.log.abort id = (w.log.updateBoard .leave).finish id .aborted := by
        simp only [Log.abort, ht]
      have turns := Log.turns_finish ht .aborted
      exact deed_turns ⟨rfl, rfl, rfl⟩ aborted ht ⟨turns.self, turns.others, turns.serves⟩
        (.drops (by simp)) Array.size_setIfInBounds rfl rfl ⟨rfl, rfl, rfl, rfl, rfl⟩
    | finished result => exact deed_still rfl rfl rfl rfl (by simp [step, Log.abort, ht])

/-- Nothing else can happen. -/
theorem deed_step (b : Backend σ) (w : World σ) (e : Event) : Deed b w e := by
  cases e with
  | call c => exact deed_call c
  | turn id => exact deed_turn id
  | hookReturns id =>
    cases found : w.log.running.find? (·.1 = id) with
    | none => exact deed_still rfl found rfl rfl (by simp [step, Log.hookReturns?, found, moved])
    | some ran =>
      refine .returns found ?_
      cases returned : w.log.hookReturns? b id w.store with
      | none =>
        rw [step, returned]
        exact ⟨fun _ _ => rfl, rfl, rfl⟩
      | some moved =>
        rw [step, returned]
        exact Log.touches_hookReturns returned
  | abort id => exact deed_abort id
  | cancel token => exact deed_still rfl rfl rfl rfl rfl
  | openGate name => exact deed_still rfl rfl rfl rfl rfl
  | pass nanos => exact deed_still rfl rfl rfl rfl rfl

end World

end DurableLog
