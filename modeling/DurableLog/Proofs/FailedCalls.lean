import DurableLog.Proofs.Awaited
import DurableLog.Proofs.Visibility

/-!
# Calls that fail go unnoticed

A call that writes may be refused while its entries are taken in, or when it reads the state, or its
hook may fail or stop in the middle, or its task may be dropped at any await. Whichever it is
(`failed_call_unnoticed`):

* nothing the call does changes what callers see, and once its hook has returned it has nothing to
  do with the guard (`World.Unnoticed`);
* the memory is at any time what the other writes lead to, and every other call is answered as in a
  sequence of writes without it;
* a fault has a cause, and what is refused before a hook runs has no hook at all (`World.Cause`).
-/

namespace DurableLog

/-! ## Nobody waits for a free guard -/

namespace Log

variable {log : Log} {id : Nat}

theorem settled_call (h : log.guard.Settled) (env : Surroundings) (c : Call) :
    (log.call env c).guard.Settled := by
  cases c with
  | append sources start token =>
    simp only [call]
    split <;> exact h
  | waitForCommit index time token =>
    simp only [call]
    split
    · exact h
    · split <;> exact h
  | _ => exact Guard.settled_request _ _ _

theorem settled_write {σ : Type} (h : log.guard.Settled) (b : Backend σ) (mutation : Mutation)
    (store : σ) : (log.write b id mutation store).1.guard.Settled := by
  unfold write
  split
  · exact Guard.settled_release _ _
  · exact Guard.settled_release _ _
  · split
    · exact h
    · split <;> exact Guard.settled_release _ _

theorem settled_turn {σ : Type} {b : Backend σ} {env : Surroundings} {store : σ}
    {moved : Log × σ} (h : log.guard.Settled) (turned : log.turn? b env id store = some moved) :
    moved.1.guard.Settled := by
  cases turned_of_turn turned with
  | captures found => exact h
  | fails found => exact h
  | asks found => exact Guard.settled_request _ _ _
  | writes found holds => exact settled_write h b _ _
  | publishes found => exact Guard.settled_release _ _
  | reads found holds => exact Guard.settled_release _ _
  | answers found answer => exact h

theorem settled_hookReturns {σ : Type} {b : Backend σ} {store : σ} {moved : Log × σ}
    (h : log.guard.Settled) (returned : log.hookReturns? b id store = some moved) :
    moved.1.guard.Settled := by
  unfold hookReturns? at returned
  split at returned
  · cases returned
  · next ran hook found =>
    by_cases panicked : (b.keep hook store).1 = .panicked
    · simp only [panicked, if_true] at returned
      split at returned <;> cases returned <;> exact Guard.settled_release _ _
    · simp only [panicked, if_false] at returned
      split at returned <;> cases returned
      · exact h
      · exact Guard.settled_release _ _

theorem settled_abort (h : log.guard.Settled) : (log.abort id).guard.Settled := by
  unfold abort
  split
  all_goals first | exact h | exact Guard.settled_release _ _

/-- The task of a hook that runs waits for it or was dropped. -/
theorem At.task_of_running {s : Stage} (h : log.At s) {hook : Hook}
    (runs : (id, hook) ∈ log.running) :
    (∃ p, log.tasks[id]? = some (.keeping p)) ∨ log.tasks[id]? = some (.finished .aborted) := by
  have stands := h.stands
  cases s with
  | idle =>
    rw [show log.running = [] from stands] at runs
    cases runs
  | returned task hook' p result =>
    rw [stands.1] at runs
    cases runs
  | running task hook' p =>
    rw [stands.1, List.mem_singleton] at runs
    cases runs
    exact stands.2.2.2.imp_left fun waits => ⟨p, waits⟩

/-- A task that is over has no ticket, unless it was dropped and its hook still runs. -/
theorem At.no_ticket_of_finished {s : Stage} (h : log.At s) {result : TaskResult}
    (ended : log.tasks[id]? = some (.finished result))
    (hookless : ∀ hook, (id, hook) ∉ log.running) :
    ∀ t ∈ log.guard.tickets, t.task ≠ id := by
  refine h.no_ticket ?_ (by simp [ended]) (by simp [ended])
  intro owner
  have stands := h.stands
  cases s with
  | idle => cases owner
  | running task hook p =>
    cases owner
    exact hookless hook (by simp [stands.1])
  | returned task hook p result' =>
    cases owner
    have kept := stands.2.2.2.2
    rw [ended] at kept
    cases kept

end Log

namespace World

variable {σ : Type} {b : Backend σ} {w : World σ} {s : Stage} {id : Nat} {events : List Event}

theorem settled_step {e : Event} (h : w.log.guard.Settled) : (w.step b e).log.guard.Settled := by
  cases e with
  | call c => exact Log.settled_call h w.env c
  | turn id =>
    simp only [step]
    cases turned : w.log.turn? b w.env id w.store with
    | none => exact h
    | some moved => exact Log.settled_turn h turned
  | hookReturns id =>
    simp only [step]
    cases returned : w.log.hookReturns? b id w.store with
    | none => exact h
    | some moved => exact Log.settled_hookReturns h returned
  | abort id => exact Log.settled_abort h
  | cancel token => exact h
  | openGate name => exact h
  | pass nanos => exact h

theorem settled_run (config : Config) (r : Replica) (store : σ) (events : List Event) :
    ((start config r store).run b events).log.guard.Settled :=
  run_induction (P := fun w => w.log.guard.Settled) (fun _ _ => settled_step) (fun _ => rfl) events

/-! ## Calls without a hook -/

/-- No hook of the task is handed to the backend, and none ever runs on a helper thread. -/
structure Hookless (b : Backend σ) (w : World σ) (events : List Event) (id : Nat) : Prop where
  unended : id ∉ (w.endings b events).map Prod.fst
  unrun : ∀ first rest, events = first ++ rest → ∀ hook, (id, hook) ∉ (w.run b first).log.running

/-- A hook is handed to the backend when it returns from its helper thread, or in the turn in which
its write reads the state. -/
theorem offered?_eq_some {e : Event} {hook : Hook} (offered : w.offered? b e = some (id, hook)) :
    (id, hook) ∈ w.log.running ∨
      ∃ mutation p, w.begun? e = some (id, mutation) ∧
        w.log.memory.plan mutation = .keep hook p := by
  cases e with
  | hookReturns i => exact .inl (List.mem_of_find?_eq_some offered)
  | turn i =>
    simp only [offered?] at offered
    split at offered
    · next mutation found =>
      split at offered
      · next ready =>
        split at offered
        · next planned =>
          cases offered
          exact .inr ⟨mutation, _, by simp [begun?, found, ready.1], planned⟩
        · cases offered
      · cases offered
    · cases offered
  | _ => cases offered

theorem mem_endings {r : HookResult} :
    (id, r) ∈ w.endings b events ↔ ∃ first e rest, events = first ++ e :: rest ∧
      ∃ hook, (w.run b first).offered? b e = some (id, hook) ∧
        (b.keep hook (w.run b first).store).1 = r := by
  rw [endings, mem_along]
  simp only [ended?, Option.map_eq_some_iff, Prod.mk.injEq, Prod.exists]
  grind

theorem Hookless.append {first rest : List Event} (h : w.Hookless b first id)
    (h' : (w.run b first).Hookless b rest id) : w.Hookless b (first ++ rest) id where
  unended := by
    rw [endings, along_append, List.map_append, List.mem_append, not_or]
    exact ⟨h.unended, h'.unended⟩
  unrun front back split hook runs := by
    rcases List.append_eq_append_iff.mp split with ⟨more, rfl, rfl⟩ | ⟨more, rfl, rfl⟩
    · rw [run_append] at runs
      exact h'.unrun more back rfl hook runs
    · exact h.unrun front more rfl hook runs

/-- A task that has not read the state has no hook. -/
theorem Hookless.of_unread (orderly : ∀ events, w.Orderly b events)
    (unread : id ∉ w.writers b events) : w.Hookless b events id where
  unended mem := by
    obtain ⟨x, ended, rfl⟩ := List.mem_map.mp mem
    exact unread ((orderly events).accounts.hooks x ended)
  unrun first rest split hook runs := by
    obtain ⟨-, before, mutation, whole⟩ := (orderly first).accounts.last id (.inl ⟨hook, runs⟩)
    refine unread ?_
    rw [split, writers_append, writers, whole]
    simp

/-- A task that was answered has no hook any more. -/
theorem Hookless.of_answered (standing : w.log.At s) {result : Except Fault Reply}
    (answered : w.log.tasks[id]? = some (.finished (.answered result))) :
    w.Hookless b events id := by
  have standing' (first : List Event) : ∃ s, (w.run b first).log.At s :=
    run_induction (P := fun w => ∃ s, w.log.At s)
      (fun w e ⟨_, standing⟩ => (passage_step (b := b) standing e).imp fun _ => And.left)
      ⟨s, standing⟩ first
  have still (first : List Event) :
      (w.run b first).log.tasks[id]? = some (.finished (.answered result)) := finished_run answered
  have unrun (first : List Event) (hook : Hook) : (id, hook) ∉ (w.run b first).log.running := by
    intro runs
    obtain ⟨_, standing⟩ := standing' first
    rcases standing.task_of_running runs with ⟨p, waits⟩ | dropped
    · rw [still first] at waits
      cases waits
    · rw [still first] at dropped
      cases dropped
  refine ⟨fun mem => ?_, fun first _ _ => unrun first⟩
  obtain ⟨⟨_, r⟩, ended, rfl⟩ := List.mem_map.mp mem
  obtain ⟨first, e, rest, -, hook, offered, -⟩ := mem_endings.mp ended
  rcases offered?_eq_some offered with runs | ⟨mutation, p, begun, -⟩
  · exact unrun first hook runs
  · obtain ⟨-, writing, -⟩ := begun?_eq_some begun
    rw [still first] at writing
    cases writing

/-- A write that is over in the turn in which it reads the state has no hook. -/
theorem Hookless.of_answered_at_once (orderly : ∀ events, w.Orderly b events)
    {first rest : List Event} {e : Event} {mutation : Mutation} {result : Except Fault Reply}
    (begun : (w.run b first).begun? e = some (id, mutation))
    (offered : (w.run b first).offered? b e = none)
    (answered : (w.run b (first ++ [e])).log.tasks[id]? =
      some (.finished (.answered result))) :
    w.Hookless b (first ++ e :: rest) id := by
  obtain ⟨rfl, writing, -⟩ := begun?_eq_some begun
  obtain ⟨s, standing⟩ := (orderly (first ++ [.turn id])).standing
  have before : w.Hookless b first id :=
    .of_unread orderly ((orderly first).accounts.fresh writing)
  have after : (w.run b (first ++ [.turn id])).Hookless b rest id := .of_answered standing answered
  have here : (w.run b first).Hookless b [.turn id] id := by
    refine ⟨?_, fun front back split hook runs => ?_⟩
    · simp [endings, along, ended?, offered]
    · cases front with
      | nil => exact before.unrun first [] (by simp) hook runs
      | cons e' front =>
        obtain ⟨rfl, none⟩ := List.cons.inj split
        obtain ⟨rfl, rfl⟩ := List.append_eq_nil_iff.mp none.symm
        rw [← run_append] at runs
        exact after.unrun [] rest rfl hook runs
  have whole := (before.append here).append after
  rwa [List.append_assoc, List.singleton_append] at whole

/-- A write that is refused when it reads the state has no hook. -/
theorem Hookless.of_refused (orderly : ∀ events, w.Orderly b events) {first rest : List Event}
    {e : Event} {mutation : Mutation} {fault : Fault}
    (begun : (w.run b first).begun? e = some (id, mutation))
    (planned : (w.run b first).log.memory.plan mutation = .refuse fault) :
    (w.run b (first ++ [e])).log.tasks[id]? = some (.finished (.answered (.error fault))) ∧
      w.Hookless b (first ++ e :: rest) id := by
  obtain ⟨rfl, writing, holds⟩ := begun?_eq_some begun
  have stepped : (w.run b (first ++ [.turn id])).log =
      (w.run b first).log.conclude id (.answered (.error fault)) := by
    simp [run_append, step, Log.turn?, writing, holds, Log.write, planned, moved]
  have answered : (w.run b (first ++ [.turn id])).log.tasks[id]? =
      some (.finished (.answered (.error fault))) := by
    rw [stepped]
    exact (Log.turns_conclude writing _).self
  have offered : (w.run b first).offered? b (.turn id) = none := by
    simp [offered?, writing, planned]
  exact ⟨answered, .of_answered_at_once orderly begun offered answered⟩

end World

/-! ## Why a call was answered with a fault -/

/-- The fault that a hook leaves. -/
theorem Publication.fault_of_outcome {m : Memory} {p : Publication} {r : HookResult} {fault : Fault}
    (h : (p.outcome m r).1 = .error fault) :
    r = .failed fault ∨ r = .panicked ∧ fault = .hookPanicked := by
  cases r with
  | kept => cases h
  | failed told =>
    cases h
    exact .inl rfl
  | panicked =>
    cases h
    exact .inr ⟨rfl, rfl⟩

namespace World

variable {σ : Type} {b : Backend σ} {w : World σ} {id : Nat} {events : List Event}

/-- Why a call that writes was answered with a fault. -/
inductive Cause (b : Backend σ) (w : World σ) (events : List Event) (id : Nat) (c : Call)
    (fault : Fault) : Prop
  /-- There were no entries, or they could not be taken in. -/
  | refused (refused : c.Refused w.log.intake fault) (hookless : w.Hookless b events id)
  /-- The state that it read did not allow it. -/
  | invalid {first rest : List Event} {e : Event} {mutation : Mutation}
      (split : events = first ++ e :: rest) (becomes : c.Becomes w.log.intake mutation)
      (begun : (w.run b first).begun? e = some (id, mutation))
      (planned : (w.run b first).log.memory.plan mutation = .refuse fault)
      (hookless : w.Hookless b events id)
  /-- Its hook failed or stopped in the middle. -/
  | hook {first rest : List Event} {e : Event} {mutation : Mutation} {hook : Hook}
      {p : Publication} {r : HookResult} (split : events = first ++ e :: rest)
      (becomes : c.Becomes w.log.intake mutation)
      (begun : (w.run b first).begun? e = some (id, mutation))
      (planned : (w.run b first).log.memory.plan mutation = .keep hook p)
      (ended : (id, r) ∈ w.endings b events)
      (told : r = .failed fault ∨ r = .panicked ∧ fault = .hookPanicked) :
      Cause b w events id c fault

theorem mem_of_hookResult {ended : List (Nat × HookResult)} (lost : hookResult ended id ≠ .kept) :
    (id, hookResult ended id) ∈ ended := by
  cases found : ended.lookup id with
  | none => simp [hookResult, found] at lost
  | some r =>
    have result : hookResult ended id = r := by simp [hookResult, found]
    obtain ⟨before, after, rfl, -⟩ := List.lookup_eq_some_iff.mp found
    simp [result]

/-- A write has its place in the sequence from when it reads the state. -/
theorem place_of_begun {first rest : List Event} {e : Event} {x : Nat × Mutation}
    (begun : (w.run b first).begun? e = some x) :
    w.sequence b first ++ [x] <+: w.sequence b (first ++ e :: rest) := by
  have read : (w.run b first).sequence b (e :: rest) =
      x :: ((w.run b first).step b e).sequence b rest := by
    rw [World.sequence, along, begun]
    rfl
  rw [sequence_append, read]
  exact ⟨_, List.append_assoc ..⟩

theorem cause_of_answered (orderly : ∀ events, w.Orderly b events) {c : Call} {fault : Fault}
    (called : (calls events)[id]? = some c) (writes : c.isWrite = true)
    (answered : (w.run b events).log.tasks[id]? = some (.finished (.answered (.error fault)))) :
    w.Cause b events id c fault := by
  by_cases read : id ∈ w.writers b events
  · obtain ⟨⟨i, mutation⟩, mem, same⟩ := List.mem_map.mp read
    obtain rfl : i = id := same
    obtain ⟨c', called', becomes⟩ := (orderly events).origins.writes _ mem
    rw [called] at called'
    cases called'
    obtain ⟨first, e, rest, rfl, begun⟩ := mem_along.mp mem
    have place : w.sequence b first ++ [(i, mutation)] <+: w.sequence b (first ++ e :: rest) :=
      place_of_begun begun
    obtain ⟨task, found, suits⟩ := (orderly _).accounts.each _ _ place
    rw [answered] at found
    cases found
    have alike : (w.seen b (first ++ e :: rest) (w.sequence b first)).Alike
        (w.run b first).log.memory := seen_of_begun orderly begun
    have plan := alike.plan mutation
    have answer : .error fault = ((w.seen b (first ++ e :: rest) (w.sequence b first)).perform
        mutation (hookResult (w.endings b (first ++ e :: rest)) i)).1 := suits.1
    cases planned : (w.run b first).log.memory.plan mutation with
    | refuse fault' =>
      rw [Memory.perform_of_refuse (plan.symm.trans planned)] at answer
      cases answer
      exact .invalid rfl becomes begun planned (Hookless.of_refused orderly begun planned).2
    | answer reply =>
      rw [Memory.perform_of_answer (plan.symm.trans planned)] at answer
      cases answer
    | keep hook p =>
      rw [Memory.perform_of_keep (plan.symm.trans planned)] at answer
      have told := Publication.fault_of_outcome answer.symm
      have lost : hookResult (w.endings b (first ++ e :: rest)) i ≠ .kept := by
        rcases told with failed | ⟨panicked, -⟩
        · simp [failed]
        · simp [panicked]
      exact .hook rfl becomes begun planned (mem_of_hookResult lost) told
  · rcases (orderly events).answeredInOrder called writes answered with
      ⟨fault', refused, same, -⟩ | ⟨before, mutation, place, -⟩
    · cases same
      exact .refused refused (.of_unread orderly read)
    · exact absurd (List.mem_map_of_mem (place.subset (List.mem_concat_self))) read

/-! ## What the others see of it -/

/-- The task that an event is about. -/
def about? (w : World σ) : Event → Option Nat
  | .call _ => some w.log.tasks.size
  | .turn id | .hookReturns id | .abort id => some id
  | .cancel _ | .openGate _ | .pass _ => none

/-- The writes of a run but this one. -/
def without (b : Backend σ) (w : World σ) (events : List Event) (id : Nat) :
    List (Nat × Mutation) :=
  (w.sequence b events).filter fun x => decide (x.1 ≠ id)

/-- The call has changed nothing that others can see. -/
structure Unnoticed (b : Backend σ) (w : World σ) (events : List Event) (id : Nat) : Prop where
  /-- No event that is about its task changes what callers see. -/
  unchanged : ∀ first e rest, events = first ++ e :: rest → (w.run b first).about? e = some id →
    (w.run b first).log.memory.Alike ((w.run b first).step b e).log.memory
  /-- Once its hook has returned, it neither has the guard nor waits for it. -/
  guard : (∀ hook, (id, hook) ∉ (w.run b events).log.running) →
    ∀ t ∈ (w.run b events).log.guard.tickets, t.task ≠ id
  /-- If nobody else has the guard either, then it is free. -/
  free : (w.run b events).log.guard.holders = [] → (w.run b events).log.guard = .free
  /-- At any time the memory is what the other writes lead to. -/
  memory : ∀ first rest, events = first ++ rest →
    (w.seen b first (w.without b first id)).Alike (w.run b first).log.memory
  /-- The other calls are answered as in the sequence of the other writes. -/
  others : ∀ j c result, j ≠ id → (calls events)[j]? = some c → c.isWrite = true →
    (w.run b events).log.tasks[j]? = some (.finished (.answered result)) →
      (∃ fault, c.Refused w.log.intake fault ∧ result = .error fault) ∨
        ∃ before mutation, before ++ [(j, mutation)] <+: w.without b events id ∧
          c.Becomes w.log.intake mutation ∧
          ((w.seen b events before).perform mutation (hookResult (w.endings b events) j)).1 = result

/-- Leaving out what is not visible changes nothing. -/
theorem visible_filter {begun : List (Nat × Mutation)} {published : List Nat}
    (hidden : id ∉ published) :
    visible (begun.filter fun x => decide (x.1 ≠ id)) published = visible begun published := by
  rw [visible, List.filter_filter]
  refine List.filter_congr fun x _ => ?_
  by_cases shown : x.1 ∈ published
  · have other : x.1 ≠ id := fun same => hidden (same ▸ shown)
    simp [shown, other]
  · simp [shown]

theorem unnoticed_of_hidden (orderly : ∀ events, w.Orderly b events) {result : TaskResult}
    (ended : (w.run b events).log.tasks[id]? = some (.finished result))
    (settled : (w.run b events).log.guard.Settled) (hidden : id ∉ w.shown b events) :
    w.Unnoticed b events id where
  unchanged first e rest split about := by
    refine alike_of_hidden (Option.eq_none_iff_forall_ne_some.mpr fun j published => hidden ?_)
    obtain ⟨rfl, -⟩ := published?_eq_some published
    obtain rfl : j = id := Option.some.inj about
    exact mem_along.mpr ⟨first, .turn j, rest, split, published⟩
  guard hookless := by
    obtain ⟨s, standing⟩ := (orderly events).standing
    exact standing.no_ticket_of_finished ended hookless
  free := settled.eq_free
  memory first rest split := by
    have unseen : id ∉ w.shown b first := by
      intro shown
      rw [World.shown, split, along_append] at hidden
      exact hidden (List.mem_append_left _ shown)
    rw [seen, without, visible_filter unseen]
    exact (orderly first).accounts.memory
  others j c result other called writes answered := by
    rcases (orderly events).answeredInOrder called writes answered with
      ⟨fault, refused, same, -⟩ | ⟨before, mutation, place, answer, -⟩
    · exact .inl ⟨fault, refused, same⟩
    · obtain ⟨c', called', becomes⟩ :=
        (orderly events).origins.writes _ (place.subset List.mem_concat_self)
      rw [called] at called'
      cases called'
      refine .inr ⟨before.filter fun x => decide (x.1 ≠ id), mutation, ?_, becomes, ?_⟩
      · have kept := place.filter fun x => decide (x.1 ≠ id)
        rwa [List.filter_append, List.filter_cons_of_pos (by simpa using other), List.filter_nil]
          at kept
      · rw [seen, visible_filter hidden]
        exact answer

end World

/-- **A call that fails goes unnoticed**, and what is refused before a hook runs has no hook. -/
theorem failed_call_unnoticed {σ : Type} (b : Backend σ) (config : Config) (r : Replica) (store : σ)
    {events : List Event} {id : Nat} {c : Call} {result : TaskResult}
    (called : (calls events)[id]? = some c) (writes : c.isWrite = true)
    (ended : ((World.start config r store).run b events).log.tasks[id]? = some (.finished result))
    (failed : ∀ reply, result ≠ .answered (.ok reply)) :
    (World.start config r store).Unnoticed b events id ∧
      ∀ fault, result = .answered (.error fault) →
        (World.start config r store).Cause b events id c fault := by
  have orderly := World.orderly_run b config r store
  refine ⟨World.unnoticed_of_hidden orderly ended (World.settled_run config r store events) ?_, ?_⟩
  · intro shown
    obtain ⟨-, -, reply, answered⟩ := (orderly events).accounts.shown id shown
    rw [ended] at answered
    cases answered
    exact failed reply rfl
  · rintro fault rfl
    exact World.cause_of_answered orderly called writes ended

/-- The fault that a task was answered with. -/
def Log.fault? (log : Log) (id : Nat) : Option Fault :=
  match log.tasks[id]? with
  | some (.finished (.answered (.error fault))) => some fault
  | _ => none

theorem Log.task_of_fault? {log : Log} {id : Nat} {fault : Fault}
    (told : log.fault? id = some fault) :
    log.tasks[id]? = some (.finished (.answered (.error fault))) := by
  unfold fault? at told
  split at told
  · next found =>
    cases told
    exact found
  · cases told

/-- A vote that cannot be kept leaves no trace between two writes that can. -/
theorem failed_call_unnoticed_vote :
    let full : Fault := .file (.system .noSpace)
    let b : Backend Unit :=
      ⟨true, fun hook s => (if hook = .term 1 (some ⟨7⟩) then .failed full else .kept, s)⟩
    let events : List Event :=
      Call.nextTerm.awaited 0 ++ (Call.vote ⟨7⟩).awaited 1 ++ Call.nextTerm.awaited 2
    (calls events)[1]? = some (.vote ⟨7⟩) ∧
      ((World.start .default .empty ()).run b events).log.tasks[1]? =
        some (.finished (.answered (.error full))) ∧
      (World.start .default .empty ()).Unnoticed b events 1 ∧
      (World.start .default .empty ()).Cause b events 1 (.vote ⟨7⟩) full ∧
      (World.start .default .empty ()).without b events 1 = [(0, .nextTerm), (2, .nextTerm)] ∧
      ((World.start .default .empty ()).run b events).log.memory.term = 2 := by
  intro full b events
  have called : (calls events)[1]? = some (.vote ⟨7⟩) := rfl
  have ended : ((World.start .default .empty ()).run b events).log.tasks[1]? =
      some (.finished (.answered (.error full))) := Log.task_of_fault? (by decide +kernel)
  obtain ⟨unnoticed, cause⟩ := failed_call_unnoticed b .default .empty () called rfl ended (by simp)
  refine ⟨called, ended, unnoticed, cause full rfl, ?_, ?_⟩
  · decide +kernel
  · decide +kernel

end DurableLog
