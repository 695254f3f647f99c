import DurableLog.Proofs.Deeds
import Mathlib.Data.List.Nodup

/-!
# Writes in sequence

The writes of a run, in the order in which they read the state with the guard in hand, are its
*sequence*; a part of them becomes visible. `Accounts` says that memory and answers are those of
the visible writes done one after another with nobody else around (`Memory.after`,
`Memory.perform`): the memory is what they lead to, and each write that is over was answered what it
is answered at its place.

1. What two writes one after another do depends on the memory alone, not on who waits.
2. The write under way is the last of the sequence and is not visible yet. So when it becomes
   visible, the memory is still the one it has read, and nothing before it changes.
3. Every event keeps the accounts (`World.accounts_step`): it is aside, or it takes the last write on
   by one turn.
-/

namespace DurableLog

/-- A backend on which every hook ends in the same way. -/
def Backend.always (r : HookResult) : Backend Unit := ⟨false, fun _ s => (r, s)⟩

/-- What a write can publish. -/
inductive Mutation.Publishes (m : Memory) : Mutation → Publication → Prop
  | append {entries : Array Entry} {start : Option Nat} {place : Nat} :
      Publishes m (.append entries start) (.append m.snapshot place entries)
  | commit {last : Option Nat} {target : Nat} :
      Publishes m (.commit last) (.commit (m.commitIndex + 1) target)
  | setTerm {term : Term} : Publishes m (.setTerm term) (.setTerm term)
  | nextTerm : Publishes m .nextTerm .nextTerm
  | vote {candidate : Member} : Publishes m (.vote candidate) (.vote candidate)

namespace Memory

variable {m m' m'' : Memory} {mutation : Mutation} {r : HookResult}

theorem publishes_of_plan {hook : Hook} {p : Publication}
    (planned : m.plan mutation = .keep hook p) : mutation.Publishes m p := by
  cases mutation with
  | append entries start =>
    cases start with
    | none =>
      cases planned
      exact .append
    | some start =>
      simp only [plan] at planned
      split at planned
      · cases planned
      · split at planned
        · cases planned
        · cases planned
          exact .append
  | commit last =>
    simp only [plan] at planned
    split at planned
    · cases planned
    · split at planned
      · cases planned
      · cases planned
        exact .commit
  | setTerm term =>
    cases planned
    exact .setTerm
  | nextTerm =>
    cases planned
    exact .nextTerm
  | vote candidate =>
    cases planned
    exact .vote

/-- A write from plan to answer with nobody else around, whose hook ends with `r`. -/
def perform (m : Memory) (mutation : Mutation) (r : HookResult) : Except Fault Reply × Memory :=
  match (Backend.always r).perform mutation m () with
  | (reply, m, _) => (reply, m)

/-- The memory after writes one after another, all of them kept. -/
def after (m : Memory) (writes : List (Nat × Mutation)) : Memory :=
  writes.foldl (fun m x => (m.perform x.2 .kept).2) m

theorem after_concat (m : Memory) (writes : List (Nat × Mutation)) (x : Nat × Mutation) :
    m.after (writes ++ [x]) = ((m.after writes).perform x.2 .kept).2 := by
  rw [after, after, List.foldl_concat]

theorem perform_of_refuse {fault : Fault} (planned : m.plan mutation = .refuse fault) :
    m.perform mutation r = (.error fault, m) := by
  simp only [perform, Backend.perform, planned]

theorem perform_of_answer {reply : Reply} (planned : m.plan mutation = .answer reply) :
    m.perform mutation r = (.ok reply, m) := by
  simp only [perform, Backend.perform, planned]

theorem perform_of_keep {hook : Hook} {p : Publication}
    (planned : m.plan mutation = .keep hook p) : m.perform mutation r = p.outcome m r := by
  simp only [perform, Backend.perform, planned, Backend.always]

/-- The write has something kept. -/
def HasKept (m : Memory) (mutation : Mutation) (r : HookResult) : Prop :=
  r = .kept ∧ ∃ hook p, m.plan mutation = .keep hook p

/-- A write that ends well has something kept, or there was nothing to change. -/
theorem hasKept_or_answer {reply : Reply} (answered : (m.perform mutation r).1 = .ok reply) :
    m.HasKept mutation r ∨ m.plan mutation = .answer reply := by
  cases planned : m.plan mutation with
  | refuse fault =>
    rw [perform_of_refuse planned] at answered
    cases answered
  | answer reply' =>
    rw [perform_of_answer planned] at answered
    cases answered
    exact .inr rfl
  | keep hook p =>
    rw [perform_of_keep planned] at answered
    cases r with
    | kept => exact .inl ⟨rfl, hook, p, planned⟩
    | failed fault => cases answered
    | panicked => cases answered

/-- A write that ends well ends as if its hook kept everything. -/
theorem perform_of_ok {reply : Reply} (answered : (m.perform mutation r).1 = .ok reply) :
    m.perform mutation r = m.perform mutation .kept := by
  rcases hasKept_or_answer answered with ⟨rfl, -⟩ | planned
  · rfl
  · rw [perform_of_answer planned, perform_of_answer planned]

/-- Any other write leaves the memory alone. -/
theorem perform_of_not_hasKept (h : ¬ m.HasKept mutation r) : (m.perform mutation r).2 = m := by
  cases planned : m.plan mutation with
  | refuse fault => rw [perform_of_refuse planned]
  | answer reply => rw [perform_of_answer planned]
  | keep hook p =>
    rw [perform_of_keep planned]
    exact p.outcome_of_not_kept m fun kept => h ⟨kept, hook, p, planned⟩

/-- A write leaves the memory alone, or its publication is made. -/
theorem perform_cases (m : Memory) (mutation : Mutation) (r : HookResult) :
    (m.perform mutation r).2 = m ∨
      ∃ p, mutation.Publishes m p ∧ (m.perform mutation r).2 = (p.apply m).1 := by
  by_cases kept : m.HasKept mutation r
  · obtain ⟨rfl, hook, p, planned⟩ := kept
    refine .inr ⟨p, publishes_of_plan planned, ?_⟩
    rw [perform_of_keep planned]
    rfl
  · exact .inl (perform_of_not_hasKept kept)

/-- Only commits move the commit index. -/
theorem commitIndex_perform_of_no_commit (m : Memory) {mutation : Mutation} (r : HookResult)
    (other : ∀ last, mutation ≠ .commit last) :
    (m.perform mutation r).2.commitIndex = m.commitIndex := by
  rcases m.perform_cases mutation r with same | ⟨p, publishes, published⟩
  · rw [same]
  · rw [published]
    cases publishes with
    | append => rfl
    | commit => exact absurd rfl (other _)
    | setTerm => rfl
    | nextTerm => rfl
    | vote => rfl

/-! ## Memories that differ in who waits -/

theorem Alike.trans (h : m.Alike m') (h' : m'.Alike m'') : m.Alike m'' where
  snapshot := h'.snapshot.trans h.snapshot
  commitIndex := h'.commitIndex.trans h.commitIndex
  published := h'.published.trans h.published
  term := h'.term.trans h.term
  vote := h'.vote.trans h.vote

theorem Alike.outcome (h : m.Alike m') (p : Publication) (r : HookResult) :
    (p.outcome m' r).1 = (p.outcome m r).1 ∧ (p.outcome m r).2.Alike (p.outcome m' r).2 := by
  cases r with
  | kept =>
    refine ⟨?_, h.apply p⟩
    cases p with
    | nextTerm => simp only [Publication.outcome, Publication.apply, h.term]
    | _ => rfl
  | failed fault => exact ⟨rfl, h⟩
  | panicked => exact ⟨rfl, h⟩

theorem Alike.perform (h : m.Alike m') (mutation : Mutation) (r : HookResult) :
    (m'.perform mutation r).1 = (m.perform mutation r).1 := by
  have plan := h.plan mutation
  cases planned : m.plan mutation with
  | refuse fault => rw [perform_of_refuse planned, perform_of_refuse (plan.trans planned)]
  | answer reply => rw [perform_of_answer planned, perform_of_answer (plan.trans planned)]
  | keep hook p =>
    rw [perform_of_keep planned, perform_of_keep (plan.trans planned)]
    exact (h.outcome p r).1

theorem Alike.hasKept (h : m.Alike m') : m'.HasKept mutation r ↔ m.HasKept mutation r := by
  rw [HasKept, HasKept, h.plan]

end Memory

/-! ## What a run has done -/

/-- The writes that have become visible, in the order in which they read the state. -/
def visible (begun : List (Nat × Mutation)) (published : List Nat) : List (Nat × Mutation) :=
  begun.filter fun x => decide (x.1 ∈ published)

theorem visible_concat_of_not_mem {begun : List (Nat × Mutation)} {published : List Nat}
    {x : Nat × Mutation} (h : x.1 ∉ published) :
    visible (begun ++ [x]) published = visible begun published := by
  simp [visible, h]

/-- Writes that are not among these do not change which of them are visible. -/
theorem visible_append {begun : List (Nat × Mutation)} (published : List Nat) {later : List Nat}
    (h : ∀ id ∈ later, id ∉ begun.map Prod.fst) :
    visible begun (published ++ later) = visible begun published := by
  refine List.filter_congr fun x hx => ?_
  have absent : x.1 ∉ later := fun mem => h x.1 mem (List.mem_map_of_mem hx)
  simp [absent]

/-- The last write becomes visible behind what is visible of the others. -/
theorem visible_concat_self {before : List (Nat × Mutation)} (published : List Nat)
    {x : Nat × Mutation} (h : x.1 ∉ before.map Prod.fst) :
    visible (before ++ [x]) (published ++ [x.1]) = visible before published ++ [x] := by
  rw [← visible_append published (List.forall_mem_singleton.mpr h)]
  simp [visible]

theorem nodup_concat {α : Type} {list : List (Nat × α)} {x : Nat × α}
    (h : (list.map Prod.fst).Nodup) (new : x.1 ∉ list.map Prod.fst) :
    ((list ++ [x]).map Prod.fst).Nodup := by
  rw [List.map_append]
  simpa using List.Nodup.concat new h

/-- How the hook of a task has ended; a task without one counts as kept. -/
def hookResult (ended : List (Nat × HookResult)) (id : Nat) : HookResult :=
  (ended.lookup id).getD .kept

theorem lookup_of_not_mem {ended : List (Nat × HookResult)} {id : Nat}
    (h : id ∉ ended.map Prod.fst) : ended.lookup id = none := by
  rw [List.lookup_eq_none_iff]
  intro x hx
  have ne : id ≠ x.1 := fun same => h (same ▸ List.mem_map_of_mem hx)
  simpa using ne

theorem hookResult_of_not_mem {ended : List (Nat × HookResult)} {id : Nat}
    (h : id ∉ ended.map Prod.fst) : hookResult ended id = .kept := by
  rw [hookResult, lookup_of_not_mem h]
  rfl

theorem hookResult_concat_self {ended : List (Nat × HookResult)} {id : Nat}
    (h : id ∉ ended.map Prod.fst) (r : HookResult) : hookResult (ended ++ [(id, r)]) id = r := by
  simp [hookResult, List.lookup_append, lookup_of_not_mem h]

theorem hookResult_concat_other (ended : List (Nat × HookResult)) {id i : Nat} (other : i ≠ id)
    (r : HookResult) : hookResult (ended ++ [(id, r)]) i = hookResult ended i := by
  have skipped : [(id, r)].lookup i = none := lookup_of_not_mem (by simpa using other)
  rw [hookResult, List.lookup_append, skipped, Option.or_none, hookResult]

/-! ## The write under way -/

/-- The task has read the state, its hook has not stopped in the middle, and it has neither
published nor given up. -/
def Log.Underway (log : Log) (id : Nat) : Prop :=
  (∃ hook, (id, hook) ∈ log.running) ∨
    ∃ p result, log.tasks[id]? = some (.kept p result) ∧ result ≠ .panicked

/-- There is at most one write under way. -/
theorem Log.At.owner_of_underway {log : Log} {s : Stage} {id : Nat} (h : log.At s)
    (underway : log.Underway id) : s.owner = some id := by
  rcases underway with ⟨hook, runs⟩ | ⟨p, result, ht, ended⟩
  · have stands := h.stands
    cases s with
    | idle =>
      have none_running : log.running = [] := stands
      rw [none_running] at runs
      cases runs
    | running task hook' p =>
      rw [stands.1, List.mem_singleton] at runs
      cases runs
      rfl
    | returned task hook' p result =>
      rw [stands.1] at runs
      cases runs
  · exact h.pending id _ ht ended

theorem Log.At.none_underway {log : Log} (h : log.At .idle) (id : Nat) : ¬ log.Underway id := by
  intro underway
  cases h.owner_of_underway underway

/-- What is under way of the tasks that have not changed was under way before. -/
theorem Log.Underway.before {log log' : Log} {id i : Nat} (underway : log'.Underway i)
    (other : i ≠ id) (others : ∀ i, i ≠ id → log'.tasks[i]? = log.tasks[i]?)
    (running : ∀ x ∈ log'.running, x.1 ≠ id → x ∈ log.running) : log.Underway i := by
  rcases underway with ⟨hook, runs⟩ | ⟨p, result, ht, alive⟩
  · exact .inl ⟨hook, running _ runs other⟩
  · rw [others i other] at ht
    exact .inr ⟨p, result, ht, alive⟩

/-! ## Accounts -/

/-- What the task of a write holds that has read this memory and whose hook ends with `r`; once it
is answered, what it had kept is `shown`. -/
def Task.Suits (m : Memory) (mutation : Mutation) (r : HookResult) (shown : Prop) : Task → Prop
  | .keeping p => ∃ hook, m.plan mutation = .keep hook p
  | .kept p result => result = r ∧ ∃ hook, m.plan mutation = .keep hook p
  | .finished (.answered result) =>
    result = (m.perform mutation r).1 ∧ (m.HasKept mutation r → shown)
  | .finished _ => True
  | _ => False

/-- The task may hold the same of a memory alike, and when more is shown. -/
theorem Task.Suits.of_alike {m m' : Memory} (h : m.Alike m') {mutation : Mutation} {r : HookResult}
    {shown shown' : Prop} (more : shown → shown') {task : Task}
    (suits : task.Suits m' mutation r shown) : task.Suits m mutation r shown' := by
  cases task with
  | keeping p =>
    obtain ⟨hook, planned⟩ := suits
    exact ⟨hook, by rw [← h.plan, planned]⟩
  | kept p result =>
    obtain ⟨same, hook, planned⟩ := suits
    exact ⟨same, hook, by rw [← h.plan, planned]⟩
  | finished result =>
    cases result with
    | answered result =>
      obtain ⟨answer, visible⟩ := suits
      exact ⟨answer.trans (h.perform mutation r), fun keeps => more (visible (h.hasKept.mpr keeps))⟩
    | aborted => trivial
    | panicked => trivial
  | capturing _ _ _ => exact suits.elim
  | writing _ => exact suits.elim
  | reading _ _ => exact suits.elim
  | waiting _ => exact suits.elim

/-- The memory and the answers are those of the visible writes, one after another, in a log that
started with the memory `m`. -/
structure Accounts (m : Memory) (begun : List (Nat × Mutation)) (published : List Nat)
    (ended : List (Nat × HookResult)) (log : Log) : Prop where
  memory : (m.after (visible begun published)).Alike log.memory
  once : (begun.map Prod.fst).Nodup
  /-- A write sees what is visible of the writes before it. -/
  each : ∀ before x, before ++ [x] <+: begun → ∃ task, log.tasks[x.1]? = some task ∧
    task.Suits (m.after (visible before published)) x.2 (hookResult ended x.1) (x.1 ∈ published)
  /-- The write under way is the last one, and not visible yet. -/
  last : ∀ id, log.Underway id →
    id ∉ published ∧ ∃ before mutation, begun = before ++ [(id, mutation)]
  ends : (ended.map Prod.fst).Nodup
  runs : ∀ x ∈ log.running, x.1 ∉ ended.map Prod.fst
  hooks : ∀ x ∈ ended, x.1 ∈ begun.map Prod.fst
  told : ∀ id p result, log.tasks[id]? = some (.kept p result) → (id, result) ∈ ended
  shown : ∀ id ∈ published, id ∈ begun.map Prod.fst ∧ (id, .kept) ∈ ended ∧
    ∃ reply, log.tasks[id]? = some (.finished (.answered (.ok reply)))

namespace Accounts

variable {m : Memory} {begun : List (Nat × Mutation)} {published : List Nat}
  {ended : List (Nat × HookResult)} {log log' : Log} {id : Nat} {mutation : Mutation}

theorem fresh_log (config : Config) (r : Replica) :
    Accounts (.ofReplica r) [] [] [] (.ofReplica config r) where
  memory := .refl _
  once := List.nodup_nil
  each before x hx := by simp at hx
  last id underway := absurd underway ((Log.at_ofReplica config r).none_underway id)
  ends := List.nodup_nil
  runs := List.forall_mem_nil _
  hooks := List.forall_mem_nil _
  told id p result ht := by simp [Log.ofReplica] at ht
  shown := List.forall_mem_nil _

/-- A task that waits for the guard has not read the state. -/
theorem fresh (h : Accounts m begun published ended log)
    (ht : log.tasks[id]? = some (.writing mutation)) : id ∉ begun.map Prod.fst := by
  intro mem
  obtain ⟨x, hx, rfl⟩ := List.mem_map.mp mem
  obtain ⟨before, after, rfl⟩ := List.append_of_mem hx
  obtain ⟨task, found, suits⟩ := h.each before x ⟨after, by simp⟩
  rw [ht] at found
  cases found
  exact suits

/-- An event that is aside changes no accounts. -/
theorem aside {σ : Type} {w : World σ} {e : Event} (h : Accounts m begun published ended w.log)
    (running : log'.running = w.log.running) (memory : w.log.memory.Alike log'.memory)
    (tasks : ∀ id : Nat, w.Aside e id w.log.tasks[id]? log'.tasks[id]?) :
    Accounts m begun published ended log' where
  memory := h.memory.trans memory
  once := h.once
  each before x hx := by
    obtain ⟨task, found, suits⟩ := h.each before x hx
    have aside := tasks x.1
    rw [found] at aside
    generalize log'.tasks[x.1]? = new at aside
    cases aside with
    | stays => exact ⟨task, rfl, suits⟩
    | drops alive => exact ⟨_, rfl, trivial⟩
    | captures signals goes => exact suits.elim
    | reads result => exact suits.elim
    | waits result => exact suits.elim
  last i underway := by
    refine h.last i ?_
    rcases underway with ⟨hook, runs⟩ | ⟨p, result, ht, kept⟩
    · rw [running] at runs
      exact .inl ⟨hook, runs⟩
    · have aside := tasks i
      rw [ht] at aside
      exact .inr ⟨p, result, aside.of_kept, kept⟩
  ends := h.ends
  runs := by
    rw [running]
    exact h.runs
  hooks := h.hooks
  told i p result ht := by
    have aside := tasks i
    rw [ht] at aside
    exact h.told i p result aside.of_kept
  shown i hi := by
    obtain ⟨mem, kept, reply, answered⟩ := h.shown i hi
    have aside := tasks i
    rw [answered] at aside
    generalize log'.tasks[i]? = new at aside
    cases aside with
    | stays => exact ⟨mem, kept, reply, rfl⟩
    | drops alive => exact absurd rfl (alive _)

/-! ## The turns of a write -/

/-- Two writes under way would both be the last one. -/
theorem underway_eq (h : Accounts m begun published ended log) {i : Nat}
    (underway : log.Underway i) (underway' : log.Underway id) : i = id := by
  obtain ⟨-, before, mutation, whole⟩ := h.last i underway
  obtain ⟨-, before', mutation', whole'⟩ := h.last id underway'
  rw [whole] at whole'
  obtain ⟨-, same⟩ := List.append_inj' whole' rfl
  cases same
  rfl

theorem shown_other (h : Accounts m begun published ended log) (hidden : id ∉ published)
    (others : ∀ i, i ≠ id → log'.tasks[i]? = log.tasks[i]?) {i : Nat} (shown : i ∈ published) :
    i ∈ begun.map Prod.fst ∧ (i, .kept) ∈ ended ∧
      ∃ reply, log'.tasks[i]? = some (.finished (.answered (.ok reply))) := by
  have other : i ≠ id := by
    rintro rfl
    exact hidden shown
  rw [others i other]
  exact h.shown i shown

theorem told_other (h : Accounts m begun published ended log) {task : Task}
    (self : log'.tasks[id]? = some task) (unreturned : ∀ p result, task ≠ .kept p result)
    (others : ∀ i, i ≠ id → log'.tasks[i]? = log.tasks[i]?) (i : Nat) (p : Publication)
    (result : HookResult) (ht : log'.tasks[i]? = some (.kept p result)) : (i, result) ∈ ended := by
  by_cases mine : i = id
  · rw [mine, self] at ht
    cases ht
    exact absurd rfl (unreturned p result)
  · rw [others i mine] at ht
    exact h.told i p result ht

/-- A write reads the state. It is the last of the sequence from now on. -/
theorem begins {task : Task} (h : Accounts m begun published ended log)
    (fresh : id ∉ begun.map Prod.fst) (alone : ∀ i, ¬ log.Underway i)
    (self : log'.tasks[id]? = some task) (others : ∀ i, i ≠ id → log'.tasks[i]? = log.tasks[i]?)
    (running : ∀ x ∈ log'.running, x.1 = id) (memory : log'.memory = log.memory)
    (unreturned : ∀ p result, task ≠ .kept p result)
    (suits : task.Suits log.memory mutation .kept False) :
    Accounts m (begun ++ [(id, mutation)]) published ended log' := by
  have hidden : id ∉ published := fun shown => fresh (h.shown id shown).1
  have unended : id ∉ ended.map Prod.fst := by
    intro mem
    obtain ⟨x, hx, rfl⟩ := List.mem_map.mp mem
    exact fresh (h.hooks x hx)
  have longer {i : Nat} (mem : i ∈ begun.map Prod.fst) :
      i ∈ (begun ++ [(id, mutation)]).map Prod.fst := by
    rw [List.map_append]
    exact List.mem_append_left _ mem
  refine ⟨?memory, ?once, ?each, ?last, h.ends, ?runs, fun x hx => longer (h.hooks x hx),
    h.told_other self unreturned others, ?shown⟩
  case memory =>
    rw [visible_concat_of_not_mem hidden, memory]
    exact h.memory
  case once => exact nodup_concat h.once fresh
  case each =>
    intro before x hx
    rcases List.prefix_concat_iff.mp hx with same | within
    · obtain ⟨rfl, self_eq⟩ := List.append_inj' same rfl
      cases self_eq
      refine ⟨task, self, ?_⟩
      rw [hookResult_of_not_mem unended]
      exact suits.of_alike h.memory False.elim
    · obtain ⟨old, found, suits⟩ := h.each before x within
      have other : x.1 ≠ id := by
        rintro rfl
        exact fresh (List.mem_map_of_mem (within.subset (by simp)))
      exact ⟨old, by rw [others _ other, found], suits⟩
  case last =>
    intro i underway
    have mine : i = id := Classical.byContradiction fun other =>
      alone i (underway.before other others fun x hx ne => absurd (running x hx) ne)
    subst mine
    exact ⟨hidden, begun, mutation, rfl⟩
  case runs =>
    intro x hx
    rw [running x hx]
    exact unended
  case shown =>
    intro i hi
    obtain ⟨mem, rest⟩ := h.shown_other hidden others hi
    exact ⟨longer mem, rest⟩

/-- The hook of the write under way returns, to its task or to nobody. -/
theorem returns {p : Publication} {hook : Hook} {result : HookResult}
    (h : Accounts m begun published ended log) (ran : (id, hook) ∈ log.running)
    (task : log.tasks[id]? = some (.keeping p) ∧ log'.tasks[id]? = some (.kept p result) ∨
      log.tasks[id]? = some (.finished .aborted) ∧ log'.tasks[id]? = some (.finished .aborted))
    (others : ∀ i, i ≠ id → log'.tasks[i]? = log.tasks[i]?) (running : log'.running = [])
    (memory : log'.memory = log.memory) :
    Accounts m begun published (ended ++ [(id, result)]) log' := by
  obtain ⟨hidden, before, mutation, whole⟩ := h.last id (.inl ⟨hook, ran⟩)
  have unended := h.runs _ ran
  refine ⟨?memory, h.once, ?each, ?last, nodup_concat h.ends unended, ?runs, ?hooks, ?told, ?shown⟩
  case memory =>
    rw [memory]
    exact h.memory
  case each =>
    intro before x hx
    obtain ⟨old, found, suits⟩ := h.each before x hx
    by_cases mine : x.1 = id
    · rw [mine] at found ⊢
      rw [hookResult_concat_self unended]
      rcases task with ⟨keeping, kept⟩ | ⟨dropped, still⟩
      · rw [keeping] at found
        cases found
        exact ⟨_, kept, rfl, suits⟩
      · exact ⟨_, still, trivial⟩
    · rw [hookResult_concat_other ended mine, others _ mine]
      exact ⟨old, found, suits⟩
  case last =>
    intro i underway
    refine h.last i ?_
    by_cases mine : i = id
    · exact .inl ⟨hook, mine ▸ ran⟩
    · exact underway.before mine others fun x hx _ => by simp [running] at hx
  case runs =>
    rw [running]
    exact List.forall_mem_nil _
  case hooks =>
    refine List.forall_mem_append.mpr ⟨h.hooks, ?_⟩
    rw [whole]
    simp
  case told =>
    intro i p' result' ht
    by_cases mine : i = id
    · subst mine
      rcases task with ⟨-, kept⟩ | ⟨-, still⟩
      · rw [kept] at ht
        cases ht
        simp
      · rw [still] at ht
        cases ht
    · rw [others i mine] at ht
      exact List.mem_append_left _ (h.told i p' result' ht)
  case shown =>
    intro i hi
    obtain ⟨mem, kept, answered⟩ := h.shown_other hidden others hi
    exact ⟨mem, List.mem_append_left _ kept, answered⟩

/-- The write under way becomes visible if its hook has kept it, and is answered. -/
theorem publishes {p : Publication} {result : HookResult}
    (h : Accounts m begun published ended log)
    (ht : log.tasks[id]? = some (.kept p result)) (alive : result ≠ .panicked)
    (self : log'.tasks[id]? = some (.finished (.answered (p.outcome log.memory result).1)))
    (others : ∀ i, i ≠ id → log'.tasks[i]? = log.tasks[i]?) (running : log'.running = [])
    (memory : log'.memory = (p.outcome log.memory result).2) :
    Accounts m begun (published ++ if result = .kept then [id] else []) ended log' := by
  have mine : log.Underway id := .inr ⟨p, result, ht, alive⟩
  obtain ⟨hidden, before, mutation, rfl⟩ := h.last id mine
  obtain ⟨task, found, suits⟩ := h.each before (id, mutation) (List.prefix_refl _)
  rw [ht] at found
  cases found
  obtain ⟨ended_eq, hook, planned⟩ := suits
  have absent : id ∉ before.map Prod.fst := by
    have once := h.once
    rw [List.map_append, List.nodup_append] at once
    exact fun mem => once.2.2 id mem id (by simp) rfl
  -- the memory is still the one that the write has read
  have read := h.memory
  rw [visible_concat_of_not_mem hidden] at read
  obtain ⟨answer, outcome⟩ := read.outcome p result
  have earlier {writes : List (Nat × Mutation)} (others : id ∉ writes.map Prod.fst) :
      visible writes (published ++ if result = .kept then [id] else []) =
        visible writes published := by
    by_cases kept : result = .kept
    · rw [if_pos kept, visible_append published (List.forall_mem_singleton.mpr others)]
    · rw [if_neg kept, List.append_nil]
  refine ⟨?memory, h.once, ?each, ?last, h.ends, ?runs, h.hooks,
    h.told_other self (by simp) others, ?shown⟩
  case memory =>
    rw [memory]
    by_cases kept : result = .kept
    · rw [if_pos kept, visible_concat_self published absent, Memory.after_concat,
        Memory.perform_of_keep planned, ← kept]
      exact outcome
    · rw [if_neg kept, List.append_nil, visible_concat_of_not_mem hidden,
        p.outcome_of_not_kept log.memory kept]
      exact read
  case each =>
    intro before' x hx
    rcases List.prefix_concat_iff.mp hx with same | within
    · obtain ⟨rfl, self_eq⟩ := List.append_inj' same rfl
      cases self_eq
      refine ⟨_, self, ?_⟩
      rw [earlier absent, ← ended_eq]
      refine ⟨by rw [Memory.perform_of_keep planned, answer], fun keeps => ?_⟩
      rw [if_pos keeps.1]
      exact List.mem_append_right _ (List.mem_singleton.mpr rfl)
    · obtain ⟨old, found, suits⟩ := h.each before' x (List.prefix_concat_iff.mpr (.inr within))
      have mem : x.1 ∈ before.map Prod.fst := List.mem_map_of_mem (within.subset (by simp))
      have other : x.1 ≠ id := fun same => absent (same ▸ mem)
      have absent' : id ∉ before'.map Prod.fst := by
        intro mem
        obtain ⟨y, hy, rfl⟩ := List.mem_map.mp mem
        exact absent (List.mem_map_of_mem (within.subset (List.mem_append_left _ hy)))
      rw [earlier absent', others _ other]
      exact ⟨old, found, suits.of_alike (.refl _) (List.mem_append_left _)⟩
  case last =>
    intro i underway
    exfalso
    have other : i ≠ id := by
      rintro rfl
      rcases underway with ⟨hook, runs⟩ | ⟨p, result, ht, kept⟩
      · rw [running] at runs
        cases runs
      · rw [self] at ht
        cases ht
    have earlier : log.Underway i :=
      underway.before other others fun x hx _ => by simp [running] at hx
    exact other (h.underway_eq earlier mine)
  case runs =>
    rw [running]
    exact List.forall_mem_nil _
  case shown =>
    intro i hi
    rcases List.mem_append.mp hi with old | new
    · exact h.shown_other hidden others old
    · by_cases kept : result = .kept
      · rw [if_pos kept, List.mem_singleton] at new
        subst new kept
        exact ⟨by simp, h.told _ _ _ ht, (p.apply log.memory).2, self⟩
      · rw [if_neg kept] at new
        cases new

/-- A task whose hook has stopped in the middle is told so. -/
theorem answers {p : Publication} {answer : TaskResult}
    (h : Accounts m begun published ended log)
    (ht : log.tasks[id]? = some (.kept p .panicked))
    (self : log'.tasks[id]? = some (.finished answer))
    (told : answer = .answered (.error .hookPanicked) ∨ answer = .panicked)
    (others : ∀ i, i ≠ id → log'.tasks[i]? = log.tasks[i]?) (running : log'.running = log.running)
    (memory : log'.memory = log.memory) : Accounts m begun published ended log' := by
  have hidden : id ∉ published := by
    intro shown
    obtain ⟨-, -, reply, answered⟩ := h.shown id shown
    rw [ht] at answered
    cases answered
  refine ⟨?memory, h.once, ?each, ?last, h.ends, ?runs, h.hooks,
    h.told_other self (by simp) others, fun i hi => h.shown_other hidden others hi⟩
  case memory =>
    rw [memory]
    exact h.memory
  case each =>
    intro before x hx
    obtain ⟨old, found, suits⟩ := h.each before x hx
    by_cases mine : x.1 = id
    · rw [mine] at found ⊢
      rw [ht] at found
      cases found
      obtain ⟨ended_eq, hook, planned⟩ := suits
      refine ⟨_, self, ?_⟩
      rcases told with rfl | rfl
      · rw [mine] at ended_eq
        rw [← ended_eq]
        exact ⟨by rw [Memory.perform_of_keep planned]; rfl, fun keeps => nomatch keeps.1⟩
      · trivial
    · rw [others _ mine]
      exact ⟨old, found, suits⟩
  case last =>
    intro i underway
    refine h.last i ?_
    by_cases mine : i = id
    · rcases underway with ⟨hook, runs⟩ | ⟨p, result, kept, alive⟩
      · rw [running] at runs
        exact .inl ⟨hook, runs⟩
      · rw [mine, self] at kept
        cases kept
    · exact underway.before mine others fun x hx _ => running ▸ hx
  case runs =>
    rw [running]
    exact h.runs

end Accounts

/-! ## Every event keeps the accounts -/

namespace World

variable {σ : Type} {b : Backend σ} {w : World σ} {s : Stage} {m : Memory}
  {begun : List (Nat × Mutation)} {published : List Nat} {ended : List (Nat × HookResult)}
  {id : Nat}

/-- What an event makes of the accounts. -/
def AccountsAfter (b : Backend σ) (w : World σ) (m : Memory) (begun : List (Nat × Mutation))
    (published : List Nat) (ended : List (Nat × HookResult)) (e : Event) : Prop :=
  Accounts m (begun ++ (w.begun? e).toList) (published ++ (w.published? b e).toList)
    (ended ++ (w.ended? b e).toList) (w.step b e).log

theorem accounts_of_none {e : Event} (h : Accounts m begun published ended (w.step b e).log)
    (none_begun : w.begun? e = none) (offered : w.offered? b e = none)
    (none_published : w.published? b e = none) :
    w.AccountsAfter b m begun published ended e := by
  have none_ended : w.ended? b e = none := by
    rw [ended?, offered]
    rfl
  unfold AccountsAfter
  rw [none_begun, none_published, none_ended]
  simpa using h

/-- A write is done in one turn: it reads the state, its hook runs and it publishes, as a write does
in three turns whose hook runs on a helper thread. -/
theorem accounts_direct (h : Accounts m begun published ended w.log) (standing : w.log.At .idle)
    {mutation : Mutation} {hook : Hook} {p : Publication}
    (ht : w.log.tasks[id]? = some (.writing mutation)) (holds : w.log.guard.holds id = true)
    (nonblocking : b.blocking = false) (planned : w.log.memory.plan mutation = .keep hook p) :
    Accounts m (begun ++ [(id, mutation)]) (published ++ (w.published? b (.turn id)).toList)
      (ended ++ (w.ended? b (.turn id)).toList) (w.step b (.turn id)).log := by
  have none_running : w.log.running = [] := standing.stands
  have offered : w.offered? b (.turn id) = some (id, hook) := by
    simp [offered?, ht, holds, nonblocking, planned]
  let result := (b.keep hook w.store).1
  have ends : w.ended? b (.turn id) = some (id, result) := by
    rw [ended?, offered]
    rfl
  have shown : (w.published? b (.turn id)).toList = if result = .kept then [id] else [] := by
    have accepted := accepted?_of_offered offered
    simp only [published?, ht, accepted]
    split <;> rfl
  have stepped : (w.step b (.turn id)).log =
      if result = .panicked then w.log.conclude id .panicked else w.log.publish id p result := by
    simp only [step, Log.turn?, ht, holds, if_true, moved]
    rw [Log.write_of_nonblocking nonblocking planned]
  rw [ends, shown, stepped]
  let reading : Log := { w.log.setTask id (.keeping p) with running := [(id, hook)] }
  let returned : Log := { w.log.setTask id (.kept p result) with running := [] }
  have reads := Log.turns_setTask ht (.keeping p)
  have returns := Log.turns_setTask ht (.kept p result)
  have first : Accounts m (begun ++ [(id, mutation)]) published ended reading :=
    h.begins (h.fresh ht) standing.none_underway reads.self reads.others (by simp [reading]) rfl
      (by simp) ⟨hook, planned⟩
  have second : Accounts m (begun ++ [(id, mutation)]) published (ended ++ [(id, result)])
      returned :=
    first.returns (List.mem_singleton.mpr rfl) (.inl ⟨reads.self, returns.self⟩)
      (fun i other => (returns.others i other).trans (reads.others i other).symm) rfl rfl
  have since {i : Nat} (other : i ≠ id) : w.log.tasks[i]? = returned.tasks[i]? :=
    (returns.others i other).symm
  by_cases panicked : result = .panicked
  · have kept : returned.tasks[id]? = some (.kept p .panicked) := by
      rw [← panicked]
      exact returns.self
    have turns := Log.turns_conclude ht .panicked
    rw [if_pos panicked, if_neg (by simp [panicked]), List.append_nil]
    exact second.answers kept turns.self (.inr rfl)
      (fun i other => (turns.others i other).trans (since other)) none_running rfl
  · have turns := Log.turns_conclude ht (.answered (p.outcome w.log.memory result).1)
    rw [if_neg panicked]
    exact second.publishes returns.self panicked turns.self
      (fun i other => (turns.others i other).trans (since other)) none_running rfl

/-- The turn in which a write reads the state. -/
theorem accounts_reads (h : Accounts m begun published ended w.log) (standing : w.log.At s)
    {mutation : Mutation} (ht : w.log.tasks[id]? = some (.writing mutation))
    (holds : w.log.guard.holds id = true) :
    w.AccountsAfter b m begun published ended (.turn id) := by
  have idle : s = .idle := standing.idle_of_writing ht holds
  subst idle
  have none_running : w.log.running = [] := standing.stands
  have reads : w.begun? (.turn id) = some (id, mutation) := by simp [begun?, ht, holds]
  unfold AccountsAfter
  rw [reads]
  -- a write that is over in this turn without a hook
  have settled {result : Except Fault Reply} (offered : w.offered? b (.turn id) = none)
      (stepped : (w.step b (.turn id)).log = w.log.conclude id (.answered result))
      (answer : result = (w.log.memory.perform mutation .kept).1)
      (hookless : ¬ w.log.memory.HasKept mutation .kept) :
      Accounts m (begun ++ [(id, mutation)]) (published ++ (w.published? b (.turn id)).toList)
        (ended ++ (w.ended? b (.turn id)).toList) (w.step b (.turn id)).log := by
    have turns := Log.turns_conclude ht (.answered result)
    have none_published : w.published? b (.turn id) = none := by
      simp [published?, ht, accepted?_of_none offered]
    rw [none_published, ended?, offered, stepped]
    simpa using h.begins (h.fresh ht) standing.none_underway turns.self turns.others
      (by simp [Log.conclude, Log.finish, Log.setTask, Log.release, none_running]) rfl (by simp)
      ⟨answer, fun kept => absurd kept hookless⟩
  cases planned : w.log.memory.plan mutation with
  | refuse fault =>
    refine settled (by simp [offered?, ht, planned]) ?_ (by rw [Memory.perform_of_refuse planned])
      (by simp [Memory.HasKept, planned])
    simp [step, Log.turn?, ht, holds, Log.write, planned, moved]
  | answer reply =>
    refine settled (by simp [offered?, ht, planned]) ?_ (by rw [Memory.perform_of_answer planned])
      (by simp [Memory.HasKept, planned])
    simp [step, Log.turn?, ht, holds, Log.write, planned, moved]
  | keep hook p =>
    cases blocking : b.blocking with
    | true =>
      have offered : w.offered? b (.turn id) = none := by simp [offered?, ht, blocking]
      have none_published : w.published? b (.turn id) = none := by
        simp [published?, ht, accepted?_of_none offered]
      have stepped : (w.step b (.turn id)).log =
          { w.log.setTask id (.keeping p) with running := w.log.running ++ [(id, hook)] } := by
        simp [step, Log.turn?, ht, holds, Log.write, planned, blocking, moved]
      have turns := Log.turns_setTask ht (.keeping p)
      rw [none_published, ended?, offered, stepped]
      simp only [Option.map_none, Option.toList_none, Option.toList_some, List.append_nil]
      refine h.begins (h.fresh ht) standing.none_underway turns.self turns.others ?_ rfl (by simp)
        ⟨hook, planned⟩
      simp [none_running]
    | false => exact accounts_direct h standing ht holds blocking planned

/-- A hook returns from its helper thread. -/
theorem accounts_returns (h : Accounts m begun published ended w.log) (standing : w.log.At s)
    {ran : Nat × Hook} (found : w.log.running.find? (·.1 = id) = some ran) :
    w.AccountsAfter b m begun published ended (.hookReturns id) := by
  obtain ⟨hook, p, rfl, rfl⟩ := standing.running_eq found
  obtain ⟨running, -, -, waits⟩ := standing.stands
  have runs : (id, hook) ∈ w.log.running := by simp [running]
  have ends : w.ended? b (.hookReturns id) = some (id, (b.keep hook w.store).1) := by
    have offered : w.offered? b (.hookReturns id) = some (id, hook) := found
    rw [ended?, offered]
    rfl
  unfold AccountsAfter
  rw [ends]
  simp only [begun?, published?, Option.toList_none, List.append_nil, Option.toList_some]
  -- a hook that stops in the middle gives the guard back first
  rcases waits with keeping | dropped
  · obtain ⟨guard, stepped⟩ : ∃ guard, (w.step b (.hookReturns id)).log =
        ({ w.log with running := [], guard } : Log).setTask id
          (.kept p (b.keep hook w.store).1) := by
      by_cases panicked : (b.keep hook w.store).1 = .panicked
      · refine ⟨w.log.guard.release id, ?_⟩
        simp [step, Log.hookReturns?, panicked, keeping, moved, running, Log.release]
      · refine ⟨w.log.guard, ?_⟩
        simp [step, Log.hookReturns?, panicked, keeping, moved, running]
    have turns := Log.turns_setTask keeping (.kept p (b.keep hook w.store).1)
    rw [stepped]
    exact h.returns runs (.inl ⟨keeping, turns.self⟩) turns.others rfl rfl
  · obtain ⟨guard, stepped⟩ : ∃ guard, (w.step b (.hookReturns id)).log =
        { w.log with running := [], guard } := by
      by_cases panicked : (b.keep hook w.store).1 = .panicked
      · refine ⟨(w.log.guard.release id).release id, ?_⟩
        simp [step, Log.hookReturns?, panicked, dropped, moved, running, Log.release]
      · refine ⟨w.log.guard.release id, ?_⟩
        simp [step, Log.hookReturns?, panicked, dropped, moved, running, Log.release]
    rw [stepped]
    exact h.returns (p := p) runs (.inr ⟨dropped, dropped⟩) (fun _ _ => rfl) rfl rfl

/-- A write whose hook has returned publishes, if its hook has kept it. -/
theorem accounts_publishes (h : Accounts m begun published ended w.log) (standing : w.log.At s)
    {p : Publication} {result : HookResult} (ht : w.log.tasks[id]? = some (.kept p result)) :
    w.AccountsAfter b m begun published ended (.turn id) := by
  have stepped : (w.step b (.turn id)).log = w.log.publish id p result := by
    simp [step, Log.turn?, ht, moved]
  have turns := Log.turns_conclude ht (.answered (p.outcome w.log.memory result).1)
  have none_begun : w.begun? (.turn id) = none := by simp [begun?, ht]
  have none_ended : w.ended? b (.turn id) = none := by simp [ended?, offered?, ht]
  have shown : (w.published? b (.turn id)).toList = if result = .kept then [id] else [] := by
    cases result <;> simp [published?, ht]
  unfold AccountsAfter
  rw [none_begun, none_ended, shown, stepped]
  simp only [Option.toList_none, List.append_nil]
  by_cases panicked : result = .panicked
  · subst panicked
    rw [if_neg (by simp), List.append_nil]
    exact h.answers ht turns.self (.inl rfl) turns.others rfl rfl
  · obtain ⟨hook, rfl⟩ := standing.returned_of_kept ht panicked
    exact h.publishes ht panicked turns.self turns.others standing.stands.1 rfl

/-- Every event keeps the accounts. -/
theorem accounts_step (h : Accounts m begun published ended w.log) (standing : w.log.At s)
    (e : Event) : w.AccountsAfter b m begun published ended e := by
  cases deed_step b w e with
  | aside none_begun offered none_published _ _ running memory tasks =>
    exact accounts_of_none (h.aside running memory tasks) none_begun offered none_published
  | reads ht holds _ => exact accounts_reads h standing ht holds
  | returns found _ => exact accounts_returns h standing found
  | publishes ht _ => exact accounts_publishes h standing ht

end World

end DurableLog
