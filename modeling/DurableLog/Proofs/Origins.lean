import DurableLog.Proofs.Sequence

/-!
# Where tasks come from

Calls are numbered in the order in which they are made, and the task of a call has its number.
`Call.Becomes` says which write a call is once its entries are taken in, `Call.Refused` why it may
be over before. Every event keeps it so (`World.origins_step`): each task that has read the state is
the write of its call, and each other task is on its call's way there (`Call.ComesTo`).
-/

namespace DurableLog

/-- The calls among the events. -/
def calls (events : List Event) : List Call := events.filterMap Event.call?

/-- A batch, taken in turn by turn, comes to this end. -/
inductive Capture.Leads (intake : Intake) : Capture → Except Fault (Array Entry) → Prop
  | ends {capture : Capture} {taken : Except Fault (Array Entry)} (signals : Signals)
      (ended : capture.run intake signals = .finished taken) : Leads intake capture taken
  | goes {capture next : Capture} {taken : Except Fault (Array Entry)} (signals : Signals)
      (pauses : capture.run intake signals = .waiting next) (leads : Leads intake next taken) :
      Leads intake capture taken

namespace Call

/-- The call changes the log. -/
def isWrite : Call → Bool
  | read _ _ | waitForCommit _ _ _ => false
  | _ => true

/-- The call asks for the guard as this write. -/
inductive Becomes (intake : Intake) : Call → Mutation → Prop
  | append {sources : List Source} {start : Option Nat} {token : Option String}
      {entries : Array Entry} (some : sources ≠ [])
      (taken : (Capture.start sources).Leads intake (.ok entries)) :
      Becomes intake (.append sources start token) (.append entries start)
  | commit {last : Option Nat} : Becomes intake (.commit last) (.commit last)
  | setTerm {term : Term} : Becomes intake (.setTerm term) (.setTerm term)
  | nextTerm : Becomes intake .nextTerm .nextTerm
  | vote {candidate : Member} : Becomes intake (.vote candidate) (.vote candidate)

/-- The call ends with this fault without asking for the guard. -/
inductive Refused (intake : Intake) : Call → Fault → Prop
  | empty {start : Option Nat} {token : Option String} :
      Refused intake (.append [] start token) .emptyBatch
  | taking {sources : List Source} {start : Option Nat} {token : Option String} {fault : Fault}
      (some : sources ≠ []) (failed : (Capture.start sources).Leads intake (.error fault)) :
      Refused intake (.append sources start token) fault

/-- What the task of a call may hold that has not read the state. -/
inductive ComesTo (intake : Intake) : Call → Task → Prop
  | capturing {sources : List Source} {capture : Capture} {start : Option Nat}
      {token : Option String} (some : sources ≠ [])
      (onward : ∀ taken, capture.Leads intake taken →
        (Capture.start sources).Leads intake taken) :
      ComesTo intake (.append sources start token) (.capturing capture start token)
  | writing {c : Call} {mutation : Mutation} (becomes : c.Becomes intake mutation) :
      ComesTo intake c (.writing mutation)
  | refused {c : Call} {fault : Fault} (refused : c.Refused intake fault) :
      ComesTo intake c (.finished (.answered (.error fault)))
  | aborted {c : Call} : ComesTo intake c (.finished .aborted)
  | reading {first : Nat} {last : Option Nat} :
      ComesTo intake (.read first last) (.reading first last)
  | waiting {index : Nat} {time : Duration} {token : Option String} {wait : CommitWait} :
      ComesTo intake (.waitForCommit index time token) (.waiting wait)
  | told {c : Call} {result : Except Fault Reply} (reads : c.isWrite = false) :
      ComesTo intake c (.finished (.answered result))

variable {intake : Intake} {c : Call} {task : Task}

theorem comesTo_of_enters (enters : c.Enters task) : c.ComesTo intake task := by
  cases enters with
  | empty => exact .refused .empty
  | capturing some => exact .capturing some fun _ => id
  | commit => exact .writing .commit
  | setTerm => exact .writing .setTerm
  | nextTerm => exact .writing .nextTerm
  | vote => exact .writing .vote
  | reading => exact .reading
  | waiting => exact .waiting
  | answered => exact .told rfl

/-- Taking entries in stays on the way. -/
theorem ComesTo.captures {capture : Capture} {start : Option Nat} {token : Option String}
    (h : c.ComesTo intake (.capturing capture start token)) (signals : Signals) :
    c.ComesTo intake ((capture.run intake signals).task start token) := by
  cases h with
  | capturing some onward =>
    cases ran : capture.run intake signals with
    | waiting next => exact .capturing some fun _ leads => onward _ (.goes signals ran leads)
    | finished taken =>
      have leads := onward taken (.ends signals ran)
      cases taken with
      | error fault => exact .refused (.taking some leads)
      | ok entries => exact .writing (.append some leads)

/-- What happens aside stays on the way. -/
theorem ComesTo.aside {σ : Type} {w : World σ} {e : Event} {id : Nat} {new : Option Task}
    (h : c.ComesTo w.log.intake task) (aside : w.Aside e id (some task) new) :
    ∃ task', new = some task' ∧ c.ComesTo w.log.intake task' := by
  cases aside with
  | stays => exact ⟨task, rfl, h⟩
  | captures signals goes =>
    subst goes
    exact ⟨_, rfl, h.captures signals⟩
  | reads result =>
    cases h
    exact ⟨_, rfl, .told rfl⟩
  | waits result =>
    cases h
    exact ⟨_, rfl, .told rfl⟩
  | drops alive => exact ⟨_, rfl, .aborted⟩

end Call

/-- Every task comes from its call. -/
structure Origins (config : Config) (made : List Call) (begun : List (Nat × Mutation))
    (log : Log) : Prop where
  settings : log.config = config
  size : log.tasks.size = made.length
  writes : ∀ x ∈ begun, ∃ c, made[x.1]? = some c ∧ c.Becomes (.ofConfig config) x.2
  others : ∀ (id : Nat) task, id ∉ begun.map Prod.fst → log.tasks[id]? = some task →
    ∃ c, made[id]? = some c ∧ c.ComesTo (.ofConfig config) task

namespace Origins

variable {config : Config} {made : List Call} {begun : List (Nat × Mutation)} {log log' : Log}
  {id : Nat}

theorem fresh (config : Config) (r : Replica) :
    Origins config [] [] (.ofReplica config r) where
  settings := rfl
  size := rfl
  writes := List.forall_mem_nil _
  others id task _ ht := by simp [Log.ofReplica] at ht

/-- A change of a task that has read the state. -/
theorem touches (h : Origins config made begun log) (touches : log.Touches id log')
    (mem : id ∈ begun.map Prod.fst) : Origins config made begun log' where
  settings := touches.config.trans h.settings
  size := touches.size.trans h.size
  writes := h.writes
  others i task fresh ht := by
    have other : i ≠ id := by
      rintro rfl
      exact fresh mem
    rw [touches.others i other] at ht
    exact h.others i task fresh ht

/-- A write reads the state. -/
theorem reads {mutation : Mutation} (h : Origins config made begun log)
    (fresh : id ∉ begun.map Prod.fst) (ht : log.tasks[id]? = some (.writing mutation))
    (touches : log.Touches id log') :
    Origins config made (begun ++ [(id, mutation)]) log' := by
  have grown : Origins config made (begun ++ [(id, mutation)]) log := by
    refine ⟨h.settings, h.size, ?_, ?_⟩
    · refine List.forall_mem_append.mpr ⟨h.writes, ?_⟩
      obtain ⟨c, called, comes⟩ := h.others id _ fresh ht
      cases comes with
      | writing becomes => simpa using ⟨c, called, becomes⟩
    · intro i task fresh' hi
      refine h.others i task (fun mem => fresh' ?_) hi
      rw [List.map_append]
      exact List.mem_append_left _ mem
  exact grown.touches touches (by simp)

end Origins

namespace World

variable {σ : Type} {b : Backend σ} {w : World σ} {config : Config} {made : List Call}
  {begun : List (Nat × Mutation)}

theorem origins_aside {e : Event} (h : Origins config made begun w.log)
    (size : (w.step b e).log.tasks.size = w.log.tasks.size + e.call?.toList.length)
    (same : (w.step b e).log.config = w.log.config)
    (tasks : ∀ id : Nat, w.Aside e id w.log.tasks[id]? (w.step b e).log.tasks[id]?) :
    Origins config (made ++ e.call?.toList) begun (w.step b e).log := by
  have intake : w.log.intake = .ofConfig config := congrArg Intake.ofConfig h.settings
  have known {i : Nat} {c : Call} (called : made[i]? = some c) :
      (made ++ e.call?.toList)[i]? = some c := by
    obtain ⟨lt, -⟩ := List.getElem?_eq_some_iff.mp called
    rw [List.getElem?_append_left lt, called]
  refine ⟨same.trans h.settings, by rw [size, h.size, List.length_append], ?_, ?_⟩
  · intro x hx
    obtain ⟨c, called, becomes⟩ := h.writes x hx
    exact ⟨c, known called, becomes⟩
  · intro i task fresh ht
    have aside := tasks i
    rw [ht] at aside
    cases old : w.log.tasks[i]? with
    | none =>
      rw [old] at aside
      cases aside with
      | enters called new enters =>
        subst called new
        refine ⟨_, ?_, Call.comesTo_of_enters enters⟩
        simp [Event.call?, h.size]
    | some before =>
      rw [old] at aside
      obtain ⟨c, called, comes⟩ := h.others i before fresh old
      rw [← intake] at comes
      obtain ⟨after, same, comes'⟩ := comes.aside aside
      cases same
      rw [intake] at comes'
      exact ⟨c, known called, comes'⟩

/-- Every event keeps the origins of the tasks. -/
theorem origins_step {m : Memory} {published : List Nat} {ended : List (Nat × HookResult)}
    (h : Origins config made begun w.log) (accounts : Accounts m begun published ended w.log)
    (e : Event) :
    Origins config (made ++ e.call?.toList) (begun ++ (w.begun? e).toList) (w.step b e).log := by
  cases deed_step b w e with
  | aside none_begun _ _ size same _ _ tasks =>
    rw [none_begun, Option.toList_none, List.append_nil]
    exact origins_aside h size same tasks
  | @reads id mutation ht holds touches =>
    have reads : w.begun? (.turn id) = some (id, mutation) := by simp [begun?, ht, holds]
    rw [reads]
    simpa [Event.call?] using h.reads (accounts.fresh ht) ht touches
  | @returns id ran found touches =>
    obtain ⟨hook, runs⟩ : ∃ hook, (id, hook) ∈ w.log.running := by
      have same : ran.1 = id := by simpa using List.find?_some found
      exact ⟨ran.2, same ▸ List.mem_of_find?_eq_some found⟩
    obtain ⟨-, before, mutation, whole⟩ := accounts.last id (.inl ⟨hook, runs⟩)
    simpa [Event.call?, begun?] using h.touches touches (by simp [whole])
  | @publishes id p result ht touches =>
    have mem : id ∈ begun.map Prod.fst := by
      refine Classical.byContradiction fun fresh => ?_
      obtain ⟨c, -, comes⟩ := h.others id _ fresh ht
      cases comes
    have none_begun : w.begun? (.turn id) = none := by simp [begun?, ht]
    rw [none_begun]
    simpa [Event.call?] using h.touches touches mem

end World

end DurableLog
