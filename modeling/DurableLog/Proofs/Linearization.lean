import DurableLog.Proofs.Origins

/-!
# Writes are linearizable

Tasks write to one log in any interleaving, hooks fail or stop in the middle, and any task can be
dropped at any await. It still is as if the writes were done one after another, in the order in
which they took the guard.

`World.Linearized` says what that means for a run, field by field, and `World.writes_linearize`
that it holds of every run. A write counts as under way from the turn in which it reads the state
to the turn in which it publishes or gives up; one whose hook stops in the middle has given up when
the hook stops, because the guard goes back there.

1. The three lists of a run grow with every event (`sequence`, `shown`, `endings`), and `Orderly` is
   what `accounts_step` and `origins_step` keep of them.
2. While a write is under way nobody else gets the guard (`alone_of_underway`).
3. Writes that cut nothing off put their entries side by side (`Memory.slots_after`).
-/

namespace DurableLog

/-! ## Appends at the end -/

namespace Mutation

/-- The entries that a write adds. -/
def added : Mutation → List Entry
  | append entries _ => entries.toList
  | _ => []

/-- If the write appends, then to the end. -/
def AtEnd : Mutation → Prop
  | append _ start => start = none
  | _ => True

end Mutation

namespace Memory

theorem snapshot_perform_of_no_append (m : Memory) {mutation : Mutation} (r : HookResult)
    (other : ∀ entries start, mutation ≠ .append entries start) :
    (m.perform mutation r).2.snapshot = m.snapshot := by
  rcases m.perform_cases mutation r with same | ⟨p, publishes, published⟩
  · rw [same]
  · rw [published]
    cases publishes with
    | append => exact absurd rfl (other _ _)
    | commit => rfl
    | setTerm => rfl
    | nextTerm => rfl
    | vote => rfl

/-- A write at the end puts its entries behind those that are there. -/
theorem slots_perform (m : Memory) {mutation : Mutation} (atEnd : mutation.AtEnd) :
    (m.perform mutation .kept).2.snapshot.slots.toList =
      m.snapshot.slots.toList ++ mutation.added := by
  cases mutation with
  | append entries start =>
    have last : start = none := atEnd
    subst last
    rw [perform_of_keep rfl]
    simp [Publication.outcome, Publication.apply, Snapshot.splice, Snapshot.length, Array.take,
      Mutation.added]
  | _ => simp [snapshot_perform_of_no_append, Mutation.added]

/-- Writes at the end put their entries side by side, in their order. -/
theorem slots_after (m : Memory) {writes : List (Nat × Mutation)}
    (atEnd : ∀ x ∈ writes, x.2.AtEnd) :
    (m.after writes).snapshot.slots.toList =
      m.snapshot.slots.toList ++ writes.flatMap fun x => x.2.added := by
  induction writes generalizing m with
  | nil => simp [after]
  | cons x rest ih =>
    obtain ⟨first, others⟩ := List.forall_mem_cons.mp atEnd
    have onward : m.after (x :: rest) = (m.perform x.2 .kept).2.after rest := rfl
    rw [onward, ih _ others, slots_perform m first, List.flatMap_cons, List.append_assoc]

end Memory

/-- What is visible before a visible write is what is visible of the writes before it. -/
theorem exists_prefix_of_visible {begun before after : List (Nat × Mutation)} {published : List Nat}
    {x : Nat × Mutation} (h : visible begun published = before ++ x :: after) :
    ∃ earlier, earlier ++ [x] <+: begun ∧ visible earlier published = before := by
  obtain ⟨front, back, rfl, same, rest⟩ := List.filter_eq_append_iff.mp h
  obtain ⟨hidden, back', rfl, none, -, -⟩ := List.filter_eq_cons_iff.mp rest
  refine ⟨front ++ hidden, ⟨back', by simp⟩, ?_⟩
  have skipped : visible hidden published = [] := List.filter_eq_nil_iff.mpr none
  rw [visible, List.filter_append, same]
  exact (congrArg (before ++ ·) skipped).trans (List.append_nil before)

/-! ## Writes that are over -/

/-- The hook of the task runs no more, and the task has published or given up: it is over, or it is
only to be told that its hook has stopped in the middle. -/
def Log.Over (log : Log) (id : Nat) : Prop :=
  (∀ hook, (id, hook) ∉ log.running) ∧
    ((∃ result, log.tasks[id]? = some (.finished result)) ∨
      ∃ p, log.tasks[id]? = some (.kept p .panicked))

/-- A write that has read the state is under way or over. -/
theorem Log.At.over_of_suits {log : Log} {s : Stage} {id : Nat} {task : Task} {m : Memory}
    {mutation : Mutation} {r : HookResult} {shown : Prop} (h : log.At s)
    (ht : log.tasks[id]? = some task) (suits : task.Suits m mutation r shown)
    (done : ¬ log.Underway id) : log.Over id := by
  refine ⟨fun hook runs => done (.inl ⟨hook, runs⟩), ?_⟩
  cases task with
  | keeping p =>
    obtain ⟨hook, rfl⟩ := h.running_of_keeping ht
    have running : log.running = [(id, hook)] := h.stands.1
    exact absurd (.inl ⟨hook, by simp [running]⟩) done
  | kept p result =>
    by_cases panicked : result = .panicked
    · subst panicked
      exact .inr ⟨p, ht⟩
    · exact absurd (.inr ⟨p, result, ht, panicked⟩) done
  | finished result => exact .inl ⟨result, ht⟩
  | capturing _ _ _ => exact suits.elim
  | writing _ => exact suits.elim
  | reading _ _ => exact suits.elim
  | waiting _ => exact suits.elim

namespace World

variable {σ : Type} {b : Backend σ} {w : World σ} {s : Stage} {id : Nat}

/-! ## Who is alone -/

theorem begun?_eq_some {e : Event} {mutation : Mutation}
    (begun : w.begun? e = some (id, mutation)) :
    e = .turn id ∧ w.log.tasks[id]? = some (.writing mutation) ∧ w.log.guard.holds id = true := by
  cases e with
  | turn i =>
    simp only [begun?] at begun
    split at begun
    · next found =>
      split at begun
      · next holds =>
        cases begun
        exact ⟨rfl, found, holds⟩
      · cases begun
    · cases begun
  | _ => cases begun

/-- What becomes visible is what is read in the same turn, or what a hook has kept before. -/
theorem published?_eq_some {e : Event} (published : w.published? b e = some id) :
    e = .turn id ∧ ((∃ mutation, w.begun? e = some (id, mutation)) ∨
      ∃ p, w.log.tasks[id]? = some (.kept p .kept)) := by
  cases e with
  | turn i =>
    simp only [published?] at published
    split at published
    · next mutation found =>
      obtain ⟨x, accepted, rfl⟩ := Option.map_eq_some_iff.mp published
      have offered : w.offered? b (.turn i) = some x := by
        cases offered : w.offered? b (.turn i) with
        | none => simp [accepted?_of_none offered] at accepted
        | some y =>
          rw [accepted?_of_offered offered] at accepted
          split at accepted
          · exact accepted
          · cases accepted
      simp only [offered?, found] at offered
      split at offered
      · next ready =>
        split at offered
        · cases offered
          exact ⟨rfl, .inl ⟨mutation, by simp [begun?, found, ready.1]⟩⟩
        · cases offered
      · cases offered
    · next p found =>
      cases published
      exact ⟨rfl, .inr ⟨p, found⟩⟩
    · cases published
  | _ => cases published

/-- The state is read when no other write is under way. -/
theorem idle_of_begun (standing : w.log.At s) {e : Event} {x : Nat × Mutation}
    (begun : w.begun? e = some x) : s = .idle := by
  obtain ⟨-, found, holds⟩ := begun?_eq_some begun
  exact standing.idle_of_writing found holds

/-- While a write is under way it has the guard, and nobody else reads the state or becomes
visible. -/
theorem alone_of_underway (standing : w.log.At s) (underway : w.log.Underway id) :
    w.log.guard.holders = [Guard.writer id] ∧ ∀ e, w.begun? e = none ∧
      ∀ other, w.published? b e = some other → other = id := by
  have owner := standing.owner_of_underway underway
  refine ⟨standing.holders_of_owner owner, fun e => ?_⟩
  have unread (x : Nat × Mutation) : w.begun? e ≠ some x := by
    intro begun
    cases idle_of_begun standing begun
    cases owner
  refine ⟨Option.eq_none_iff_forall_ne_some.mpr unread, fun other published => ?_⟩
  rcases (published?_eq_some published).2 with ⟨mutation, begun⟩ | ⟨p, found⟩
  · exact absurd begun (unread _)
  · have mine := standing.pending other _ found (by simp [Task.Pending])
    rw [owner] at mine
    exact (Option.some.inj mine).symm

/-- A hook is run when no other hook runs. -/
theorem one_hook (standing : w.log.At s) :
    w.log.running.length ≤ 1 ∧
      ∀ e x, w.offered? b e = some x → ∀ y ∈ w.log.running, y = x := by
  have stands := standing.stands
  refine ⟨?_, fun e x offered y hy => ?_⟩
  · cases s with
    | idle => simp [show w.log.running = [] from stands]
    | running task hook p => simp [stands.1]
    | returned task hook p result => simp [stands.1]
  · cases e with
    | hookReturns i =>
      obtain ⟨hook, p, rfl, rfl⟩ := standing.running_eq offered
      simpa [stands.1] using hy
    | turn i =>
      simp only [offered?] at offered
      split at offered
      · next mutation found =>
        split at offered
        · next ready =>
          cases standing.idle_of_writing found ready.1
          simp [show w.log.running = [] from stands] at hy
        · cases offered
      · cases offered
    | _ => cases offered

/-! ## The lists of a run -/

/-- The writes of a run, in the order in which they read the state with the guard in hand. Whoever
does has the guard alone, so this is the order in which they took it. -/
def sequence (b : Backend σ) (w : World σ) (events : List Event) : List (Nat × Mutation) :=
  w.along b begun? events

/-- The tasks of these writes. -/
abbrev writers (b : Backend σ) (w : World σ) (events : List Event) : List Nat :=
  (w.sequence b events).map Prod.fst

/-- The tasks whose writes become visible in a run. -/
def shown (b : Backend σ) (w : World σ) (events : List Event) : List Nat :=
  w.along b (published? b) events

/-- How the hooks of a run end. -/
def endings (b : Backend σ) (w : World σ) (events : List Event) : List (Nat × HookResult) :=
  w.along b (ended? b) events

/-- The memory that a write sees which comes behind these. -/
def seen (b : Backend σ) (w : World σ) (events : List Event) (before : List (Nat × Mutation)) :
    Memory := w.log.memory.after (visible before (w.shown b events))

/-- The call's write is answered as at its place in the order, where it changes nothing unless it is
visible; or the call was refused before it asked for the guard. -/
def AnsweredInOrder (b : Backend σ) (w : World σ) (events : List Event) (id : Nat) (c : Call)
    (result : Except Fault Reply) : Prop :=
  (∃ fault, c.Refused w.log.intake fault ∧ result = .error fault ∧ id ∉ w.writers b events) ∨
    ∃ before mutation, before ++ [(id, mutation)] <+: w.sequence b events ∧
      ((w.seen b events before).perform mutation (hookResult (w.endings b events) id)).1 = result ∧
      (id ∉ w.shown b events →
        ((w.seen b events before).perform mutation (hookResult (w.endings b events) id)).2 =
          w.seen b events before)

/-- What every event keeps of a run. -/
structure Orderly (b : Backend σ) (w : World σ) (events : List Event) : Prop where
  standing : ∃ s, (w.run b events).log.At s
  accounts : Accounts w.log.memory (w.sequence b events) (w.shown b events) (w.endings b events)
    (w.run b events).log
  origins : Origins w.log.config (calls events) (w.sequence b events) (w.run b events).log

theorem orderly_run (b : Backend σ) (config : Config) (r : Replica) (store : σ)
    (events : List Event) : (start config r store).Orderly b events := by
  induction events using List.reverseRecOn with
  | nil => exact ⟨⟨_, Log.at_ofReplica config r⟩, .fresh_log config r, .fresh config r⟩
  | append_singleton rest e ih =>
    obtain ⟨⟨s, standing⟩, accounts, origins⟩ := ih
    have stepped : (start config r store).run b (rest ++ [e]) =
        ((start config r store).run b rest).step b e := by
      rw [run_append]
      rfl
    have called : calls (rest ++ [e]) = calls rest ++ e.call?.toList := by
      rw [calls, calls, List.filterMap_append]
      cases made : e.call? <;> simp [made]
    refine ⟨?_, ?_, ?_⟩ <;> rw [stepped]
    · obtain ⟨s', standing', -⟩ := passage_step (b := b) standing e
      exact ⟨s', standing'⟩
    · simp only [sequence, shown, endings, along_concat]
      exact accounts_step accounts standing e
    · rw [called, sequence, along_concat]
      exact origins_step origins accounts e

/-! ## The order of a run -/

theorem sequence_append (b : Backend σ) (w : World σ) (first rest : List Event) :
    w.sequence b (first ++ rest) = w.sequence b first ++ (w.run b first).sequence b rest :=
  along_append b begun? w first rest

theorem writers_append (b : Backend σ) (w : World σ) (first rest : List Event) :
    w.writers b (first ++ rest) = w.writers b first ++ (w.run b first).writers b rest := by
  rw [writers, sequence_append, List.map_append]

/-- A task that is over does not read the state any more. -/
theorem not_mem_sequence_of_finished {result : TaskResult} {events : List Event}
    (ended : w.log.tasks[id]? = some (.finished result)) :
    id ∉ w.writers b events := by
  induction events generalizing w with
  | nil => simp [sequence, along]
  | cons e rest ih =>
    have first : w.begun? e = none ∨ ∃ x, w.begun? e = some x ∧ x.1 ≠ id := by
      cases begun : w.begun? e with
      | none => exact .inl rfl
      | some x =>
        obtain ⟨-, found, -⟩ := begun?_eq_some begun
        refine .inr ⟨x, rfl, ?_⟩
        rintro rfl
        rw [ended] at found
        cases found
    have others : id ∉ (w.step b e).writers b rest := ih (finished_step ended)
    have whole : w.sequence b (e :: rest) = (w.begun? e).toList ++ (w.step b e).sequence b rest :=
      rfl
    rw [writers, whole, List.map_append, List.mem_append, not_or]
    refine ⟨?_, others⟩
    rcases first with none | ⟨x, begun, other⟩
    · simp [none]
    · simpa [begun] using Ne.symm other

namespace Orderly

variable {events : List Event}

/-- Only calls that have been made have read the state. -/
theorem lt_of_mem (h : Orderly b w events) (mem : id ∈ w.writers b events) :
    id < (calls events).length := by
  obtain ⟨x, hx, rfl⟩ := List.mem_map.mp mem
  obtain ⟨c, called, -⟩ := h.origins.writes x hx
  exact (List.getElem?_eq_some_iff.mp called).1

/-- A write that has read the state has its place in the order, and its task suits it. -/
theorem exists_place (h : Orderly b w events)
    (mem : id ∈ w.writers b events) :
    ∃ before mutation task, before ++ [(id, mutation)] <+: w.sequence b events ∧
      (w.run b events).log.tasks[id]? = some task ∧
      task.Suits (w.seen b events before) mutation (hookResult (w.endings b events) id)
        (id ∈ w.shown b events) := by
  obtain ⟨x, hx, rfl⟩ := List.mem_map.mp mem
  obtain ⟨before, after, same⟩ := List.append_of_mem hx
  have place : before ++ [x] <+: w.sequence b events := ⟨after, by simp [same]⟩
  obtain ⟨task, ht, suits⟩ := h.accounts.each before x place
  exact ⟨before, x.2, task, place, ht, suits⟩

/-- A write that has read the state is under way or over. -/
theorem underway_or_over (h : Orderly b w events)
    (mem : id ∈ w.writers b events) :
    (w.run b events).log.Underway id ∨ (w.run b events).log.Over id := by
  obtain ⟨s, standing⟩ := h.standing
  obtain ⟨before, mutation, task, -, ht, suits⟩ := h.exists_place mem
  by_cases underway : (w.run b events).log.Underway id
  · exact .inl underway
  · exact .inr (standing.over_of_suits ht suits underway)

theorem answeredInOrder (h : Orderly b w events) {c : Call} {result : Except Fault Reply}
    (called : (calls events)[id]? = some c) (writes : c.isWrite = true)
    (ht : (w.run b events).log.tasks[id]? = some (.finished (.answered result))) :
    w.AnsweredInOrder b events id c result := by
  by_cases mem : id ∈ w.writers b events
  · obtain ⟨before, mutation, task, place, found, suits⟩ := h.exists_place mem
    rw [ht] at found
    cases found
    refine .inr ⟨before, mutation, place, suits.1.symm, fun hidden => ?_⟩
    exact Memory.perform_of_not_hasKept fun kept => hidden (suits.2 kept)
  · obtain ⟨c', called', comes⟩ := h.origins.others id _ mem ht
    rw [called] at called'
    cases called'
    cases comes with
    | refused refused => exact .inl ⟨_, refused, rfl, mem⟩
    | told reads =>
      rw [writes] at reads
      cases reads

/-- A visible write was answered at its place in the order. -/
theorem answer_of_visible (h : Orderly b w events) {before after : List (Nat × Mutation)}
    {mutation : Mutation}
    (place : visible (w.sequence b events) (w.shown b events) = before ++ (id, mutation) :: after) :
    (w.run b events).log.tasks[id]? =
      some (.finished (.answered ((w.log.memory.after before).perform mutation .kept).1)) := by
  have member : (id, mutation) ∈ visible (w.sequence b events) (w.shown b events) := by
    simp [place]
  have mem : id ∈ w.shown b events := by simpa using (List.mem_filter.mp member).2
  obtain ⟨-, -, reply, answered⟩ := h.accounts.shown id mem
  obtain ⟨earlier, within, rfl⟩ := exists_prefix_of_visible place
  obtain ⟨task, ht, suits⟩ := h.accounts.each earlier _ within
  rw [answered] at ht
  cases ht
  rw [answered, suits.1, Memory.perform_of_ok suits.1.symm]

/-- A write that was answered well is visible, or there was nothing to change. -/
theorem visible_of_ok (h : Orderly b w events) {before : List (Nat × Mutation)}
    {mutation : Mutation} {reply : Reply}
    (place : before ++ [(id, mutation)] <+: w.sequence b events)
    (answered : (w.run b events).log.tasks[id]? = some (.finished (.answered (.ok reply)))) :
    id ∈ w.shown b events ∨ (w.seen b events before).plan mutation = .answer reply := by
  obtain ⟨task, ht, suits⟩ := h.accounts.each before _ place
  rw [answered] at ht
  cases ht
  rcases Memory.hasKept_or_answer suits.1.symm with kept | unchanged
  · exact .inl (suits.2 kept)
  · exact .inr unchanged

/-- An append to the end was answered with the number of slots before it. -/
theorem index_of_visible (h : Orderly b w events)
    (atEnd : ∀ x ∈ visible (w.sequence b events) (w.shown b events), x.2.AtEnd)
    {before after : List (Nat × Mutation)} {entries : Array Entry}
    (place : visible (w.sequence b events) (w.shown b events) =
      before ++ (id, .append entries none) :: after) :
    (w.run b events).log.tasks[id]? = some (.finished (.answered (.ok (.index
      (w.log.memory.snapshot.length + (before.flatMap fun x => x.2.added).length))))) := by
  have earlier : ∀ x ∈ before, x.2.AtEnd := by
    intro x hx
    refine atEnd x ?_
    rw [place]
    exact List.mem_append_left _ hx
  have length : (w.log.memory.after before).snapshot.length =
      w.log.memory.snapshot.length + (before.flatMap fun x => x.2.added).length := by
    have slots := congrArg List.length (w.log.memory.slots_after earlier)
    rw [List.length_append, Array.length_toList, Array.length_toList] at slots
    exact slots
  rw [h.answer_of_visible place, Memory.perform_of_keep rfl, ← length]
  rfl

/-- Who was over before another call was made comes first. -/
theorem real_time {first rest : List Event} {i j : Nat} {result : TaskResult}
    (h : Orderly b w first) (ended : (w.run b first).log.tasks[i]? = some (.finished result))
    (later : (calls first).length ≤ j)
    (hi : i ∈ w.writers b (first ++ rest))
    (hj : j ∈ w.writers b (first ++ rest)) :
    [i, j].Sublist (w.writers b (first ++ rest)) := by
  rw [writers_append] at hi hj ⊢
  have before : i ∈ w.writers b first := by
    rcases List.mem_append.mp hi with before | after
    · exact before
    · exact absurd after (not_mem_sequence_of_finished ended)
  have after : j ∈ (w.run b first).writers b rest := by
    rcases List.mem_append.mp hj with before | after
    · exact absurd (h.lt_of_mem before) (by omega)
    · exact after
  exact (List.singleton_sublist.mpr before).append (List.singleton_sublist.mpr after)

end Orderly

/-! ## The theorem -/

/-- The writes of a run are done as if one after another. The run is any list of events, so what is
said of its end holds at any time. -/
structure Linearized (b : Backend σ) (w : World σ) (events : List Event) : Prop where
  /-- At most one hook runs at a time, be it on a helper thread or within a turn. -/
  one_hook : (w.run b events).log.running.length ≤ 1 ∧
    ∀ e x, (w.run b events).offered? b e = some x → ∀ y ∈ (w.run b events).log.running, y = x
  /-- A write reads the state while it has the guard alone, and has it until its hook has ended and
  it has published or given up. In between nobody else reads the state or becomes visible. -/
  alone : ∀ first e between id mutation, events = first ++ e :: between →
    (w.run b first).begun? e = some (id, mutation) →
      (w.run b first).log.guard.holders = [Guard.writer id] ∧
        ((w.run b events).log.Over id ∨
          (w.run b events).log.guard.holders = [Guard.writer id] ∧
            ∀ next, (w.run b events).begun? next = none ∧
              ∀ other, (w.run b events).published? b next = some other → other = id)
  /-- The memory is what the visible writes lead to, one after another. -/
  memory : (w.seen b events (w.sequence b events)).Alike (w.run b events).log.memory
  /-- No write is done twice, and no hook ends twice. -/
  once : (w.writers b events).Nodup ∧ ((w.endings b events).map Prod.fst).Nodup
  /-- Every write is one that was called for. -/
  called : ∀ x ∈ w.sequence b events, ∃ c, (calls events)[x.1]? = some c ∧
    c.Becomes w.log.intake x.2
  /-- What is visible has been kept, and answered well. -/
  kept : ∀ id ∈ w.shown b events, id ∈ w.writers b events ∧
    (id, .kept) ∈ w.endings b events ∧
    ∃ reply, (w.run b events).log.tasks[id]? = some (.finished (.answered (.ok reply)))
  /-- A write that was answered well is visible, or there was nothing to change. -/
  none_lost : ∀ before id mutation reply, before ++ [(id, mutation)] <+: w.sequence b events →
    (w.run b events).log.tasks[id]? = some (.finished (.answered (.ok reply))) →
      id ∈ w.shown b events ∨ (w.seen b events before).plan mutation = .answer reply
  /-- Whatever a call that writes is answered, it is answered in order. -/
  answers : ∀ id c result, (calls events)[id]? = some c → c.isWrite = true →
    (w.run b events).log.tasks[id]? = some (.finished (.answered result)) →
      w.AnsweredInOrder b events id c result
  /-- The order is that of time where calls do not overlap. -/
  real_time : ∀ first rest i j result, events = first ++ rest →
    (w.run b first).log.tasks[i]? = some (.finished result) → (calls first).length ≤ j →
      i ∈ w.writers b events → j ∈ w.writers b events →
        [i, j].Sublist (w.writers b events)
  /-- Batches that are appended to the end lie side by side, at the indices that their calls were
  answered with. -/
  contiguous : (∀ x ∈ visible (w.sequence b events) (w.shown b events), x.2.AtEnd) →
    (w.run b events).log.memory.snapshot.slots.toList = w.log.memory.snapshot.slots.toList ++
        (visible (w.sequence b events) (w.shown b events)).flatMap (fun x => x.2.added) ∧
      ∀ before id entries after, visible (w.sequence b events) (w.shown b events) =
          before ++ (id, .append entries none) :: after →
        (w.run b events).log.tasks[id]? = some (.finished (.answered (.ok (.index
          (w.log.memory.snapshot.length + (before.flatMap fun x => x.2.added).length)))))

end World

/-- **Writes are linearizable**, whatever the backend, the interleaving, the hooks that fail and the
tasks that are dropped. -/
theorem writes_linearize {σ : Type} (b : Backend σ) (config : Config) (r : Replica) (store : σ)
    (events : List Event) : (World.start config r store).Linearized b events := by
  have orderly := World.orderly_run b config r store
  have run := orderly events
  obtain ⟨s, standing⟩ := run.standing
  have memory := run.accounts.memory
  refine ⟨World.one_hook standing, ?alone, memory, ⟨run.accounts.once, run.accounts.ends⟩,
    run.origins.writes, run.accounts.shown, fun _ _ _ _ => run.visible_of_ok,
    fun _ _ _ => run.answeredInOrder, ?real_time, ?contiguous⟩
  case alone =>
    intro first e between id mutation same begun
    have mem : id ∈ (World.start config r store).writers b events := by
      refine List.mem_map.mpr ⟨(id, mutation), ?_, rfl⟩
      rw [same, World.sequence_append]
      refine List.mem_append_right _ (List.mem_append_left _ ?_)
      rw [begun]
      exact List.mem_singleton.mpr rfl
    obtain ⟨_, standing'⟩ := (orderly first).standing
    obtain ⟨-, found, holds⟩ := World.begun?_eq_some begun
    refine ⟨standing'.holders_of_writing found holds, ?_⟩
    rcases run.underway_or_over mem with underway | done
    · exact .inr (World.alone_of_underway standing underway)
    · exact .inl done
  case real_time =>
    rintro first rest i j result rfl ended later
    exact (orderly first).real_time ended later
  case contiguous =>
    intro atEnd
    refine ⟨?_, fun before id entries after => run.index_of_visible atEnd⟩
    rw [memory.snapshot]
    exact Memory.slots_after _ atEnd

/-- A dropped write has its place in the order, and is not visible even if its hook keeps it. -/
example :
    let b : Backend Unit := ⟨true, fun _ s => (.kept, s)⟩
    let w := World.start .default .empty ()
    let events : List Event := [.call .nextTerm, .call .nextTerm, .turn 0, .abort 0,
      .hookReturns 0, .turn 1, .hookReturns 1, .turn 1]
    w.sequence b events = [(0, .nextTerm), (1, .nextTerm)] ∧ w.shown b events = [1] ∧
      (w.run b events).log.memory.term = 1 := by
  decide

end DurableLog
