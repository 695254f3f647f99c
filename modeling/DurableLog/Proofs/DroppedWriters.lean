import DurableLog.Proofs.Awaited
import DurableLog.Proofs.CommittedPrefix
import DurableLog.Proofs.Ledger

/-!
# Dropped writers

The guard travels with a hook, so a write that is dropped while its hook runs keeps other writes out
until the hook returns. But when the hook succeeds then, the backend has accepted a change that is
never published: from here on the memory is behind the ledger.

* A dropped append moves the end of the durable log and not that of the log in memory. The next
  append is placed by the memory, so it may start behind the durable end: a gap that no replay
  accepts.
* A dropped commit does not move the commit index in memory, so later appends may replace what it
  has committed.

`Ledger.Tallies` says how far the ledger and the memory agree, and `World.Booked` that this is so in
every reachable state. From it follows exactly which runs can be replayed
(`replay_accepted_iff`), and which accepted commits are kept (`accepted_commit_kept_iff`).
-/

namespace DurableLog

/-! ## A ledger and the memory -/

namespace Ledger

/-- The ledger agrees with the entries in memory but for the appends whose calls were dropped. -/
structure Tallies (dropped : Nat → Prop) (snapshot : Snapshot) (ledger : Ledger) : Prop where
  nonzero : ∀ a ∈ ledger.stretches, a.start ≠ 0
  head : ∀ a ∈ ledger.stretches.head?, a.start ≤ 1
  chain : ledger.stretches.IsChain fun a next => dropped a.task ∨ Follows a next
  last : ∀ a ∈ ledger.stretches.getLast?, dropped a.task ∨ a.stop = snapshot.length
  fresh : ledger.stretches = [] → snapshot.length = 1
  mirrors : (∀ a ∈ ledger.stretches, ¬ dropped a.task) →
    ∃ r, Replica.empty.keepAll ledger.hooks = some r ∧ Snapshot.ofEntries r.entries = snapshot

variable {dropped dropped' : Nat → Prop} {snapshot snapshot' : Snapshot} {ledger : Ledger}

theorem tallies_nil : Tallies dropped (.ofEntries #[]) [] where
  nonzero := by simp [stretches]
  head := by simp [stretches]
  chain := by simp [stretches]
  last := by simp [stretches]
  fresh _ := rfl
  mirrors _ := ⟨.empty, rfl, rfl⟩

/-- More calls are dropped. -/
theorem Tallies.mono (h : Tallies dropped snapshot ledger)
    (more : ∀ task, dropped task → dropped' task) : Tallies dropped' snapshot ledger where
  nonzero := h.nonzero
  head := h.head
  chain := h.chain.imp fun a _ => Or.imp_left (more a.task)
  last a ha := (h.last a ha).imp_left (more a.task)
  fresh := h.fresh
  mirrors none_dropped := h.mirrors fun a ha hd => none_dropped a ha (more _ hd)

/-- Something else than an append is accepted. -/
theorem Tallies.other (h : Tallies dropped snapshot ledger) {x : Nat × Hook}
    (covers : stretch? x = none) : Tallies dropped snapshot (ledger ++ [x]) := by
  have same : stretches (ledger ++ [x]) = ledger.stretches := by
    rw [stretches_append, stretches, stretches, List.filterMap_cons_none covers, List.filterMap_nil,
      List.append_nil]
  refine ⟨?_, ?_, ?_, ?_, ?_, ?_⟩ <;> rw [same]
  · exact h.nonzero
  · exact h.head
  · exact h.chain
  · exact h.last
  · exact h.fresh
  · intro none_dropped
    obtain ⟨r, kept, mirror⟩ := h.mirrors none_dropped
    obtain ⟨task, hook⟩ := x
    obtain ⟨next, keep, entries⟩ := Replica.keep_of_no_stretch (r := r) covers
    refine ⟨next, ?_, by rw [entries, mirror]⟩
    rw [Replica.keepAll_hooks_concat, kept]
    exact keep

/-- An append is accepted, placed by the memory. -/
theorem Tallies.append (h : Tallies dropped snapshot ledger) {task start : Nat}
    {entries : Array Entry} (nonzero : start ≠ 0) (within : start ≤ snapshot.length) :
    Tallies dropped (snapshot.splice start entries)
      (ledger ++ [(task, .append start entries)]) := by
  have added : stretches (ledger ++ [(task, .append start entries)]) =
      ledger.stretches ++ [⟨task, start, start + entries.size⟩] := stretches_append _ _
  have last : (ledger.stretches ++ [(⟨task, start, start + entries.size⟩ : Stretch)]).getLast? =
      some ⟨task, start, start + entries.size⟩ := List.getLast?_concat
  refine ⟨?_, ?_, ?_, ?_, ?_, ?_⟩ <;> rw [added]
  · intro a ha
    rcases List.mem_append.mp ha with ha | ha
    · exact h.nonzero a ha
    · rw [List.mem_singleton.mp ha]
      exact nonzero
  · cases before : ledger.stretches with
    | nil =>
      have alone := h.fresh before
      intro a ha
      cases ha
      simp only
      omega
    | cons first rest =>
      have head := h.head
      rw [before] at head
      exact head
  · refine h.chain.append (List.isChain_singleton _) fun a ha next hnext => ?_
    cases hnext
    refine (h.last a ha).imp_right fun stop => ?_
    rw [Follows, stop]
    exact within
  · intro a ha
    rw [last] at ha
    cases ha
    exact Or.inr (snapshot.length_splice start entries within).symm
  · intro none
    exact absurd none (by simp)
  · intro none_dropped
    obtain ⟨r, kept, mirror⟩ := h.mirrors fun a ha => none_dropped a (List.mem_append_left _ ha)
    have size : snapshot.length = r.entries.size + 1 := by
      rw [← mirror, Snapshot.length_ofEntries]
    refine ⟨{ r with entries := r.entries.take (start - 1) ++ entries }, ?_, ?_⟩
    · rw [Replica.keepAll_hooks_concat, kept, Option.bind_some, Replica.keep, if_neg (by omega)]
    · rw [← mirror]
      exact (Snapshot.splice_ofEntries r.entries entries nonzero).symm

/-- Whatever the memory holds, a ledger that ends with a dropped append may differ from it. -/
theorem Tallies.forget (h : Tallies dropped snapshot ledger) {a : Stretch}
    (last : ledger.stretches.getLast? = some a) (lost : dropped a.task) :
    Tallies dropped snapshot' ledger where
  nonzero := h.nonzero
  head := h.head
  chain := h.chain
  last a' ha' := by
    rw [last] at ha'
    cases ha'
    exact Or.inl lost
  fresh none := by
    rw [none] at last
    cases last
  mirrors none_dropped := absurd lost (none_dropped a (List.mem_of_getLast? last))

variable {m : Memory} {hook : Hook} {p : Publication} {task : Nat}

/-- A planned change is accepted, and published. -/
theorem Tallies.accept (h : Tallies dropped m.snapshot ledger)
    (planned : m.Planned hook p) :
    Tallies dropped (p.outcome m .kept).2.snapshot (ledger ++ [(task, hook)]) := by
  cases planned with
  | append above within => exact h.append (by omega) within
  | commit _ _ => exact h.other rfl
  | setTerm => exact h.other rfl
  | nextTerm => exact h.other rfl
  | vote => exact h.other rfl

/-- The last change that was accepted is not published after all. -/
theorem Tallies.abandon (h : Tallies dropped (p.outcome m .kept).2.snapshot ledger)
    (planned : m.Planned hook p) (last : ledger.getLast? = some (task, hook))
    (lost : dropped task) : Tallies dropped m.snapshot ledger := by
  cases planned with
  | @append start entries above within =>
    refine h.forget (a := ⟨task, start, start + entries.size⟩) ?_ lost
    obtain ⟨front, rfl⟩ := List.getLast?_eq_some_iff.mp last
    rw [stretches_append]
    exact List.getLast?_concat
  | commit _ _ => exact h
  | setTerm => exact h
  | nextTerm => exact h
  | vote => exact h

end Ledger

/-! ## A ledger and the world -/

/-- The task of the stage is to publish what was accepted. -/
def Stage.Owes (s : Stage) (x : Nat × Hook) : Prop := ∃ p, s = .returned x.1 x.2 p .kept

theorem Stage.not_owes_idle (x : Nat × Hook) : ¬ Stage.idle.Owes x := by rintro ⟨p, ⟨⟩⟩

theorem Stage.not_owes_running (task : Nat) (hook : Hook) (p : Publication) (x : Nat × Hook) :
    ¬ (Stage.running task hook p).Owes x := by rintro ⟨p, ⟨⟩⟩

namespace World

variable {σ : Type} {b : Backend σ} {w : World σ} {s : Stage} {ledger : Ledger}

/-- The call of this task was dropped. -/
def Dropped (w : World σ) (task : Nat) : Prop := w.log.tasks[task]? = some (.finished .aborted)

theorem Dropped.step {task : Nat} (h : w.Dropped task) (e : Event) : (w.step b e).Dropped task :=
  finished_step h

theorem Dropped.run {task : Nat} (h : w.Dropped task) (events : List Event) :
    (w.run b events).Dropped task := finished_run h

/-- A commit that was accepted is visible, or is to be published, or its call is dropped. -/
def Settles (w : World σ) (s : Stage) (task i : Nat) : Prop :=
  w.Dropped task ∨ i ≤ w.log.memory.commitIndex ∨ s.Owes (task, .commit i)

/-- What the backend has accepted, and how it stands to the memory. -/
structure Booked (w : World σ) (s : Stage) (ledger : Ledger) : Prop where
  standing : w.log.At s
  sound : w.log.memory.Sound
  /-- What is still to be published was accepted last. -/
  owed : ∀ x, s.Owes x → ledger.getLast? = some x
  commits : ∀ task i, (task, Hook.commit i) ∈ ledger → w.Settles s task i
  tallies : ledger.Tallies w.Dropped (s.settled w.log.memory).snapshot

theorem booked_start (config : Config) (store : σ) :
    (World.start config .empty store).Booked .idle [] where
  standing := Log.at_ofReplica config .empty
  sound := Memory.sound_ofReplica (Nat.le_refl _)
  owed := by rintro x ⟨p, ⟨⟩⟩
  commits := by simp
  tallies := Ledger.tallies_nil

/-! ### One event -/

variable {s' : Stage} {e : Event}

theorem Passage.owed (h : Passage b w e (w.step b e) s s')
    (owed : ∀ x, s.Owes x → ledger.getLast? = some x) :
    ∀ x, s'.Owes x → (ledger ++ (w.accepted? b e).toList).getLast? = some x := by
  cases h with
  | still offered store memory =>
    rw [accepted?_of_none offered, Option.toList_none, List.append_nil]
    exact owed
  | returns planned offered store memory ended =>
    rintro x ⟨p, same⟩
    injection same with task hook _ kept
    rw [accepted?_of_offered offered, if_pos kept, task, hook]
    exact List.getLast?_concat
  | begins => exact fun x owes => absurd owes (Stage.not_owes_running _ _ _ x)
  | direct => exact fun x owes => absurd owes (Stage.not_owes_idle x)
  | lapses => exact fun x owes => absurd owes (Stage.not_owes_idle x)
  | publishes => exact fun x owes => absurd owes (Stage.not_owes_idle x)
  | abandons => exact fun x owes => absurd owes (Stage.not_owes_idle x)

/-- What was accepted before. -/
theorem Passage.settles (h : Passage b w e (w.step b e) s s') (sound : w.log.memory.Sound)
    {task i : Nat} (settles : w.Settles s task i) : (w.step b e).Settles s' task i := by
  obtain ⟨-, keeps⟩ := h.keeps sound
  rcases settles with lost | le | owes
  · exact .inl (lost.step e)
  · exact .inr (.inl (Nat.le_trans le keeps.commitIndex))
  · cases h with
    | still => exact .inr (.inr owes)
    | begins => exact absurd owes (Stage.not_owes_idle _)
    | direct => exact absurd owes (Stage.not_owes_idle _)
    | returns => exact absurd owes (Stage.not_owes_running _ _ _ _)
    | lapses => exact absurd owes (Stage.not_owes_running _ _ _ _)
    | publishes planned offered store memory answered =>
      obtain ⟨p, same⟩ := owes
      cases same
      cases planned.planned sound with
      | commit forward within =>
        rw [Settles, memory]
        exact .inr (.inl (Nat.le_refl _))
    | abandons planned offered store memory lost =>
      obtain ⟨p, same⟩ := owes
      cases same
      exact .inl lost

/-- What is accepted now. -/
theorem Passage.settles_accepted (h : Passage b w e (w.step b e) s s')
    (blocking : b.blocking = true) {task i : Nat}
    (accepted : w.accepted? b e = some (task, .commit i)) : (w.step b e).Settles s' task i := by
  obtain ⟨offers, kept⟩ := Option.filter_eq_some_iff.mp accepted
  have kept := of_decide_eq_true kept
  cases h with
  | still offered => rw [offered] at offers; cases offers
  | begins _ _ offered => rw [offered] at offers; cases offers
  | direct nonblocking => rw [blocking] at nonblocking; cases nonblocking
  | @returns id hook p planned offered store memory ended =>
    rw [offered] at offers
    cases offers
    exact .inr (.inr ⟨p, by rw [kept]⟩)
  | lapses planned offered store memory lost =>
    rw [offered] at offers
    cases offers
    exact .inl (lost.resolve_left (by rw [kept]; exact nofun))
  | publishes _ offered => rw [offered] at offers; cases offers
  | abandons _ offered => rw [offered] at offers; cases offers

theorem Passage.tallies (h : Passage b w e (w.step b e) s s') (blocking : b.blocking = true)
    (booked : w.Booked s ledger) :
    (ledger ++ (w.accepted? b e).toList).Tallies (w.step b e).Dropped
      (s'.settled (w.step b e).log.memory).snapshot := by
  have sound := booked.sound
  have tallies := booked.tallies.mono fun _ => Dropped.step (b := b) (e := e)
  cases h with
  | still offered store memory =>
    rw [accepted?_of_none offered, Option.toList_none, List.append_nil,
      (memory.settled s).snapshot]
    exact tallies
  | begins blocking planned offered store memory =>
    rw [accepted?_of_none offered, Option.toList_none, List.append_nil]
    simp only [Stage.settled, memory]
    exact tallies
  | direct nonblocking =>
    rw [blocking] at nonblocking
    cases nonblocking
  | returns planned offered store memory ended =>
    rw [accepted?_of_offered offered]
    simp only [Stage.settled, memory]
    split
    · next kept =>
      rw [kept]
      exact tallies.accept (planned.planned sound)
    · next lost =>
      rw [Option.toList_none, List.append_nil, Publication.outcome_of_not_kept _ _ lost]
      exact tallies
  | lapses planned offered store memory lost =>
    rw [accepted?_of_offered offered]
    simp only [Stage.settled, memory]
    split
    · next kept =>
      -- the backend has the change, and nobody is left to publish it
      have dropped := lost.resolve_left (by rw [kept]; exact nofun)
      exact (tallies.accept (planned.planned sound)).abandon (planned.planned sound)
        List.getLast?_concat dropped
    · rw [Option.toList_none, List.append_nil]
      exact tallies
  | publishes planned offered store memory answered =>
    rw [accepted?_of_none offered, Option.toList_none, List.append_nil]
    simp only [Stage.settled, memory]
    exact tallies
  | @abandons id hook p result planned offered store memory lost =>
    rw [accepted?_of_none offered, Option.toList_none, List.append_nil]
    simp only [Stage.settled, memory] at tallies ⊢
    by_cases kept : result = .kept
    · subst kept
      exact tallies.abandon (planned.planned sound) (booked.owed (id, hook) ⟨p, rfl⟩) lost
    · rwa [Publication.outcome_of_not_kept _ _ kept] at tallies

theorem Booked.step (h : w.Booked s ledger) (blocking : b.blocking = true) (e : Event) :
    ∃ s', (w.step b e).Booked s' (ledger ++ (w.accepted? b e).toList) := by
  obtain ⟨s', standing, passage⟩ := passage_step (b := b) h.standing e
  obtain ⟨sound, -⟩ := passage.keeps h.sound
  refine ⟨s', standing, sound, passage.owed h.owed, fun task i hmem => ?_,
    passage.tallies blocking h⟩
  rcases List.mem_append.mp hmem with earlier | now
  · exact passage.settles h.sound (h.commits task i earlier)
  · exact passage.settles_accepted blocking (Option.mem_toList.mp now)

theorem Booked.run (h : w.Booked s ledger) (blocking : b.blocking = true) (events : List Event) :
    ∃ s', (w.run b events).Booked s' (ledger ++ w.accepted b events) := by
  induction events generalizing w s ledger with
  | nil => exact ⟨s, by rw [accepted, List.append_nil]; exact h⟩
  | cons e rest ih =>
    obtain ⟨s', next⟩ := h.step blocking e
    obtain ⟨s'', last⟩ := ih next
    exact ⟨s'', by rwa [accepted, ← List.append_assoc]⟩

/-- A helper thread's hook is that of the stage, planned in the memory as it is. -/
theorem Booked.offered (h : w.Booked s ledger) (blocking : b.blocking = true) {e : Event}
    {x : Nat × Hook} (offered : w.offered? b e = some x) :
    ∃ p, s = .running x.1 x.2 p ∧ w.log.memory.Planned x.2 p := by
  obtain ⟨s', -, passage⟩ := passage_step (b := b) h.standing e
  cases passage with
  | still none => rw [none] at offered; cases offered
  | begins _ _ none => rw [none] at offered; cases offered
  | direct nonblocking => rw [blocking] at nonblocking; cases nonblocking
  | returns planned some =>
    rw [some] at offered
    cases offered
    exact ⟨_, rfl, planned.planned h.sound⟩
  | lapses planned some =>
    rw [some] at offered
    cases offered
    exact ⟨_, rfl, planned.planned h.sound⟩
  | publishes _ none => rw [none] at offered; cases offered
  | abandons _ none => rw [none] at offered; cases offered

/-- While a commit of a live call stands in the ledger, appends start behind it. -/
theorem Booked.append_behind (h : w.Booked s ledger) (blocking : b.blocking = true) {e : Event}
    {x : Nat × Hook} (accepted : w.accepted? b e = some x) {a : Stretch}
    (covers : Ledger.stretch? x = some a) {task i : Nat}
    (commit : (task, Hook.commit i) ∈ ledger) : w.Dropped task ∨ i < a.start := by
  obtain ⟨offered, -⟩ := Option.filter_eq_some_iff.mp accepted
  obtain ⟨p, rfl, planned⟩ := h.offered blocking offered
  obtain ⟨id, hook⟩ := x
  cases planned with
  | append above within =>
    cases covers
    refine (h.commits task i commit).imp_right fun standing => ?_
    have le := standing.resolve_right (Stage.not_owes_running _ _ _ _)
    exact Nat.lt_of_le_of_lt le above
  | commit _ _ => cases covers
  | setTerm => cases covers
  | nextTerm => cases covers
  | vote => cases covers

theorem Booked.appends_behind (h : w.Booked s ledger) (blocking : b.blocking = true)
    {task i : Nat} (commit : (task, Hook.commit i) ∈ ledger) (events : List Event) :
    (w.run b events).Dropped task ∨ ∀ a ∈ (w.accepted b events).stretches, i < a.start := by
  induction events generalizing w s ledger with
  | nil => exact Or.inr (by simp [World.accepted, Ledger.stretches])
  | cons e rest ih =>
    obtain ⟨s', next⟩ := h.step blocking e
    rcases ih next (List.mem_append_left _ commit) with lost | behind
    · exact Or.inl lost
    · by_cases lost : w.Dropped task
      · exact Or.inl (lost.run (e :: rest))
      · refine Or.inr fun a ha => ?_
        rw [World.accepted, Ledger.stretches_append] at ha
        rcases List.mem_append.mp ha with ha | ha
        · obtain ⟨x, hx, covers⟩ := List.mem_filterMap.mp ha
          exact (h.append_behind blocking (Option.mem_toList.mp hx) covers commit).resolve_left lost
        · exact behind a ha

end World

/-! ## Which ledgers can be replayed -/

namespace Ledger

/-- An append that is accepted right after one of a dropped call starts no later than where that
one stops. -/
def Contiguous (dropped : Nat → Prop) (ledger : Ledger) : Prop :=
  ledger.stretches.IsChain fun a next => dropped a.task → Follows a next

variable {dropped : Nat → Prop} {snapshot : Snapshot} {ledger : Ledger}

theorem Tallies.keepAll_isSome_iff (h : Tallies dropped snapshot ledger) :
    (Replica.empty.keepAll ledger.hooks).isSome ↔ ledger.Contiguous dropped := by
  rw [Replica.keepAll_isSome_iff, List.isChain_cons]
  constructor
  · rintro ⟨-, -, chain⟩
    exact chain.imp fun _ _ follows _ => follows
  · intro contiguous
    refine ⟨h.nonzero, h.head, ?_⟩
    have both := List.isChain_iff_forall_rel_of_append_cons_cons.mp h.chain
    have after := List.isChain_iff_forall_rel_of_append_cons_cons.mp contiguous
    refine List.isChain_iff_forall_rel_of_append_cons_cons.mpr fun a next front back split => ?_
    exact (both split).elim (after split) id

theorem exists_replay_iff (stamps : UInt64 → UInt64)
    (storable : ∀ hook ∈ ledger.hooks, hook.Storable) :
    (∃ r, ledger.replay stamps = .ok r) ↔ (Replica.empty.keepAll ledger.hooks).isSome := by
  have replayed := toOption_replay stamps storable
  rw [← Option.isSome_map (f := Replica.clamp), ← replayed]
  cases ledger.replay stamps with
  | ok r => simp [Except.toOption]
  | error fault => simp [Except.toOption]

end Ledger

/-- What a blocking backend has accepted can be replayed exactly when every append that it accepted
right after one of a dropped call starts no later than where that one stops. -/
theorem replay_accepted_iff {σ : Type} {b : Backend σ} (blocking : b.blocking = true)
    (config : Config) (store : σ) (events : List Event) (stamps : UInt64 → UInt64)
    (storable : ∀ hook ∈ ((World.start config .empty store).accepted b events).hooks,
      hook.Storable) :
    let start := World.start config .empty store
    (∃ r, (start.accepted b events).replay stamps = .ok r) ↔
      (start.accepted b events).Contiguous (start.run b events).Dropped := by
  intro start
  obtain ⟨s, booked⟩ := (World.booked_start config store).run blocking events
  rw [List.nil_append] at booked
  rw [Ledger.exists_replay_iff stamps storable]
  exact booked.tallies.keepAll_isSome_iff

/-- The append of a dropped call follows the one before it, and the next append follows both. -/
theorem replay_accepted_iff_overlap :
    let append (count : Nat) (start : Option Nat) : Call :=
      .append (List.replicate count (.complete .sentinel)) start none
    let events : List Event :=
      (append 3 none).awaited 0 ++ (append 1 (some 1)).droppedInHook 1 ++
        (append 1 (some 2)).awaited 2
    let b : Backend Unit := ⟨true, fun _ s => (.kept, s)⟩
    let start := World.start .default .empty ()
    (b.blocking = true ∧ ∀ hook ∈ (start.accepted b events).hooks, hook.Storable) ∧
      ((∃ r, (start.accepted b events).replay (fun _ => 0) = .ok r) ↔
        (start.accepted b events).Contiguous (start.run b events).Dropped) := by
  intro append events b start
  have storable : ∀ hook ∈ (start.accepted b events).hooks, hook.Storable := by decide +kernel
  exact ⟨⟨rfl, storable⟩, replay_accepted_iff rfl .default () events (fun _ => 0) storable⟩

/-- The append of a dropped call cuts the durable log to one entry; the next append goes behind the
three in memory. -/
theorem replay_accepted_gap :
    let append (count : Nat) (start : Option Nat) : Call :=
      .append (List.replicate count (.complete .sentinel)) start none
    let events : List Event :=
      (append 3 none).awaited 0 ++ (append 1 (some 1)).droppedInHook 1 ++ (append 1 none).awaited 2
    let b : Backend Unit := ⟨true, fun _ s => (.kept, s)⟩
    let start := World.start .default .empty ()
    (∀ hook ∈ (start.accepted b events).hooks, hook.Storable) ∧
      ¬ ∃ r, (start.accepted b events).replay (fun _ => 0) = .ok r := by
  intro append events b start
  have storable : ∀ hook ∈ (start.accepted b events).hooks, hook.Storable := by decide +kernel
  refine ⟨storable, ?_⟩
  rw [Ledger.exists_replay_iff _ storable]
  decide +kernel

/-! ## Which commits are kept -/

/-- The state has all entries up to an index, as they are in memory. -/
def Replica.Agrees (r : Replica) (i : Nat) (m : Memory) : Prop :=
  i ≤ r.entries.size ∧ ∀ k < i, r.entries[k]? = m.snapshot.slots[k + 1]?

namespace Ledger

/-- The ledger can be replayed, and gives all entries up to an index as they are in memory. -/
def HoldsUpTo (stamps : UInt64 → UInt64) (ledger : Ledger) (i : Nat) (m : Memory) : Prop :=
  ∃ r, ledger.replay stamps = .ok r ∧ r.Agrees i m

variable {dropped : Nat → Prop} {ledger later : Ledger} {i task : Nat} {m : Memory}

theorem holdsUpTo_iff (stamps : UInt64 → UInt64)
    (storable : ∀ hook ∈ ledger.hooks, hook.Storable) :
    ledger.HoldsUpTo stamps i m ↔
      ∃ r, Replica.empty.keepAll ledger.hooks = some r ∧ r.Agrees i m := by
  have replayed := toOption_replay stamps storable
  constructor
  · rintro ⟨r, ok, agrees⟩
    rw [ok] at replayed
    obtain ⟨r', kept, rfl⟩ := Option.map_eq_some_iff.mp replayed.symm
    exact ⟨r', kept, agrees⟩
  · rintro ⟨r, kept, agrees⟩
    rw [kept] at replayed
    exact ⟨r.clamp, Replica.eq_ok_of_toOption replayed, agrees⟩

/-- A commit moves no entries. -/
theorem agrees_commit_iff :
    (∃ r, Replica.empty.keepAll (hooks (ledger ++ [(task, .commit i)])) = some r ∧ r.Agrees i m) ↔
      ∃ r, Replica.empty.keepAll ledger.hooks = some r ∧ r.Agrees i m := by
  rw [Replica.keepAll_hooks_concat]
  constructor
  · rintro ⟨r, kept, agrees⟩
    obtain ⟨r', kept', same⟩ := Option.bind_eq_some_iff.mp kept
    cases same
    exact ⟨r', kept', agrees⟩
  · rintro ⟨r, kept, agrees⟩
    exact ⟨{ r with commitIndex := i }, by rw [kept]; rfl, agrees⟩

theorem keepAll_isSome_of_append
    (whole : (Replica.empty.keepAll (hooks (ledger ++ later))).isSome) :
    (Replica.empty.keepAll ledger.hooks).isSome := by
  rw [hooks_append, Replica.keepAll_append] at whole
  cases kept : Replica.empty.keepAll ledger.hooks with
  | none => rw [kept] at whole; cases whole
  | some r => rfl

/-- Appends behind an index leave alone what is kept up to it, in the whole ledger and in every
beginning of it. -/
theorem agrees_append {rest : Ledger}
    (agrees : ∃ r, Replica.empty.keepAll ledger.hooks = some r ∧ r.Agrees i m)
    (behind : ∀ a ∈ (later ++ rest).stretches, i < a.start)
    (whole : (Replica.empty.keepAll (hooks (ledger ++ (later ++ rest)))).isSome) :
    ∃ r, Replica.empty.keepAll (hooks (ledger ++ later)) = some r ∧ r.Agrees i m := by
  obtain ⟨r, kept, within, same⟩ := agrees
  rw [← List.append_assoc] at whole
  have part := keepAll_isSome_of_append whole
  rw [hooks_append, Replica.keepAll_append, kept, Option.bind_some] at part ⊢
  obtain ⟨r', kept'⟩ := Option.isSome_iff_exists.mp part
  obtain ⟨within', below⟩ := Replica.keepAll_below kept' within fun a ha =>
    behind a (by rw [stretches_append]; exact List.mem_append_left _ ha)
  exact ⟨r', kept', within', fun k hk => (below k hk).trans (same k hk)⟩

/-- Without dropped appends the ledger gives what is in memory. -/
theorem Tallies.agrees (h : Tallies dropped m.snapshot ledger)
    (none_dropped : ∀ a ∈ ledger.stretches, ¬ dropped a.task) (within : i ≤ m.snapshot.lastIndex) :
    ∃ r, Replica.empty.keepAll ledger.hooks = some r ∧ r.Agrees i m := by
  obtain ⟨r, kept, mirror⟩ := h.mirrors none_dropped
  refine ⟨r, kept, ?_, fun k _ => ?_⟩
  · rwa [← mirror, Snapshot.lastIndex, Snapshot.length_ofEntries] at within
  · rw [← mirror, Snapshot.ofEntries, Array.getElem?_append_right (by simp)]
    simp

end Ledger

/-- If no append of a dropped call was accepted before, the ledger agrees with the memory when a
commit is accepted. -/
theorem World.Booked.agrees {σ : Type} {b : Backend σ} {w : World σ} {s : Stage} {ledger : Ledger}
    (h : w.Booked s ledger) (blocking : b.blocking = true) {e : Event} {task i : Nat}
    (commit : w.accepted? b e = some (task, .commit i))
    (none_dropped : ∀ a ∈ ledger.stretches, ¬ w.Dropped a.task) :
    ∃ r, Replica.empty.keepAll ledger.hooks = some r ∧ r.Agrees i w.log.memory := by
  obtain ⟨offered, -⟩ := Option.filter_eq_some_iff.mp commit
  obtain ⟨p, rfl, planned⟩ := h.offered blocking offered
  cases planned with
  | commit forward within => exact h.tallies.agrees none_dropped within

/-- An accepted commit is kept from then on (every ledger to come can be replayed to what was in
memory up to its index, and no append starts there) exactly when the whole ledger can be replayed,
the ledger agreed with the memory if an append of a dropped call was in it, and no append replaces
what was committed if the commit's own call is dropped. -/
theorem accepted_commit_kept_iff {σ : Type} {b : Backend σ} (blocking : b.blocking = true)
    (config : Config) (store : σ) {first rest : List Event} {e : Event} {task i : Nat}
    (commit : ((World.start config .empty store).run b first).accepted? b e =
      some (task, .commit i))
    (stamps : UInt64 → UInt64)
    (storable : ∀ hook ∈ ((World.start config .empty store).accepted b (first ++ e :: rest)).hooks,
      hook.Storable) :
    let start := World.start config .empty store
    let before := start.run b first
    let after := start.run b (first ++ e :: rest)
    let later := (before.step b e).accepted b rest
    ((∀ second third, rest = second ++ third →
        (start.accepted b (first ++ e :: second)).HoldsUpTo stamps i before.log.memory) ∧
      ∀ a ∈ later.stretches, i < a.start) ↔
    (start.accepted b (first ++ e :: rest)).Contiguous after.Dropped ∧
      ((∃ a ∈ (start.accepted b first).stretches, after.Dropped a.task) →
        (start.accepted b first).HoldsUpTo stamps i before.log.memory) ∧
      (after.Dropped task → ∀ a ∈ later.stretches, i < a.start) := by
  intro start before after later
  let ledger := start.accepted b first
  let committed : Ledger := ledger ++ [(task, .commit i)]
  have ledger_of (second : List Event) :
      start.accepted b (first ++ e :: second) =
        committed ++ (before.step b e).accepted b second := by
    rw [World.accepted_append, World.accepted, commit, Option.toList_some, ← List.append_assoc]
  have later_of {second third : List Event} (split : rest = second ++ third) :
      later = (before.step b e).accepted b second ++
        ((before.step b e).run b second).accepted b third := by
    rw [← World.accepted_append, ← split]
  have after_eq : after = (before.step b e).run b rest := World.run_append b start first (e :: rest)
  obtain ⟨s, booked⟩ := (World.booked_start config store).run blocking first
  obtain ⟨s', booked'⟩ := booked.step blocking e
  rw [commit, Option.toList_some] at booked'
  obtain ⟨s'', booked''⟩ := booked'.run blocking rest
  change before.Booked s ledger at booked
  change (before.step b e).Booked s' committed at booked'
  change ((before.step b e).run b rest).Booked s'' (committed ++ later) at booked''
  rw [← after_eq] at booked''
  have whole_iff := booked''.tallies.keepAll_isSome_iff
  rw [ledger_of, Ledger.hooks_append, List.forall_mem_append] at storable
  obtain ⟨storable_committed, rest_storable⟩ := storable
  have storable_later : ∀ hook ∈ later.hooks, hook.Storable := rest_storable
  have storable_ledger : ∀ hook ∈ ledger.hooks, hook.Storable := by
    rw [Ledger.hooks_append, List.forall_mem_append] at storable_committed
    exact storable_committed.1
  have holds_iff {second third : List Event} (split : rest = second ++ third) :
      (start.accepted b (first ++ e :: second)).HoldsUpTo stamps i before.log.memory ↔
        ∃ r, Replica.empty.keepAll
            (Ledger.hooks (committed ++ (before.step b e).accepted b second)) = some r ∧
          r.Agrees i before.log.memory := by
    rw [ledger_of, Ledger.holdsUpTo_iff]
    rw [later_of split, Ledger.hooks_append, List.forall_mem_append] at storable_later
    rw [Ledger.hooks_append, List.forall_mem_append]
    exact ⟨storable_committed, storable_later.1⟩
  rw [Ledger.holdsUpTo_iff stamps storable_ledger, ledger_of]
  constructor
  · rintro ⟨holds, behind⟩
    refine ⟨whole_iff.mp ?_, fun _ => ?_, fun _ => behind⟩
    · -- the last of all the ledgers to come
      obtain ⟨r, kept, -⟩ := (holds_iff (List.append_nil _).symm).mp (holds rest [] (by simp))
      exact Option.isSome_iff_exists.mpr ⟨r, kept⟩
    · -- the first of them
      have now := (holds_iff (List.nil_append _).symm).mp (holds [] rest rfl)
      rw [World.accepted, List.append_nil] at now
      exact Ledger.agrees_commit_iff.mp now
  · rintro ⟨contiguous, agreed, overtaken⟩
    have behind : ∀ a ∈ later.stretches, i < a.start := by
      have hmem : (task, Hook.commit i) ∈ committed := List.mem_concat_self
      have live := booked'.appends_behind blocking hmem rest
      rw [← after_eq] at live
      exact live.elim overtaken id
    have now : ∃ r, Replica.empty.keepAll ledger.hooks = some r ∧
        r.Agrees i before.log.memory := by
      by_cases lost : ∃ a ∈ ledger.stretches, after.Dropped a.task
      · exact agreed lost
      · refine booked.agrees blocking commit fun a ha dropped => lost ⟨a, ha, ?_⟩
        rw [after_eq]
        exact (dropped.step e).run rest
    refine ⟨fun second third split => (holds_iff split).mpr ?_, behind⟩
    have whole := whole_iff.mpr contiguous
    rw [later_of split] at whole behind
    exact Ledger.agrees_append (Ledger.agrees_commit_iff.mpr now) behind whole

/-- The call of a commit is dropped, and the next append starts behind what was committed. -/
theorem accepted_commit_kept_iff_behind :
    let append (count : Nat) (start : Option Nat) : Call :=
      .append (List.replicate count (.complete .sentinel)) start none
    let first : List Event :=
      (append 3 none).awaited 0 ++ [.call (.commit (some 2)), .turn 1, .abort 1]
    let e : Event := .hookReturns 1
    let rest : List Event := (append 1 (some 3)).awaited 2
    let b : Backend Unit := ⟨true, fun _ s => (.kept, s)⟩
    let start := World.start .default .empty ()
    let before := start.run b first
    let after := start.run b (first ++ e :: rest)
    let later := (before.step b e).accepted b rest
    (b.blocking = true ∧ before.accepted? b e = some (1, .commit 2) ∧
        ∀ hook ∈ (start.accepted b (first ++ e :: rest)).hooks, hook.Storable) ∧
      (((∀ second third, rest = second ++ third →
          (start.accepted b (first ++ e :: second)).HoldsUpTo (fun _ => 0) 2 before.log.memory) ∧
        ∀ a ∈ later.stretches, 2 < a.start) ↔
      (start.accepted b (first ++ e :: rest)).Contiguous after.Dropped ∧
        ((∃ a ∈ (start.accepted b first).stretches, after.Dropped a.task) →
          (start.accepted b first).HoldsUpTo (fun _ => 0) 2 before.log.memory) ∧
        (after.Dropped 1 → ∀ a ∈ later.stretches, 2 < a.start)) := by
  intro append first e rest b start before after later
  have commit : before.accepted? b e = some (1, .commit 2) := by decide +kernel
  have storable : ∀ hook ∈ (start.accepted b (first ++ e :: rest)).hooks, hook.Storable := by
    decide +kernel
  exact ⟨⟨rfl, commit, storable⟩,
    accepted_commit_kept_iff rfl .default () commit (fun _ => 0) storable⟩

/-- The append of a dropped call cuts the durable log to one entry; the next commit commits the
three in memory. -/
theorem accepted_commit_lost :
    let append (count : Nat) (start : Option Nat) : Call :=
      .append (List.replicate count (.complete .sentinel)) start none
    let first : List Event :=
      (append 3 none).awaited 0 ++ (append 1 (some 1)).droppedInHook 1 ++
        [.call (.commit none), .turn 2]
    let e : Event := .hookReturns 2
    let b : Backend Unit := ⟨true, fun _ s => (.kept, s)⟩
    let start := World.start .default .empty ()
    let before := start.run b first
    (before.accepted? b e = some (2, .commit 3) ∧
        ∀ hook ∈ (start.accepted b (first ++ [e])).hooks, hook.Storable) ∧
      ¬ (start.accepted b (first ++ [e])).HoldsUpTo (fun _ => 0) 3 before.log.memory := by
  intro append first e b start before
  have storable : ∀ hook ∈ (start.accepted b (first ++ [e])).hooks, hook.Storable := by
    decide +kernel
  refine ⟨⟨by decide +kernel, storable⟩, ?_⟩
  rw [Ledger.holdsUpTo_iff _ storable]
  rintro ⟨r, kept, within, -⟩
  have size : (Replica.empty.keepAll (start.accepted b (first ++ [e])).hooks).map
      (fun r => r.entries.size) = some 1 := by decide +kernel
  rw [kept, Option.map_some, Option.some.injEq] at size
  omega

end DurableLog
