import DurableLog.Proofs.Awaited
import DurableLog.Proofs.CommittedPrefix
import DurableLog.Proofs.Mirror

/-!
# The journal refines the memory

As long as no call is dropped, the journal of a log leads to the memory of the log, or is ahead of
it by the one change whose hook has returned and that its task is about to publish
(`World.Refines`). Whenever all calls have ended there is no such change; then the disk and the
memory tell the same state, and a log opens in just this state.

A commit index is recorded when it moves, and not when a log opens. So until a log commits, its
journal still has the commit index of the last commit before, whatever the log has opened with
(`Memory.recorded`).

`History` are the worlds that this is about: a log is opened where there was none, calls are made
in any order, they fail or succeed, the disk runs full and is given room again, and the log is
closed and opened again.
-/

namespace DurableLog

/-! ## The state of a memory -/

namespace Memory

/-- What a journal has to lead to. -/
def replica (m : Memory) : Replica := ⟨m.term, m.vote, m.snapshot.entries, m.commitIndex⟩

/-- The last commit in a journal, when the log has come to the commit index `now`: it was `known`
when the log opened with the commit index `opened`. -/
def lastCommit (opened known now : Nat) : Nat := if now = opened then known else now

@[simp] theorem lastCommit_self (opened now : Nat) : lastCommit opened opened now = now := by
  unfold lastCommit
  split
  · next same => exact same.symm
  · rfl

theorem lastCommit_of_lt {opened known now : Nat} (moved : opened < now) :
    lastCommit opened known now = now := if_neg (by omega)

/-- What a journal leads to before its commit index is brought down to the entries there are. -/
def recorded (opened known : Nat) (m : Memory) : Replica :=
  { m.replica with commitIndex := lastCommit opened known m.commitIndex }

variable {m m' : Memory} {opened known : Nat}

@[simp] theorem recorded_self (opened : Nat) (m : Memory) :
    m.recorded opened opened = m.replica := by
  simp [recorded, replica]

theorem recorded_ofReplica (r : Replica) :
    (ofReplica r.clamp).recorded r.clamp.commitIndex r.commitIndex = r := by
  simp [recorded, replica, ofReplica, Replica.clamp, lastCommit]

theorem Alike.recorded (h : m.Alike m') :
    m'.recorded opened known = m.recorded opened known := by
  simp only [Memory.recorded, Memory.replica, h.term, h.vote, h.snapshot, h.commitIndex]

theorem Sound.clamp_replica (h : m.Sound) : m.replica.clamp = m.replica := by
  have committed : m.replica.commitIndex ≤ m.replica.entries.size := by
    simpa [Memory.replica] using h.committed
  rw [Replica.clamp, Nat.min_eq_left committed]

/-- A commit lies within the entries. -/
theorem Planned.within {index : Nat} {p : Publication} (h : m.Planned (.commit index) p) :
    index ≤ (m.recorded opened known).entries.size := by
  cases h with
  | commit forward within => simpa [Memory.recorded, Memory.replica] using within

/-- Keeping a hook does to the state what the publication does to the memory. -/
theorem Planned.keep {hook : Hook} {p : Publication} (h : m.Planned hook p)
    (onward : opened ≤ m.commitIndex) :
    (m.recorded opened known).keep hook = some ((p.apply m).1.recorded opened known) := by
  cases h with
  | @append start entries above within =>
    have size : (m.recorded opened known).entries.size = m.snapshot.length - 1 :=
      m.snapshot.size_entries
    have fits : ¬ (start = 0 ∨ (m.recorded opened known).entries.size + 1 < start) := by omega
    rw [Replica.keep, if_neg fits]
    simp only [Publication.apply, Memory.recorded, Memory.replica,
      m.snapshot.entries_splice entries (by omega : start ≠ 0) within]
  | @commit last forward within =>
    simp only [Replica.keep, Publication.apply, Memory.recorded, Memory.replica,
      lastCommit_of_lt (Nat.lt_of_le_of_lt onward forward)]
  | @setTerm term =>
    have vote : (if term = m.term then m.vote else none) =
        (if m.term = term then m.vote else none) := by
      simp only [eq_comm]
    rw [Replica.keep, vote]
    rfl
  | nextTerm => rfl
  | vote => rfl

end Memory

/-! ## One hook -/

theorem Journal.Mirrors.backend_keep {j : Journal} {d : Disk} {m : Memory} {opened known : Nat}
    {hook : Hook} {p : Publication} (h : j.Mirrors d (m.recorded opened known)) (sound : m.Sound)
    (onward : opened ≤ m.commitIndex) (planned : m.Plans hook p) (stamps : UInt64 → UInt64) :
    match (Backend.ofJournal stamps).keep hook (j, d) with
    | (result, j', d') =>
      result ≠ .panicked ∧ j'.Mirrors d' ((p.outcome m result).2.recorded opened known) := by
  have follows := planned.planned sound
  have done := h.keep stamps (follows.keep onward)
    fun index same => Memory.Planned.within (same ▸ follows)
  simp only [Backend.ofJournal]
  cases kept : j.keep stamps d hook with
  | mk result rest =>
    rw [kept] at done
    cases result with
    | ok _ => exact ⟨nofun, done⟩
    | error fault => exact ⟨nofun, done⟩

namespace World

/-! ## The simulation -/

variable {w : World (Journal × Disk)} {s : Stage} {opened known : Nat}

/-- The journal leads to the memory, once what its hook has returned for is published. -/
structure Refines (opened known : Nat) (w : World (Journal × Disk)) (s : Stage) : Prop where
  standing : w.log.At s
  sound : w.log.memory.Sound
  alive : ∀ id : Nat, w.log.tasks[id]? ≠ some (.finished .aborted)
  onward : opened ≤ w.log.memory.commitIndex
  mirrors : w.store.1.Mirrors w.store.2 ((s.settled w.log.memory).recorded opened known)

theorem refines_ofReplica (config : Config) (env : Surroundings) {r : Replica} {j : Journal}
    {d : Disk} (mirrors : j.Mirrors d r) :
    Refines r.clamp.commitIndex r.commitIndex ⟨.ofReplica config r.clamp, env, (j, d)⟩ .idle where
  standing := Log.at_ofReplica config r.clamp
  sound := Memory.sound_ofReplica r.commitIndex_clamp
  alive id := by simp [Log.ofReplica]
  onward := Nat.le_refl _
  mirrors := by
    rw [← Memory.recorded_ofReplica r] at mirrors
    exact mirrors

/-- Whatever happens but a drop, the journal goes on leading to the memory. -/
theorem Refines.step (h : Refines opened known w s) (stamps : UInt64 → UInt64) {e : Event}
    (kept : ∀ id, e ≠ .abort id) :
    ∃ s', Refines opened known (w.step (.ofJournal stamps) e) s' := by
  obtain ⟨s', standing, passage⟩ := passage_step (b := .ofJournal stamps) h.standing e
  obtain ⟨sound, keeps⟩ := passage.keeps h.sound
  have alive (id : Nat) :
      (w.step (.ofJournal stamps) e).log.tasks[id]? ≠ some (.finished .aborted) :=
    fun dropped => h.alive id ((w.moves_step kept).dropped dropped)
  refine ⟨s', standing, sound, alive, Nat.le_trans h.onward keeps.commitIndex, ?_⟩
  have mirrors := h.mirrors
  cases passage with
  | still offered store memory =>
    rw [store, (memory.settled s).recorded]
    exact mirrors
  | begins blocking planned offered store memory =>
    rw [store]
    simp only [Stage.settled, memory]
    exact mirrors
  | direct nonblocking planned offered store memory => cases nonblocking
  | returns planned offered store memory ended =>
    have done := mirrors.backend_keep h.sound h.onward planned stamps
    rw [store]
    simp only [Stage.settled, memory]
    exact done.2
  | lapses planned offered store memory lost =>
    -- a journal does not stop in the middle, and no call was dropped
    have done := mirrors.backend_keep h.sound h.onward planned stamps
    rcases lost with panicked | dropped
    · exact absurd panicked done.1
    · exact absurd dropped (alive _)
  | publishes planned offered store memory answered =>
    rw [store]
    simp only [Stage.settled, memory]
    exact mirrors
  | abandons planned offered store memory lost => exact absurd lost (alive _)

theorem Refines.run (h : Refines opened known w s) (stamps : UInt64 → UInt64) {events : List Event}
    (kept : ∀ id, Event.abort id ∉ events) :
    ∃ s', Refines opened known (w.run (.ofJournal stamps) events) s' := by
  induction events generalizing w s with
  | nil => exact ⟨s, h⟩
  | cons e rest ih =>
    obtain ⟨s', next⟩ := h.step stamps fun id same => kept id (same ▸ List.mem_cons_self)
    exact ih next fun id mem => kept id (List.mem_cons_of_mem _ mem)

end World

/-! ## Histories -/

/-- The task has ended. -/
def Task.hasEnded : Task → Bool
  | .finished _ => true
  | _ => false

/-- Every call has ended. -/
def Log.Ended (log : Log) : Prop := log.tasks.all Task.hasEnded = true

/-- What can become of a log on a disk as long as no call is dropped. -/
inductive History : World (Journal × Disk) → Prop
  /-- A log is opened where there was none. -/
  | opened {d d' : Disk} {config : Config} {r : Replica} {j : Journal} (fresh : d.Fresh)
      (valid : config.Valid) (durable : config.dataDir.isSome)
      (opens : d.openLog config = (.ok (r, some j), d')) :
      History (.start config r (j, d'))
  /-- Calls are made, tasks take turns, hooks return, time passes. -/
  | happened {w : World (Journal × Disk)} (history : History w) (stamps : UInt64 → UInt64)
      {events : List Event} (kept : ∀ id, Event.abort id ∉ events) :
      History (w.run (.ofJournal stamps) events)
  /-- The disk has other room. -/
  | limited {w : World (Journal × Disk)} (history : History w) (limit : Option Nat) :
      History { w with store := (w.store.1, w.store.2.setLimit limit) }
  /-- The log is closed once all calls have ended, and opened again. -/
  | reopened {w : World (Journal × Disk)} (history : History w) (ended : w.log.Ended) {d d' : Disk}
      {config : Config} {r : Replica} {closed j : Journal} {result : Except Fault Unit}
      (closes : w.store.1.sync w.store.2 = (result, closed, d)) (valid : config.Valid)
      (durable : config.dataDir.isSome) (opens : d.openLog config = (.ok (r, some j), d')) :
      History ⟨.ofReplica config r, w.env, (j, d')⟩

namespace World

variable {w : World (Journal × Disk)} {s : Stage} {opened known : Nat}

/-- Nothing is left to be published when all calls have ended. -/
theorem Refines.settled_of_ended (h : Refines opened known w s) (ended : w.log.Ended) :
    s.settled w.log.memory = w.log.memory := by
  cases s with
  | idle => rfl
  | running task hook p => rfl
  | returned task hook p result =>
    obtain ⟨-, -, -, -, waits⟩ := h.standing.stands
    obtain ⟨lt, found⟩ := Array.getElem?_eq_some_iff.mp waits
    have finished := Array.all_eq_true.mp ended task lt
    rw [found] at finished
    cases finished

theorem Refines.mirrors_of_ended (h : Refines opened known w s) (ended : w.log.Ended) :
    w.store.1.Mirrors w.store.2 (w.log.memory.recorded opened known) := by
  rw [← h.settled_of_ended ended]
  exact h.mirrors

end World

theorem History.refines {w : World (Journal × Disk)} (h : History w) :
    ∃ opened s, World.Refines opened opened w s := by
  induction h with
  | opened fresh valid durable opens =>
    obtain ⟨j, d', opened, continues⟩ := fresh.openLog valid durable
    rw [opened] at opens
    cases opens
    exact ⟨_, .idle, World.refines_ofReplica _ _ (r := .empty) ⟨[], continues, rfl⟩⟩
  | happened history stamps kept ih =>
    obtain ⟨opened, s, refines⟩ := ih
    exact ⟨opened, refines.run stamps kept⟩
  | limited history limit ih =>
    obtain ⟨opened, s, refines⟩ := ih
    exact ⟨opened, s, refines.standing, refines.sound, refines.alive, refines.onward,
      refines.mirrors.setLimit limit⟩
  | @reopened w history ended d d' config r closed j result closes valid durable opens ih =>
    obtain ⟨opened, s, refines⟩ := ih
    have same := refines.sound.clamp_replica
    obtain ⟨closed', synced, mirrors⟩ := (refines.mirrors_of_ended ended).sync
    rw [synced] at closes
    cases closes
    obtain ⟨j', opens', mirrors'⟩ := mirrors.openLog valid durable
    rw [opens'] at opens
    cases opens
    rw [Memory.recorded_self] at mirrors' ⊢
    have again := World.refines_ofReplica config w.env mirrors'
    rw [same] at again ⊢
    exact ⟨_, .idle, again⟩

/-! ## The main result -/

/-- Whenever all calls have ended, the log file is read to just the state of the log, and with any
settings for a log on a disk the log opens again in just this state. -/
theorem durable_state_refines_memory {w : World (Journal × Disk)} (h : History w)
    (ended : w.log.Ended) :
    w.store.2.readReplica = .ok w.log.memory.replica ∧
      ∀ config : Config, config.Valid → config.dataDir.isSome →
        ∃ j, w.store.2.openLog config = (.ok (w.log.memory.replica, some j), w.store.2) := by
  obtain ⟨opened, s, refines⟩ := h.refines
  have mirrors := refines.mirrors_of_ended ended
  rw [Memory.recorded_self] at mirrors
  have same := refines.sound.clamp_replica
  refine ⟨by rw [mirrors.readReplica, same], fun config valid durable => ?_⟩
  obtain ⟨j, opens, -⟩ := mirrors.openLog valid durable
  rw [same] at opens
  exact ⟨j, opens⟩

/-- Two entries are appended and one committed; then the disk is full, and an append fails. -/
theorem durable_state_refines_memory_full :
    let config : Config := { Config.default with dataDir := some "data" }
    let directory : Disk := { Disk.blank "data" with place := .aDirectory }
    let disk := directory.addLog (.regular .empty)
    let journal : Journal := ⟨⟨disk.walPath, 0, 1, .everyWrite, 0, false⟩, 0, 0⟩
    let entry : Source := .complete ⟨1, .epoch, .empty, false⟩
    let b := Backend.ofJournal fun _ => 0
    let first := (World.start config .empty (journal, disk)).run b
      (Call.nextTerm.awaited 0 ++ (Call.append [entry, entry] none none).awaited 1 ++
        (Call.commit (some 1)).awaited 2)
    let full : World (Journal × Disk) :=
      { first with store := (first.store.1, first.store.2.setLimit (some 0)) }
    let last := full.run b ((Call.append [entry] (some 2) none).awaited 3)
    (last.log.memory.commitIndex = 1 ∧ last.log.memory.snapshot.length = 3) ∧
      (History last ∧ last.log.Ended) ∧
      last.store.2.readReplica = .ok last.log.memory.replica ∧
        ∀ config : Config, config.Valid → config.dataDir.isSome →
          ∃ j, last.store.2.openLog config = (.ok (last.log.memory.replica, some j),
            last.store.2) := by
  intro config directory disk journal entry b first full last
  have valid : config.Valid := (config.fault?_eq_none_iff).mp rfl
  have opened : History (.start config .empty (journal, disk)) :=
    .opened (Disk.fresh_blank "data") valid rfl rfl
  have appended : History first :=
    .happened opened (fun _ => 0) (by simp [Call.awaited])
  have limited : History full := .limited appended (some 0)
  have history : History last :=
    .happened limited (fun _ => 0) (by simp [Call.awaited])
  have ended : last.log.Ended := by
    unfold Log.Ended
    decide +kernel
  exact ⟨by decide +kernel, ⟨history, ended⟩, durable_state_refines_memory history ended⟩

end DurableLog
