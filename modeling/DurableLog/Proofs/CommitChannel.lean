import DurableLog.Proofs.CommitWaits
import DurableLog.Proofs.CommittedPrefix

/-!
# The channel under the board

Looking at the board is short for listening on a channel. The channel carries the commit index and
counts how often it was replaced, and a listener knows the count that it has seen. A commit first
stores its index in the log and then replaces what the channel carries. A listener subscribes and
looks, and as long as its target is not reached it sleeps until the count is another one, and looks
again. Other moves can come between any two of these.

1. A listener that sleeps with nothing new to notice has nothing to wake up for
   (`Signal.Sound.lt_of_stuck`): it subscribed before it looked, so what comes later is new to it.
2. A listener that has been served finds its target committed (`Signal.Sound.stored_of_served`),
   since an index is stored before it is put on the channel.
3. So a poll of the listener gives the answer that a look at the board gives
   (`CommitWait.poll?_eq_answer?`).
4. In every run the channel goes along with the board (`World.Heard.run`), and the turns of a wait
   are polls of a listener that has subscribed when the wait was called (`waits_listen`).
-/

namespace DurableLog

/-! ## Moves -/

/-- A value that is replaced from time to time. -/
structure Channel where
  value : Nat
  /-- How often the value was replaced. -/
  version : Nat
  deriving DecidableEq

def Channel.replace (c : Channel) (value : Nat) : Channel := ⟨value, c.version + 1⟩

/-- What a listener is about to do. -/
inductive Listening
  /-- To look at the channel. -/
  | looks
  /-- To sleep until the channel has another version. -/
  | sleeps
  /-- Nothing; it has found its target reached. -/
  | served
  deriving DecidableEq

/-- The commit index of a log, the channel that tells it and one that listens. -/
structure Signal where
  stored : Nat
  channel : Channel
  /-- The version of the channel that the listener has seen. -/
  seen : Nat
  listening : Listening
  deriving DecidableEq

namespace Signal

/-- One move of a commit or of the listener. -/
inductive Move
  /-- A commit stores its index; commits do not go back. -/
  | store (index : Nat)
  /-- It puts what it has stored on the channel. The guard keeps other commits out until then, but
  nothing here relies on it. -/
  | publish
  /-- The listener looks. -/
  | look
  /-- The listener notices that the channel has changed. -/
  | wake

/-- A listener subscribes. -/
def subscribe (stored : Nat) (channel : Channel) : Signal :=
  ⟨stored, channel, channel.version, .looks⟩

/-- What a move does for a listener with this target. -/
def move (target : Nat) (σ : Signal) : Move → Signal
  | .store index => { σ with stored := max σ.stored index }
  | .publish => { σ with channel := σ.channel.replace σ.stored }
  | .look =>
    if σ.listening = .looks then
      { σ with
        seen := σ.channel.version
        listening := if target ≤ σ.channel.value then .served else .sleeps }
    else σ
  | .wake =>
    if σ.listening = .sleeps ∧ σ.seen ≠ σ.channel.version then
      { σ with seen := σ.channel.version, listening := .looks }
    else σ

def moves (target : Nat) (σ : Signal) (ms : List Move) : Signal := ms.foldl (move target) σ

/-- The listener is polled: if the channel has changed it looks. -/
def poll (target : Nat) (σ : Signal) : Signal := σ.moves target [.wake, .look]

/-- A commit moves the index. -/
def commit (target index : Nat) (σ : Signal) : Signal := σ.moves target [.store index, .publish]

/-- What holds after any moves. -/
structure Sound (target : Nat) (σ : Signal) : Prop where
  value_le : σ.channel.value ≤ σ.stored
  seen_le : σ.seen ≤ σ.channel.version
  /-- Whoever sleeps has looked at the version it has seen. -/
  slept : σ.listening = .sleeps → σ.seen = σ.channel.version → σ.channel.value < target
  served : σ.listening = .served → target ≤ σ.channel.value

variable {target : Nat} {σ : Signal}

theorem sound_subscribe {stored : Nat} {channel : Channel} (le : channel.value ≤ stored) :
    (subscribe stored channel).Sound target :=
  ⟨le, Nat.le_refl _, nofun, nofun⟩

theorem Sound.move (h : σ.Sound target) (m : Move) : (σ.move target m).Sound target := by
  cases m with
  | store index =>
    exact ⟨Nat.le_trans h.value_le (Nat.le_max_left ..), h.seen_le, h.slept, h.served⟩
  | publish =>
    -- what is new to the listener need not be too low for it
    refine ⟨Nat.le_refl _, Nat.le_succ_of_le h.seen_le, fun _ same => ?_, fun served => ?_⟩
    · exact absurd same (Nat.ne_of_lt (Nat.lt_succ_of_le h.seen_le))
    · exact Nat.le_trans (h.served served) h.value_le
  | look =>
    simp only [Signal.move]
    split
    · refine ⟨h.value_le, Nat.le_refl _, fun sleeps _ => ?_, fun served => ?_⟩
      · by_contra reached
        simp [Nat.le_of_not_lt reached] at sleeps
      · by_contra missed
        simp [missed] at served
    · exact h
  | wake =>
    simp only [Signal.move]
    split
    · exact ⟨h.value_le, Nat.le_refl _, nofun, nofun⟩
    · exact h

theorem Sound.moves (h : σ.Sound target) (ms : List Move) : (σ.moves target ms).Sound target := by
  induction ms generalizing σ with
  | nil => exact h
  | cons m rest ih => exact ih (h.move m)

/-! ## What the order of the moves is good for -/

/-- No wake-up is lost: a listener that can neither look nor wake up has no reason to. -/
theorem Sound.lt_of_stuck (h : σ.Sound target) (unserved : σ.listening ≠ .served)
    (cannot_look : σ.move target .look = σ) (cannot_wake : σ.move target .wake = σ) :
    σ.channel.value < target := by
  cases listening : σ.listening with
  | served => exact absurd listening unserved
  | looks =>
    rw [Signal.move, if_pos listening] at cannot_look
    have after := congrArg Signal.listening cannot_look
    simp only [listening] at after
    split at after <;> cases after
  | sleeps =>
    refine h.slept listening ?_
    by_contra changed
    rw [Signal.move, if_pos ⟨listening, changed⟩] at cannot_wake
    have after := congrArg Signal.listening cannot_wake
    rw [listening] at after
    cases after

/-- Whoever looks first and subscribes then can miss a commit in between, and sleeps although its
target is reached. -/
example :
    let late : Signal := ⟨1, Channel.replace ⟨0, 0⟩ 1, 1, .sleeps⟩
    late.move 1 .look = late ∧ late.move 1 .wake = late ∧ late.channel.value = 1 := by decide

/-- Who has been served finds its target stored. -/
theorem Sound.stored_of_served (h : σ.Sound target) (served : σ.listening = .served) :
    target ≤ σ.stored := Nat.le_trans (h.served served) h.value_le

/-- A poll leaves the log and the channel alone. -/
theorem poll_channel (target : Nat) (σ : Signal) :
    (σ.poll target).stored = σ.stored ∧ (σ.poll target).channel = σ.channel := by
  have kept (σ : Signal) (m : Move) (own : m = .wake ∨ m = .look) :
      (σ.move target m).stored = σ.stored ∧ (σ.move target m).channel = σ.channel := by
    rcases own with rfl | rfl
    · simp only [move]
      split <;> exact ⟨rfl, rfl⟩
    · simp only [move]
      split <;> exact ⟨rfl, rfl⟩
  obtain ⟨stored, channel⟩ := kept σ .wake (.inl rfl)
  obtain ⟨stored', channel'⟩ := kept (σ.move target .wake) .look (.inr rfl)
  exact ⟨stored'.trans stored, channel'.trans channel⟩

/-- A poll serves a listener exactly if the channel carries its target. -/
theorem Sound.poll_served_iff (h : σ.Sound target) :
    (σ.poll target).listening = .served ↔ target ≤ σ.channel.value := by
  have sound := h.moves [.wake, .look]
  have looked (σ : Signal) (looks : σ.listening = .looks) (reached : target ≤ σ.channel.value) :
      (σ.move target .look).listening = .served := by
    rw [Signal.move, if_pos looks]
    exact if_pos reached
  constructor
  · intro served
    rw [← (poll_channel target σ).2]
    exact sound.served served
  · intro reached
    rw [poll, Signal.moves, List.foldl_cons, List.foldl_cons, List.foldl_nil]
    cases listening : σ.listening with
    | looks =>
      have awake : σ.move target .wake = σ := if_neg (by simp [listening])
      rw [awake]
      exact looked σ listening reached
    | sleeps =>
      have changed : σ.seen ≠ σ.channel.version := fun same =>
        absurd (h.slept listening same) (Nat.not_lt.mpr reached)
      have woken : σ.move target .wake =
          { σ with seen := σ.channel.version, listening := .looks } := if_pos ⟨listening, changed⟩
      rw [woken]
      exact looked _ rfl reached
    | served =>
      have awake : σ.move target .wake = σ := if_neg (by simp [listening])
      have done : σ.move target .look = σ := if_neg (by simp [listening])
      rw [awake, done]
      exact listening

/-- A commit leaves what it commits in the log and on the channel. -/
theorem commit_channel (target : Nat) {index : Nat} (onward : σ.stored ≤ index) :
    (σ.commit target index).stored = index ∧ (σ.commit target index).channel.value = index :=
  ⟨Nat.max_eq_right onward, Nat.max_eq_right onward⟩

end Signal

/-! ## Polls and looks -/

namespace CommitWait

/-- The answer to a wait that listens and is polled: a call-off comes first, then the listener, and
the end of the time last. -/
def poll? (wait : CommitWait) (s : Surroundings) (σ : Signal) : Option (Except Fault Unit) :=
  if s.isCancelled wait.token then some (.error .canceled)
  else if (σ.poll wait.target).listening = .served then some (.ok ())
  else if wait.Expired s then some (.error (.timeout wait.target wait.time))
  else none

/-- The answer to a wait that begins: it subscribes and looks before anything else. -/
def firstPoll? (wait : CommitWait) (s : Surroundings) (stored : Nat) (channel : Channel) :
    Option (Except Fault Unit) :=
  let σ := (Signal.subscribe stored channel).move wait.target .look
  if σ.listening = .served then some (.ok ()) else wait.poll? s σ

variable {wait : CommitWait} {s : Surroundings} {σ : Signal}

/-- A poll gives what a look at the board gives. -/
theorem poll?_eq_answer? (h : σ.Sound wait.target) :
    wait.poll? s σ = wait.answer? s σ.channel.value := by
  simp only [poll?, answer?, h.poll_served_iff]

theorem firstPoll?_eq_firstAnswer? {stored : Nat} {channel : Channel}
    (le : channel.value ≤ stored) :
    wait.firstPoll? s stored channel = wait.firstAnswer? s channel.value := by
  have subscribed : (Signal.subscribe stored channel).Sound wait.target := Signal.sound_subscribe le
  have sound := subscribed.move .look
  have looked : (Signal.subscribe stored channel).move wait.target .look =
      ⟨stored, channel, channel.version,
        if wait.target ≤ channel.value then .served else .sleeps⟩ := rfl
  rw [firstPoll?, firstAnswer?, poll?_eq_answer? sound]
  simp only [looked]
  by_cases reached : wait.target ≤ channel.value
  · simp [reached]
  · simp [reached]

end CommitWait

/-! ## Runs -/

/-- The listener of a task after an event: a turn of the task polls it. -/
def Signal.turn (target id : Nat) (signal : Signal) : Event → Signal
  | .turn task => if task = id then signal.poll target else signal
  | _ => signal

theorem Signal.Sound.turn {target : Nat} {signal : Signal} (h : signal.Sound target) (id : Nat)
    (e : Event) :
    (signal.turn target id e).Sound target ∧
      (signal.turn target id e).stored = signal.stored ∧
      (signal.turn target id e).channel = signal.channel := by
  cases e with
  | turn task =>
    simp only [Signal.turn]
    split
    · exact ⟨h.moves _, Signal.poll_channel target signal⟩
    · exact ⟨h, rfl, rfl⟩
  | call c | hookReturns task | abort task | cancel token | openGate name | pass nanos =>
    exact ⟨h, rfl, rfl⟩

namespace World

variable {σ : Type} {b : Backend σ} {w : World σ} {id : Nat} {wait : CommitWait} {signal : Signal}

/-- The channel of a log and the listener of a task after an event that leads to `w'`. A commit
index that has moved was stored and published. -/
def signalled (w' : World σ) (target id : Nat) (signal : Signal) (e : Event) : Signal :=
  let turned := signal.turn target id e
  if signal.stored < w'.log.memory.commitIndex then
    turned.commit target w'.log.memory.commitIndex
  else turned

/-- The channel and the listener after a list of events. -/
def signalledAll (b : Backend σ) (w : World σ) (target id : Nat) (signal : Signal) :
    List Event → Signal
  | [] => signal
  | e :: rest =>
    (w.step b e).signalledAll b target id ((w.step b e).signalled target id signal e) rest

/-- The channel tells what the board shows, and the listener is in order. -/
structure Heard (w : World σ) (target : Nat) (signal : Signal) : Prop where
  posted : w.Posted
  inOrder : w.InOrder
  sound : signal.Sound target
  stored : signal.stored = w.log.memory.commitIndex
  value : signal.channel.value = w.log.memory.board.published

variable {target : Nat}

/-- A listener has just subscribed and looked. -/
theorem heard_subscribe (posted : w.Posted) (inOrder : w.InOrder) (target version : Nat) :
    let stored := w.log.memory.commitIndex
    w.Heard target ((Signal.subscribe stored ⟨stored, version⟩).move target .look) := by
  intro stored
  have sound : (Signal.subscribe stored ⟨stored, version⟩).Sound target :=
    Signal.sound_subscribe (Nat.le_refl _)
  exact ⟨posted, inOrder, sound.move .look, rfl, posted.published.symm⟩

theorem Heard.step (h : w.Heard target signal) (id : Nat) (e : Event) :
    (w.step b e).Heard target ((w.step b e).signalled target id signal e) := by
  have posted := h.posted.step (b := b) e
  obtain ⟨inOrder, keeps⟩ := h.inOrder.step (b := b) e
  obtain ⟨sound, stored, channel⟩ := h.sound.turn id e
  have onward := keeps.commitIndex
  rw [← h.stored] at onward
  rw [signalled]
  by_cases moved : signal.stored < (w.step b e).log.memory.commitIndex
  · have further := Nat.le_trans (Nat.le_of_eq stored) onward
    obtain ⟨stores, tells⟩ := Signal.commit_channel target further
    rw [if_pos moved]
    exact ⟨posted, inOrder, sound.moves _, stores, tells.trans posted.published.symm⟩
  · have same : signal.stored = (w.step b e).log.memory.commitIndex := by omega
    rw [if_neg moved]
    refine ⟨posted, inOrder, sound, stored.trans same, ?_⟩
    rw [channel, h.value, posted.published, h.posted.published, ← h.stored, same]

theorem Heard.run (h : w.Heard target signal) (id : Nat) (events : List Event) :
    (w.run b events).Heard target (w.signalledAll b target id signal events) := by
  induction events generalizing w signal with
  | nil => exact h
  | cons e rest ih => exact ih (h.step id e)

/-- The turn of a wait is a poll of its listener. -/
theorem Heard.turn? (h : w.Heard wait.target signal)
    (waits : w.log.tasks[id]? = some (.waiting wait)) :
    w.log.turn? b w.env id w.store = (wait.poll? w.env signal).map fun result =>
      ((w.log.updateBoard .leave).finish id (Log.waitResult result), w.store) := by
  rw [CommitWait.poll?_eq_answer? h.sound, h.value]
  simp only [Log.turn?, waits]

end World

/-! ## The main result -/

/-- A call to wait for a commit subscribes to the channel and looks. However calls, commits, drops
and time are ordered from then on, the log has stored what the channel carries, and as long as the
task waits its turns are polls of its listener. -/
theorem waits_listen {σ : Type} (b : Backend σ) (config : Config) {r : Replica}
    (restorable : r.Restorable) (store : σ) (first rest : List Event) {index : Nat}
    (real : index ≠ 0) (time : Duration) (token : Option String) (version : Nat) :
    let before := (World.start config r store).run b first
    let id := before.log.tasks.size
    let wait := CommitWait.start before.env index time token
    let stored := before.log.memory.commitIndex
    let channel : Channel := ⟨stored, version⟩
    let called := before.step b (.call (.waitForCommit index time token))
    let after := called.run b rest
    let signal := called.signalledAll b index id
      ((Signal.subscribe stored channel).move index .look) rest
    called.log.tasks[id]? = some (match wait.firstPoll? before.env stored channel with
      | some result => .finished (Log.waitResult result)
      | none => .waiting wait) ∧
    (signal.stored = after.log.memory.commitIndex ∧
      signal.channel.value = after.log.memory.commitIndex) ∧
    (after.log.tasks[id]? = some (.waiting wait) →
      after.log.turn? b after.env id after.store = (wait.poll? after.env signal).map fun result =>
        ((after.log.updateBoard .leave).finish id (Log.waitResult result), after.store)) := by
  intro before id wait stored channel called after signal
  have posted : before.Posted := (World.posted_start config r store).run first
  have inOrder : before.InOrder :=
    ((World.inOrder_start config restorable.commitIndex store).run first).1
  obtain ⟨s, standing⟩ := inOrder.1
  have alike : before.log.memory.Alike called.log.memory := (standing.call before.env _).2
  have called_posted : called.Posted := posted.step _
  have called_inOrder : called.InOrder := (inOrder.step _).1
  have heard : called.Heard index ((Signal.subscribe stored channel).move index .look) := by
    have subscribed := World.heard_subscribe called_posted called_inOrder index version
    rwa [alike.commitIndex] at subscribed
  have later := heard.run (b := b) id rest
  refine ⟨?begins, ⟨later.stored, later.value.trans later.posted.published⟩, fun waits => ?turns⟩
  case begins =>
    rw [wait.firstPoll?_eq_firstAnswer? (Nat.le_refl stored)]
    have begun := World.step_waitForCommit b before real time token
    rw [posted.published] at begun
    exact begun
  case turns => exact later.turn? waits

end DurableLog
