import DurableLog.Proofs.BatchSize
import DurableLog.Proofs.CommittedPrefix
import DurableLog.Proofs.FailedCalls

/-!
# What was appended is read back

An append is answered by the state that it reads when it has the guard, and on success the log reads
then as the batch and what was below it (`append_reads_back`), whatever other tasks do in between.

1. A range that ends within the log is a part of the slots, and no other range is read
   (`Snapshot.range_within`, `Snapshot.range_beyond`).
2. So the ranges of a log are known once its slots are, and an append replaces the slots from its
   place on (`Log.readsBack_splice`).
3. Which start is allowed is a matter of the commit index and the last index
   (`Memory.settles_perform`).
4. Nothing becomes visible between the turn in which an append reads the state and the one in which
   it publishes (`World.alike_until_published`), so that it is placed in what it has read.
-/

namespace DurableLog

/-! ## Ranges -/

namespace Snapshot

variable {s : Snapshot} {first last place : Nat}

theorem range_within (within : last < s.length) :
    s.range first last = .ok (s.slots.extract first (last + 1)) := by
  rw [range, if_neg (Nat.not_le.mpr within)]
  split
  · next reversed => rw [Array.extract_empty_of_stop_le_start (by omega)]
  · rfl

theorem range_beyond (beyond : s.length ≤ last) :
    s.range first last = .error (.indexOutOfRange last s.length) := if_pos beyond

/-- The slots of a part, told one by one. -/
theorem map_some_extract (slots : Array Entry) {stop : Nat} (within : stop ≤ slots.size) :
    (slots.extract first stop).toList.map some =
      (List.range' first (stop - first)).map fun i => slots[i]? := by
  apply List.ext_getElem
  · simp only [List.length_map, List.length_range', Array.length_toList, Array.size_extract,
      Nat.min_eq_left within]
  · intro i inside _
    have valid : first + i < slots.size := by
      simp only [List.length_map, Array.length_toList, Array.size_extract] at inside
      omega
    simp [valid]

variable (entries : Array Entry)

/-- A slot behind a splice comes from the entries, and any other one from before. -/
theorem getElem?_splice (within : place ≤ s.length) (i : Nat) :
    (s.splice place entries).slots[i]? =
      if i < place then s.slots[i]? else entries[i - place]? := by
  split
  · next below => exact s.splice_below place entries below within
  · next behind =>
    unfold length at within
    have size : (s.slots.take place).size = place := by simp [within]
    rw [splice, Array.getElem?_append_right (by omega), size]

/-- What is spliced in is all that stands from its place on. -/
theorem extract_splice (within : place ≤ s.length) :
    (s.splice place entries).slots.extract place (place + entries.size) = entries := by
  unfold length at within
  have size : (s.slots.take place).size = place := by simp [within]
  rw [splice, Array.extract_append, size, Nat.sub_self, Nat.add_sub_cancel_left,
    Array.extract_empty_of_size_le_start (by omega), Array.empty_append, Array.extract_size]

/-- A splice leaves what ends below it. -/
theorem extract_splice_below (within : place ≤ s.length) {stop : Nat} (below : stop ≤ place) :
    (s.splice place entries).slots.extract first stop = s.slots.extract first stop := by
  unfold length at within
  have size : (s.slots.take place).size = place := by simp [within]
  have none : stop - place ≤ first - place := by omega
  rw [splice, Array.extract_append, size, Array.extract_empty_of_stop_le_start none,
    Array.append_empty, Array.take, Array.extract_extract, Nat.zero_add, Nat.zero_add,
    Nat.min_eq_left below]

end Snapshot

/-! ## What is read after an append -/

/-- The log reads as another one did below `place`, and as the batch from there on. -/
structure Log.ReadsBack (before after : Log) (place : Nat) (batch : Array Entry) : Prop where
  /-- The batch ends the log, be it longer or shorter than before. -/
  last : after.memory.snapshot.lastIndex = place + batch.size - 1
  /-- All that is found from the place on is the batch. -/
  own : after.readRange place none = .ok batch
  /-- What ends below the place is found as before. -/
  below : ∀ i j, j < place → after.readRange i (some j) = before.readRange i (some j)
  /-- Every range that ends within the log is found, in order, and no other one is. -/
  ranges : ∀ i j,
    if j ≤ place + batch.size - 1 then
      ∃ found, after.readRange i (some j) = .ok found ∧
        found.toList.map some = (List.range' i (j + 1 - i)).map fun index =>
          if index < place then before.memory.snapshot.slots[index]? else batch[index - place]?
    else after.readRange i (some j) = .error (.indexOutOfRange j (place + batch.size))

/-- An append replaces the slots from its place on. -/
theorem Log.readsBack_splice {before after : Log} {place : Nat} {batch : Array Entry}
    (behind : 1 ≤ place) (within : place ≤ before.memory.snapshot.length)
    (spliced : after.memory.snapshot = before.memory.snapshot.splice place batch) :
    before.ReadsBack after place batch := by
  have length := before.memory.snapshot.length_splice place batch within
  have last : after.memory.snapshot.lastIndex = place + batch.size - 1 := by
    rw [spliced, Snapshot.lastIndex, length]
  refine ⟨last, ?own, ?below, ?ranges⟩
  case own =>
    have stop : place + batch.size - 1 + 1 = place + batch.size := by omega
    rw [Log.readRange, Option.getD_none, last, spliced, Snapshot.range_within (by omega), stop,
      Snapshot.extract_splice batch within]
  case below =>
    intro i j below
    rw [Log.readRange, Log.readRange, Option.getD_some, Option.getD_some, spliced,
      Snapshot.range_within (by omega), Snapshot.range_within (by omega),
      Snapshot.extract_splice_below batch within (by omega)]
  case ranges =>
    intro i j
    rw [Log.readRange, Option.getD_some, spliced]
    split
    · next inside =>
      have stop : j + 1 ≤ (before.memory.snapshot.splice place batch).slots.size := by
        show j + 1 ≤ (before.memory.snapshot.splice place batch).length
        omega
      refine ⟨_, Snapshot.range_within (by omega), ?_⟩
      rw [Snapshot.map_some_extract _ stop]
      exact List.map_congr_left fun index _ => Snapshot.getElem?_splice batch within index
    · next outside => rw [Snapshot.range_beyond (by omega), length]

/-! ## Which start is allowed -/

namespace Memory

variable {m : Memory} {batch : Array Entry} {start : Option Nat}

/-- Where an append goes that has no place of its own: behind the last entry. -/
def place (m : Memory) (start : Option Nat) : Nat := start.getD (m.snapshot.lastIndex + 1)

/-- The append leaves what is committed, and no gap. -/
def Allows (m : Memory) (start : Option Nat) : Prop :=
  ∀ s, start = some s → m.commitIndex < s ∧ s ≤ m.snapshot.lastIndex + 1

/-- What an append comes to when it reads the state. -/
inductive PlansAppend (m : Memory) (batch : Array Entry) : Option Nat → Plan → Prop
  | placed {start : Option Nat} (allowed : m.Allows start) :
      PlansAppend m batch start
        (.keep (.append (m.place start) batch) (.append m.snapshot (m.place start) batch))
  | committed {s : Nat} (low : s ≤ m.commitIndex) :
      PlansAppend m batch (some s) (.refuse (.invalidAppendIndex s m.commitIndex))
  | beyond {s : Nat} (high : m.snapshot.lastIndex + 1 < s) :
      PlansAppend m batch (some s) (.refuse (.indexOutOfRange s (m.snapshot.lastIndex + 1)))

theorem plansAppend (sound : m.Sound) (batch : Array Entry) (start : Option Nat) :
    m.PlansAppend batch start (m.plan (.append batch start)) := by
  cases start with
  | none =>
    have placed : m.PlansAppend batch none _ := .placed nofun
    rwa [place, Option.getD_none, ← sound.length_eq] at placed
  | some s =>
    simp only [plan, sound.length_eq]
    split
    · next low => exact .committed low
    · next above =>
      split
      · next high => exact .beyond high
      · next within =>
        refine .placed fun s' same => ?_
        cases same
        exact ⟨Nat.not_le.mp above, Nat.not_lt.mp within⟩

/-- A place that is allowed lies behind the sentinel and within the log. -/
theorem Allows.place (allowed : m.Allows start) :
    1 ≤ m.place start ∧ m.place start ≤ m.snapshot.lastIndex + 1 := by
  unfold Memory.place
  cases start with
  | none => exact ⟨Nat.le_add_left .., Nat.le_refl _⟩
  | some s =>
    obtain ⟨above, within⟩ := allowed s rfl
    exact ⟨Nat.lt_of_le_of_lt (Nat.zero_le _) above, within⟩

/-- The result is what the memory has an append at `start` answered. -/
structure Settles (m : Memory) (start : Option Nat) (result : Except Fault Reply) : Prop where
  placed : result = .ok (.index (m.place start)) ↔ m.Allows start
  committed : ∀ s c, result = .error (.invalidAppendIndex s c) ↔
    start = some s ∧ s ≤ m.commitIndex ∧ c = m.commitIndex
  beyond : ∀ s n, result = .error (.indexOutOfRange s n) ↔
    start = some s ∧ m.snapshot.lastIndex + 1 < s ∧ n = m.snapshot.lastIndex + 1

/-- An append whose hook keeps it is answered by the state that it reads. -/
theorem settles_perform (sound : m.Sound) (batch : Array Entry) (start : Option Nat) :
    m.Settles start (m.perform (.append batch start) .kept).1 := by
  have committed := sound.committed
  have plans := plansAppend sound batch start
  generalize planned : m.plan (.append batch start) = plan at plans
  cases plans with
  | placed allowed =>
    rw [perform_of_keep planned]
    refine ⟨iff_of_true rfl allowed, fun s c => iff_of_false nofun ?_,
      fun s n => iff_of_false nofun ?_⟩
    · rintro ⟨same, low, -⟩
      exact absurd (allowed s same).1 (Nat.not_lt.mpr low)
    · rintro ⟨same, high, -⟩
      exact absurd (allowed s same).2 (Nat.not_le.mpr high)
  | @committed s low =>
    rw [perform_of_refuse planned]
    refine ⟨iff_of_false nofun fun allowed => ?_, fun s' c => ?_,
      fun s' n => iff_of_false nofun ?_⟩
    · exact absurd (allowed s rfl).1 (Nat.not_lt.mpr low)
    · grind
    · rintro ⟨same, high, -⟩
      cases same
      omega
  | @beyond s high =>
    rw [perform_of_refuse planned]
    refine ⟨iff_of_false nofun fun allowed => ?_, fun s' c => iff_of_false nofun ?_,
      fun s' n => ?_⟩
    · exact absurd (allowed s rfl).2 (Nat.not_le.mpr high)
    · rintro ⟨same, low, -⟩
      cases same
      omega
    · grind

end Memory

/-! ## What is taken in -/

namespace Capture

variable {intake : Intake} {c : Capture}

/-- The number of sources of a batch, whatever has become of them so far. -/
def count (c : Capture) : Nat := c.finished.size + c.current.toList.length + c.rest.length

theorem runRest_count (intake : Intake) (signals : Signals) (finished : Array Entry)
    (sources : List Source) :
    (runRest intake signals finished sources).Keeps
      (fun c => c.count = finished.size + sources.length)
      (fun taken => taken.size = finished.size + sources.length) := by
  induction sources generalizing finished with
  | nil => rfl
  | cons source rest ih =>
    rw [runRest]
    cases begin intake signals source with
    | waiting filling =>
      simp only [Attempt.Keeps, count, Option.toList_some, List.length_cons, List.length_nil]
      omega
    | finished result =>
      cases result with
      | error fault => trivial
      | ok entry =>
        have onward := ih (finished.push entry)
        have same : (finished.push entry).size + rest.length =
            finished.size + (source :: rest).length := by
          rw [Array.size_push, List.length_cons]
          omega
        rwa [same] at onward

theorem run_count (intake : Intake) (signals : Signals) (c : Capture) :
    (c.run intake signals).Keeps (fun c' => c'.count = c.count)
      (fun taken => taken.size = c.count) := by
  unfold run
  cases current : c.current with
  | none =>
    have onward := runRest_count intake signals c.finished c.rest
    simpa [count, current] using onward
  | some filling =>
    simp only
    cases filling.run intake signals with
    | waiting filling' => simp [Attempt.Keeps, count, current]
    | finished result =>
      cases result with
      | error fault => trivial
      | ok entry =>
        have onward := runRest_count intake signals (c.finished.push entry) c.rest
        simpa [count, current] using onward

/-- Every source of a batch that is taken in gives one entry. -/
theorem Leads.size {taken : Except Fault (Array Entry)} (leads : c.Leads intake taken) :
    ∀ batch, taken = .ok batch → batch.size = c.count := by
  induction leads with
  | @ends c taken signals ended =>
    rintro batch rfl
    have count := c.run_count intake signals
    rwa [ended] at count
  | @goes c next taken signals pauses leads ih =>
    intro batch same
    have count := c.run_count intake signals
    rw [pauses] at count
    rw [ih batch same, count]

end Capture

/-! ## From reading to publishing -/

/-- In a list that names everything once, what is behind a part that ends with the last name is the
end. -/
theorem eq_of_prefix_concat {α : Type} {front before : List (Nat × α)} {x y : Nat × α}
    (place : front ++ [x] <+: before ++ [y]) (same : x.1 = y.1)
    (once : ((before ++ [y]).map Prod.fst).Nodup) : front = before ∧ x = y := by
  rcases List.prefix_concat_iff.mp place with whole | within
  · obtain ⟨rfl, last⟩ := List.append_inj' whole rfl
    cases last
    exact ⟨rfl, rfl⟩
  · rw [List.map_append, List.nodup_append] at once
    have mem : x.1 ∈ before.map Prod.fst := List.mem_map_of_mem (within.subset (by simp))
    exact absurd same (once.2.2 x.1 mem y.1 (by simp))

namespace World

variable {σ : Type} {b : Backend σ} {w : World σ} {s : Stage} {id : Nat} {mutation : Mutation}
  {first between later rest : List Event} {e e' : Event}

/-- Nothing becomes visible between the turn in which a write reads the state and the one in which
it publishes. -/
theorem alike_until_published (orderly : ∀ events, w.Orderly b events)
    (begun : (w.run b first).begun? e = some (id, mutation))
    (split : e :: rest = between ++ e' :: later)
    (published : (w.run b (first ++ between)).published? b e' = some id) :
    (w.run b first).log.memory.Alike (w.run b (first ++ between)).log.memory := by
  cases between with
  | nil => rw [List.append_nil]; exact .refl _
  | cons e'' between =>
    obtain ⟨rfl, -⟩ := List.cons.inj split
    obtain ⟨before, mutation', sequence, same⟩ := (orderly _).last_of_published published
    have place : w.sequence b first ++ [(id, mutation)] <+:
        w.sequence b (first ++ e :: between ++ [e']) := by
      rw [List.append_assoc]
      exact place_of_begun begun
    have once := (orderly (first ++ e :: between ++ [e'])).accounts.once
    rw [sequence] at place once
    obtain ⟨rfl, -⟩ := eq_of_prefix_concat place rfl once
    have now := (orderly (first ++ e :: between)).accounts.memory
    rw [same] at now
    exact (seen_of_begun orderly begun).symm.trans now

/-- So what it publishes is made of what it has read. -/
theorem publishes_as_read (orderly : ∀ events, w.Orderly b events)
    (begun : (w.run b first).begun? e = some (id, mutation))
    (split : e :: rest = between ++ e' :: later)
    (published : (w.run b (first ++ between)).published? b e' = some id) :
    ((w.run b first).log.memory.perform mutation .kept).2.Alike
      (w.run b (first ++ between ++ [e'])).log.memory := by
  have next := orderly (first ++ between ++ [e'])
  obtain ⟨mutation', mem, performed⟩ := (orderly _).performs next published
  obtain ⟨since, begins⟩ := exists_since split
  have place : w.sequence b first ++ [(id, mutation)] <+:
      w.sequence b (first ++ between ++ [e']) := by
    rw [List.append_assoc, begins]
    exact place_of_begun begun
  -- a task writes once
  have mem' : (id, mutation) ∈ w.sequence b (first ++ between ++ [e']) :=
    place.subset List.mem_concat_self
  cases List.inj_on_of_nodup_map next.accounts.once mem mem' rfl
  rw [run_append]
  exact ((alike_until_published orderly begun split published).performs mutation .kept).trans
    performed

/-- A write is answered by what it has read and by its hook. -/
theorem answered_as_read (orderly : ∀ events, w.Orderly b events)
    (begun : (w.run b first).begun? e = some (id, mutation)) {result : Except Fault Reply}
    (answered : (w.run b (first ++ e :: rest)).log.tasks[id]? =
      some (.finished (.answered result))) :
    result = ((w.run b first).log.memory.perform mutation
      (hookResult (w.endings b (first ++ e :: rest)) id)).1 := by
  obtain ⟨task, found, suits⟩ := (orderly _).accounts.each _ _ (place_of_begun begun)
  rw [answered] at found
  cases found
  exact suits.1.trans ((seen_of_begun orderly begun).perform mutation _).symm

/-- A hook counts as kept if it has not failed since its write read the state. -/
theorem hookResult_of_unread (orderly : ∀ events, w.Orderly b events)
    (unread : id ∉ w.writers b first)
    (kept : ∀ r, (id, r) ∈ (w.run b first).endings b rest → r = .kept) :
    hookResult (w.endings b (first ++ rest)) id = .kept := by
  by_contra lost
  have ended := mem_of_hookResult lost
  generalize hookResult (w.endings b (first ++ rest)) id = r at lost ended
  rw [endings, along_append] at ended
  rcases List.mem_append.mp ended with early | later
  · exact unread ((orderly first).accounts.hooks _ early)
  · exact lost (kept _ later)

/-- A write that is answered well has been made visible in the event in which it was answered, since
it has read the state, unless there was nothing to change. -/
theorem exists_published (orderly : ∀ events, w.Orderly b events)
    (begun : (w.run b first).begun? e = some (id, mutation)) {reply : Reply}
    (answered : (w.run b (first ++ e :: rest)).log.tasks[id]? =
      some (.finished (.answered (.ok reply)))) :
    (∃ between e' later, e :: rest = between ++ e' :: later ∧
      (w.run b (first ++ between)).published? b e' = some id ∧
      (w.run b (first ++ between ++ [e'])).log.tasks[id]? =
        some (.finished (.answered (.ok reply)))) ∨
      (w.run b first).log.memory.plan mutation = .answer reply := by
  rcases (orderly _).visible_of_ok (place_of_begun begun) answered with shown | unchanged
  · left
    rw [World.shown, along_append] at shown
    rcases List.mem_append.mp shown with early | later
    · obtain ⟨-, -, reply', told⟩ := (orderly first).accounts.shown id early
      obtain ⟨-, writing, -⟩ := begun?_eq_some begun
      rw [writing] at told
      cases told
    · obtain ⟨between, e', later, split, published⟩ := mem_along.mp later
      rw [← run_append] at published
      refine ⟨between, e', later, split, published, ?_⟩
      have shown : id ∈ w.shown b (first ++ between ++ [e']) := by
        rw [World.shown, along_concat, published]
        exact List.mem_concat_self
      -- an answer stays as it is
      obtain ⟨-, -, reply', told⟩ := (orderly _).accounts.shown id shown
      have last : first ++ e :: rest = first ++ between ++ [e'] ++ later := by simp [split]
      have still : ((w.run b (first ++ between ++ [e'])).run b later).log.tasks[id]? =
          some (.finished (.answered (.ok reply'))) := finished_run told
      rw [← run_append, ← last, answered] at still
      cases still
      exact told
  · right
    rwa [(seen_of_begun orderly begun).plan]

/-- A hook on a helper thread that keeps a write and returns before its next turn leaves the
publication for this turn, and the memory as it is. -/
theorem kept_of_begun (standing : w.log.At s)
    (begun : w.begun? (.turn id) = some (id, mutation)) (blocking : b.blocking = true) {hook : Hook}
    {p : Publication} (planned : w.log.memory.plan mutation = .keep hook p)
    (kept : (b.keep hook w.store).1 = .kept) :
    let w' := w.run b [.turn id, .hookReturns id]
    w'.log.tasks[id]? = some (.kept p .kept) ∧ w'.log.memory = w.log.memory := by
  intro w'
  obtain ⟨-, writing, holds⟩ := begun?_eq_some begun
  cases idle_of_begun standing begun
  have none_running : w.log.running = [] := standing.stands
  have keeping := (Log.turns_setTask writing (.keeping p)).self
  have returned : w'.log =
      ({ w.log.setTask id (.keeping p) with running := [] } : Log).setTask id (.kept p .kept) := by
    simp [w', step, Log.turn?, writing, holds, moved, Log.write, planned, blocking, none_running,
      Log.hookReturns?, keeping, kept]
  rw [returned]
  exact ⟨(Log.turns_setTask keeping _).self, rfl⟩

/-- A write that has the guard is answered by what it reads once its hook has returned, if the hook
keeps it and nobody drops it. -/
theorem answered_of_begun (standing : w.log.At s)
    (begun : w.begun? (.turn id) = some (id, mutation))
    (keeps : ∀ hook p, w.log.memory.plan mutation = .keep hook p →
      (b.keep hook w.store).1 = .kept) :
    (w.run b [.turn id, .hookReturns id, .turn id]).log.tasks[id]? =
      some (.finished (.answered (w.log.memory.perform mutation .kept).1)) := by
  obtain ⟨-, writing, holds⟩ := begun?_eq_some begun
  have stepped : (w.step b (.turn id)).log = (w.log.write b id mutation w.store).1 := by
    simp [step, Log.turn?, writing, holds, moved]
  have after {result : Except Fault Reply}
      (ended : (w.log.write b id mutation w.store).1.tasks[id]? =
        some (.finished (.answered result))) :
      (w.run b [.turn id, .hookReturns id, .turn id]).log.tasks[id]? =
        some (.finished (.answered result)) := by
    rw [← stepped] at ended
    show ((w.step b (.turn id)).run b [.hookReturns id, .turn id]).log.tasks[id]? = _
    exact finished_run ended
  cases planned : w.log.memory.plan mutation with
  | refuse fault =>
    rw [Memory.perform_of_refuse planned]
    refine after ?_
    simp only [Log.write, planned]
    exact (Log.turns_conclude writing _).self
  | answer reply =>
    rw [Memory.perform_of_answer planned]
    refine after ?_
    simp only [Log.write, planned]
    exact (Log.turns_conclude writing _).self
  | keep hook p =>
    have kept := keeps hook p planned
    rw [Memory.perform_of_keep planned]
    cases blocking : b.blocking with
    | false =>
      refine after ?_
      rw [Log.write_of_nonblocking blocking planned, kept, if_neg (by simp)]
      exact (Log.turns_conclude writing _).self
    | true =>
      obtain ⟨ready, memory⟩ := kept_of_begun standing begun blocking planned kept
      have publishes : ((w.run b [.turn id, .hookReturns id]).step b (.turn id)).log =
          (w.run b [.turn id, .hookReturns id]).log.publish id p .kept := by
        simp only [step, Log.turn?, ready, moved]
      show ((w.run b [.turn id, .hookReturns id]).step b (.turn id)).log.tasks[id]? = _
      rw [publishes, ← memory]
      exact (Log.turns_conclude ready _).self

/-- An append that is called when nobody has the guard, and whose entries are taken in without a
pause, has the guard for its next turn. Nothing else has changed by then. -/
theorem begun_of_call (settled : w.log.guard.Settled) (free : w.log.guard.holders = [])
    {sources : List Source} (filled : sources ≠ []) {start : Option Nat} {token : Option String}
    {batch : Array Entry} (taken : (Capture.start sources).run w.log.intake
      ⟨w.env.isCancelled token, fun name => w.env.opened.contains name⟩ = .finished (.ok batch)) :
    let w' := w.run b [.call (.append sources start token), .turn w.log.tasks.size]
    w'.begun? (.turn w.log.tasks.size) = some (w.log.tasks.size, .append batch start) ∧
      w'.log.memory = w.log.memory ∧ w'.store = w.store := by
  intro w'
  let capturing : Task := .capturing (.start sources) start token
  let called : Log := { w.log with tasks := w.log.tasks.push capturing }
  let awaiting : Log := called.await w.log.tasks.size .exclusive (.writing (.append batch start))
  have entered : called.tasks[w.log.tasks.size]? = some capturing := by simp [called]
  have stepped : w' = { w with log := awaiting } := by
    have enters : w.log.call w.env (.append sources start token) = called := by
      simp [Log.call, filled, called, capturing]
    have ready : (Capture.start sources).ready
        ⟨w.env.isCancelled token, fun name => w.env.opened.contains name⟩ = true := rfl
    have intake : called.intake = w.log.intake := rfl
    simp only [w', run_cons, run_nil, step, enters, Log.turn?, entered, capturing, ready, if_true,
      intake, taken, moved, awaiting]
  have writing : awaiting.tasks[w.log.tasks.size]? = some (.writing (.append batch start)) :=
    (Log.turns_setTask entered _).self
  have holds : awaiting.guard.holds w.log.tasks.size = true := by
    show (w.log.guard.request w.log.tasks.size .exclusive).holds w.log.tasks.size = true
    simp [settled.eq_free free, Guard.free, Guard.request, Guard.settle, Guard.letIn,
      Guard.admits, Guard.holds]
  rw [stepped]
  refine ⟨?_, rfl, rfl⟩
  simp only [begun?, writing, holds, if_true]

/-! ## The theorem -/

/-- What an append comes to that has the guard and takes its next turn. -/
structure AppendReadsBack (b : Backend σ) (w : World σ) (id : Nat) (batch : Array Entry)
    (start : Option Nat) : Prop where
  /-- It is answered once its hook has returned, if there is one then it keeps the batch, and nobody
  drops the task. -/
  ends : (w.log.memory.Allows start →
      (b.keep (.append (w.log.memory.place start) batch) w.store).1 = .kept) →
    ∃ result, (w.run b [.turn id, .hookReturns id, .turn id]).log.tasks[id]? =
      some (.finished (.answered result)) ∧ w.log.memory.Settles start result
  /-- Whatever others do, if its hook has not failed then it is answered by the state that it
  read. -/
  settled : ∀ rest result,
    (w.run b (.turn id :: rest)).log.tasks[id]? = some (.finished (.answered result)) →
      (∀ r, (id, r) ∈ w.endings b (.turn id :: rest) → r = .kept) →
        w.log.memory.Settles start result
  /-- If it is answered well then with its place, in the event that makes it visible, and this event
  leaves a log in which it is read back. -/
  placed : ∀ rest reply,
    (w.run b (.turn id :: rest)).log.tasks[id]? = some (.finished (.answered (.ok reply))) →
      reply = .index (w.log.memory.place start) ∧ w.log.memory.Allows start ∧
        ∃ between e later, .turn id :: rest = between ++ e :: later ∧
          (w.run b between).published? b e = some id ∧
          (w.run b (between ++ [e])).log.tasks[id]? =
            some (.finished (.answered (.ok reply))) ∧
          w.log.ReadsBack (w.run b (between ++ [e])).log (w.log.memory.place start) batch

theorem appendReadsBack (orderly : ∀ events, w.Orderly b events) {batch : Array Entry}
    {start : Option Nat}
    (begun : (w.run b first).begun? (.turn id) = some (id, .append batch start))
    (sound : (w.run b first).log.memory.Sound) :
    (w.run b first).AppendReadsBack b id batch start := by
  obtain ⟨-, writing, -⟩ := begun?_eq_some begun
  obtain ⟨s, standing⟩ := (orderly first).standing
  have unread := (orderly first).accounts.fresh writing
  have plans := Memory.plansAppend sound batch start
  refine ⟨?ends, ?settled, ?placed⟩
  case ends =>
    intro keeps
    refine ⟨_, answered_of_begun standing begun fun hook p planned => ?_,
      Memory.settles_perform sound batch start⟩
    rw [planned] at plans
    cases plans with
    | placed allowed => exact keeps allowed
  case settled =>
    intro rest result answered kept
    rw [← run_append] at answered
    rw [answered_as_read orderly begun answered, hookResult_of_unread orderly unread kept]
    exact Memory.settles_perform sound batch start
  case placed =>
    intro rest reply answered
    rw [← run_append] at answered
    have told := answered_as_read orderly begun answered
    rw [Memory.perform_of_ok told.symm] at told
    generalize planned : (w.run b first).log.memory.plan (.append batch start) = plan at plans
    cases plans with
    | committed low =>
      rw [Memory.perform_of_refuse planned] at told
      cases told
    | beyond high =>
      rw [Memory.perform_of_refuse planned] at told
      cases told
    | placed allowed =>
      obtain ⟨behind, within⟩ := allowed.place
      rw [Memory.perform_of_keep planned] at told
      cases told
      refine ⟨rfl, allowed, ?_⟩
      rcases exists_published orderly begun answered with
        ⟨between, e, later, split, published, told⟩ | unchanged
      · have made := publishes_as_read orderly begun split published
        rw [Memory.perform_of_keep planned] at made
        rw [List.append_assoc, run_append] at made told
        rw [run_append] at published
        refine ⟨between, e, later, split, published, told,
          Log.readsBack_splice behind ?_ made.snapshot⟩
        rwa [sound.length_eq]
      · cases planned.symm.trans unchanged

/-- The batch of an append that waits for the guard is that of its call. -/
theorem exists_call_of_begun (orderly : w.Orderly b first) {batch : Array Entry}
    {start : Option Nat}
    (begun : (w.run b first).begun? (.turn id) = some (id, .append batch start)) :
    ∃ sources token, (calls first)[id]? = some (.append sources start token) ∧ sources ≠ [] ∧
      (Capture.start sources).Leads w.log.intake (.ok batch) ∧ batch.size = sources.length := by
  obtain ⟨-, writing, -⟩ := begun?_eq_some begun
  have unread := orderly.accounts.fresh writing
  obtain ⟨c, called, comes⟩ := orderly.origins.others id _ unread writing
  cases comes with
  | writing becomes =>
    cases becomes with
    | @append sources start token entries filled taken =>
      refine ⟨sources, token, called, filled, taken, ?_⟩
      simpa [Capture.count, Capture.start] using taken.size batch rfl

end World

/-- **What was appended is read back.** In a log that has come about by any run, an append has taken
its entries in, one for each source, and has the guard. It is answered by the commit index and the
last index of this time; and if it is answered well, then the log is read as the batch from its
place on, and as before below. When nobody has the guard a call comes so far in two events, which
leave the log as it is, if its sources can be taken in without a pause. -/
theorem append_reads_back {σ : Type} (b : Backend σ) (config : Config) {r : Replica}
    (restorable : r.Restorable) (store : σ) (first : List Event) :
    let w := (World.start config r store).run b first
    (∀ id batch start, w.begun? (.turn id) = some (id, .append batch start) →
      (∃ sources token, (calls first)[id]? = some (.append sources start token) ∧ sources ≠ [] ∧
        (Capture.start sources).Leads (.ofConfig config) (.ok batch) ∧
        batch.size = sources.length) ∧
      w.AppendReadsBack b id batch start) ∧
    ∀ sources start token batch, w.log.guard.holders = [] → sources ≠ [] →
      (Capture.start sources).run w.log.intake
        ⟨w.env.isCancelled token, fun name => w.env.opened.contains name⟩ = .finished (.ok batch) →
      let w' := w.run b [.call (.append sources start token), .turn w.log.tasks.size]
      w'.log.memory = w.log.memory ∧ w'.store = w.store ∧
        w'.AppendReadsBack b w.log.tasks.size batch start := by
  intro w
  have orderly := World.orderly_run b config r store
  have sound (events : List Event) :
      ((World.start config r store).run b events).log.memory.Sound :=
    ((World.inOrder_start config restorable.commitIndex store).run events).1.2
  refine ⟨fun id batch start begun => ⟨World.exists_call_of_begun (orderly first) begun,
    World.appendReadsBack orderly begun (sound first)⟩, ?_⟩
  intro sources start token batch free filled taken w'
  obtain ⟨begun, memory, store'⟩ :
      w'.begun? (.turn w.log.tasks.size) = some (w.log.tasks.size, .append batch start) ∧
        w'.log.memory = w.log.memory ∧ w'.store = w.store :=
    World.begun_of_call (World.settled_run config r store first) free filled taken
  have whole : w' = (World.start config r store).run b
      (first ++ [.call (.append sources start token), .turn w.log.tasks.size]) :=
    (World.run_append ..).symm
  refine ⟨memory, store', ?_⟩
  rw [whole] at begun ⊢
  exact World.appendReadsBack orderly begun (sound _)

/-- Three entries are appended, and then one takes the place of the last two. -/
theorem append_reads_back_shorter :
    let entry (term : Term) : Entry := ⟨term, .epoch, .empty, false⟩
    let b : Backend Unit := ⟨true, fun _ s => (.kept, s)⟩
    let w := (World.start .default .empty ()).run b ((Call.append
      [.complete (entry 1), .complete (entry 1), .complete (entry 1)] none none).awaited 0)
    let w' := w.run b [.call (.append [.complete (entry 2)] (some 2) none), .turn 1]
    w.log.memory.snapshot.lastIndex = 3 ∧
      w'.begun? (.turn 1) = some (1, .append #[entry 2] (some 2)) ∧
      w'.AppendReadsBack b 1 #[entry 2] (some 2) ∧
      (w'.run b [.turn 1, .hookReturns 1, .turn 1]).log.memory.snapshot.lastIndex = 2 := by
  intro entry b w w'
  have called := (append_reads_back b .default (.inl rfl) () ((Call.append
    [.complete (entry 1), .complete (entry 1), .complete (entry 1)] none none).awaited 0)).2
  have free : w.log.guard.holders = [] := by decide +kernel
  have size : w.log.tasks.size = 1 := by decide +kernel
  obtain ⟨-, -, reads⟩ :=
    called [.complete (entry 2)] (some 2) none #[entry 2] free (by simp) rfl
  rw [size] at reads
  exact ⟨by decide +kernel, by decide +kernel, reads, by decide +kernel⟩

end DurableLog
