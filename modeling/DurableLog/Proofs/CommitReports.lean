import DurableLog.Proofs.CommitWaits
import DurableLog.Proofs.CommittedPrefix
import DurableLog.Proofs.FailedCalls

/-!
# What commits report

A commit is answered with a count, and its caller goes on with so many entries up to the target. So
over a run every index that becomes committed must be reported once and none left out, although a
commit looks at the commit index before its hook runs and is answered after it.

1. A commit takes the commit index as far as it tells (`Memory.perform_commit`), and one that
   changes nothing tells 0 (`Memory.count_of_answer`).
2. At its place in the order a commit reports just what it adds (`Accounts.tiles_commit`), and no
   other write adds anything.
3. So the reports lie side by side in that order, from the commit index at the beginning of the run
   to the one at its end (`World.tiles_aims`).
4. A commit that has nothing to commit does nothing at all (`World.silent_of_committed`), and the
   numbers in a commit are words wherever the number of slots is one
   (`Memory.commitInWords?_eq`).
5. `commits_reported_once` puts this together.
-/

namespace DurableLog

/-! ## Reports -/

/-- A commit that was answered with the number of entries it has newly committed. -/
structure CommitReport where
  task : Nat
  /-- The last index it commits. -/
  target : Nat
  count : Nat
  deriving DecidableEq

namespace CommitReport

/-- The entry at this index is reported as newly committed. -/
def Covers (r : CommitReport) (i : Nat) : Prop := r.target - r.count < i ∧ i ≤ r.target

instance (r : CommitReport) (i : Nat) : Decidable (r.Covers i) :=
  inferInstanceAs (Decidable (_ ∧ _))

/-- None of the reports is empty, and they lie side by side: the first begins behind `first`, each
begins where the one before it ends, and the last ends with `last`. -/
def Tiles : Nat → List CommitReport → Nat → Prop
  | first, [], last => first = last
  | first, r :: rest, last => r.count ≠ 0 ∧ r.target - r.count = first ∧ r.count ≤ r.target ∧
      Tiles r.target rest last

/-- How many entries are reported in all. -/
def total : List CommitReport → Nat
  | [] => 0
  | r :: rest => r.count + total rest

variable {first middle last : Nat} {reports later : List CommitReport}

theorem Tiles.append (h : Tiles first reports middle) (h' : Tiles middle later last) :
    Tiles first (reports ++ later) last := by
  induction reports generalizing first with
  | nil =>
    obtain rfl : first = middle := h
    exact h'
  | cons r rest ih =>
    obtain ⟨some, begins, within, onward⟩ := h
    exact ⟨some, begins, within, ih onward⟩

theorem Tiles.total_eq (h : Tiles first reports last) : first + total reports = last := by
  induction reports generalizing first with
  | nil => exact h
  | cons r rest ih =>
    obtain ⟨-, begins, within, onward⟩ := h
    have rest_eq := ih onward
    rw [total]
    omega

/-- What is covered lies between the ends. -/
theorem Tiles.within (h : Tiles first reports last) :
    first ≤ last ∧ ∀ r ∈ reports, ∀ i, r.Covers i → first < i ∧ i ≤ last := by
  induction reports generalizing first with
  | nil => exact ⟨Nat.le_of_eq h, List.forall_mem_nil _⟩
  | cons r rest ih =>
    obtain ⟨-, begins, within, onward⟩ := h
    obtain ⟨ordered, others⟩ := ih onward
    refine ⟨by omega, List.forall_mem_cons.mpr ⟨fun i covers => ?_, fun r' mem i covers => ?_⟩⟩
    · obtain ⟨above, below⟩ := covers
      omega
    · have between := others r' mem i covers
      omega

theorem Tiles.disjoint (h : Tiles first reports last) :
    reports.Pairwise fun r r' => ∀ i, ¬ (r.Covers i ∧ r'.Covers i) := by
  induction reports generalizing first with
  | nil => exact .nil
  | cons r rest ih =>
    obtain ⟨-, -, -, onward⟩ := h
    refine .cons (fun r' mem i both => ?_) (ih onward)
    have above := (onward.within.2 r' mem i both.2).1
    have below := both.1.2
    omega

/-- Each index between the ends is covered once, and no other one is. -/
theorem Tiles.countP (h : Tiles first reports last) (i : Nat) :
    reports.countP (fun r => decide (r.Covers i)) = if first < i ∧ i ≤ last then 1 else 0 := by
  induction reports generalizing first with
  | nil =>
    obtain rfl : first = last := h
    rw [if_neg (by omega)]
    rfl
  | cons r rest ih =>
    obtain ⟨-, begins, within, onward⟩ := h
    have ordered := onward.within.1
    have covers : r.Covers i ↔ first < i ∧ i ≤ r.target := by rw [← begins, Covers]
    rw [List.countP_cons, ih onward]
    simp only [decide_eq_true_eq, covers]
    split_ifs <;> omega

end CommitReport

open CommitReport (Tiles total)

/-! ## One commit -/

namespace Memory

variable {m : Memory} {last : Option Nat} {reply : Reply}

/-- The index that a commit is to reach. -/
def targetOf (m : Memory) (last : Option Nat) : Nat := last.getD m.snapshot.lastIndex

theorem Alike.targetOf {m' : Memory} (h : m.Alike m') (last : Option Nat) :
    m'.targetOf last = m.targetOf last := by
  rw [Memory.targetOf, h.snapshot, Memory.targetOf]

theorem plan_commit (m : Memory) (last : Option Nat) :
    m.plan (.commit last) =
      if m.snapshot.lastIndex < m.targetOf last then
        .refuse (.indexOutOfRange (m.targetOf last) (m.snapshot.lastIndex + 1))
      else if m.targetOf last < m.commitIndex + 1 then .answer (.count 0)
      else .keep (.commit (m.targetOf last)) (.commit (m.commitIndex + 1) (m.targetOf last)) := rfl

/-- A commit takes the commit index as far as it tells, and to its target if that is any way. -/
theorem perform_commit (told : (m.perform (.commit last) .kept).1 = .ok reply) :
    ∃ n, reply = .count n ∧ (m.perform (.commit last) .kept).2.commitIndex = m.commitIndex + n ∧
      (n ≠ 0 → m.targetOf last = m.commitIndex + n) := by
  have plan := m.plan_commit last
  by_cases beyond : m.snapshot.lastIndex < m.targetOf last
  · rw [if_pos beyond] at plan
    rw [perform_of_refuse plan] at told
    cases told
  rw [if_neg beyond] at plan
  by_cases committed : m.targetOf last < m.commitIndex + 1
  · rw [if_pos committed] at plan
    rw [perform_of_answer plan] at told ⊢
    cases told
    exact ⟨0, rfl, rfl, absurd rfl⟩
  · rw [if_neg committed] at plan
    have reached :
        m.targetOf last = m.commitIndex + (m.targetOf last - (m.commitIndex + 1) + 1) := by omega
    rw [perform_of_keep plan] at told ⊢
    cases told
    exact ⟨_, rfl, reached, fun _ => reached⟩

/-- A commit up to what is committed has nothing to do. -/
theorem plan_of_committed (sound : m.Sound) (committed : m.targetOf last ≤ m.commitIndex) :
    m.plan (.commit last) = .answer (.count 0) := by
  have within := sound.committed
  rw [plan_commit, if_neg (by omega), if_pos (by omega)]

/-- A commit that changes nothing tells 0. -/
theorem count_of_answer (planned : m.plan (.commit last) = .answer reply) : reply = .count 0 := by
  rw [plan_commit] at planned
  split at planned
  · cases planned
  · split at planned
    · cases planned
      rfl
    · cases planned

/-- What is visible behind a write is what was visible before it, and the write if it is visible. -/
theorem after_visible_concat (m : Memory) (before : List (Nat × Mutation)) (published : List Nat)
    (x : Nat × Mutation) :
    m.after (visible (before ++ [x]) published) =
      if x.1 ∈ published then ((m.after (visible before published)).perform x.2 .kept).2
      else m.after (visible before published) := by
  by_cases shown : x.1 ∈ published
  · rw [if_pos shown, ← after_concat]
    simp [visible, shown]
  · rw [if_neg shown, visible_concat_of_not_mem shown]

end Memory

namespace Log

variable {log : Log} {x : Nat × Nat} {r : CommitReport}

/-- The report of a commit with this task and target, if the task was told of any entries. -/
def report? (log : Log) (x : Nat × Nat) : Option CommitReport :=
  match log.tasks[x.1]? with
  | some (.finished (.answered (.ok (.count n)))) => if n = 0 then none else some ⟨x.1, x.2, n⟩
  | _ => none

theorem report?_eq_some :
    log.report? x = some r ↔ x = (r.task, r.target) ∧ r.count ≠ 0 ∧
      log.tasks[r.task]? = some (.finished (.answered (.ok (.count r.count)))) := by
  obtain ⟨id, target⟩ := x
  obtain ⟨id', target', n⟩ := r
  unfold report?
  constructor
  · intro found
    split at found
    · next told =>
      split at found
      · cases found
      · next some =>
        cases found
        exact ⟨rfl, some, told⟩
    · cases found
  · rintro ⟨same, some, told⟩
    cases same
    simp only at told some
    simp only [told, if_neg some]

theorem report?_eq_none {id target : Nat}
    (untold : ∀ n, n ≠ 0 → log.tasks[id]? ≠ some (.finished (.answered (.ok (.count n))))) :
    log.report? (id, target) = none := by
  refine Option.eq_none_iff_forall_ne_some.mpr fun r told => ?_
  obtain ⟨same, some, answered⟩ := report?_eq_some.mp told
  rw [← (Prod.mk.inj same).1] at answered
  exact untold _ some answered

/-- What a commit was told is reported if it is anything. -/
theorem tiles_report? {id target first n : Nat}
    (told : log.tasks[id]? = some (.finished (.answered (.ok (.count n)))))
    (reached : n ≠ 0 → target = first + n) :
    Tiles first (log.report? (id, target)).toList (first + n) := by
  by_cases none : n = 0
  · subst none
    simp only [report?, told, if_true, Option.toList_none]
    rfl
  · rw [reached none]
    simp only [report?, told, if_neg none, Option.toList_some]
    exact ⟨none, Nat.add_sub_cancel .., Nat.le_add_left .., rfl⟩

end Log

namespace Accounts

variable {m : Memory} {begun before : List (Nat × Mutation)} {published : List Nat}
  {ended : List (Nat × HookResult)} {log : Log} {id : Nat}

/-- A commit reports just what it adds at its place in the order. -/
theorem tiles_commit (h : Accounts m begun published ended log) {last : Option Nat}
    (place : before ++ [(id, .commit last)] <+: begun) :
    Tiles (m.after (visible before published)).commitIndex
      (log.report? (id, (m.after (visible before published)).targetOf last)).toList
      (m.after (visible (before ++ [(id, .commit last)]) published)).commitIndex := by
  obtain ⟨task, found, suits⟩ := h.each before _ place
  rw [Memory.after_visible_concat]
  generalize m.after (visible before published) = seen at suits ⊢
  simp only at found suits ⊢
  by_cases shown : id ∈ published
  · obtain ⟨-, -, reply, answered⟩ := h.shown id shown
    rw [found] at answered
    cases answered
    have told := suits.1.symm
    rw [Memory.perform_of_ok told] at told
    obtain ⟨n, rfl, grown, reached⟩ := Memory.perform_commit told
    rw [if_pos shown, grown]
    exact Log.tiles_report? found reached
  · rw [if_neg shown]
    -- a count other than 0 is told for what was kept, and that is visible
    have untold : log.report? (id, seen.targetOf last) = none := by
      refine Log.report?_eq_none fun n some told => ?_
      rw [found] at told
      cases told
      rcases Memory.hasKept_or_answer suits.1.symm with kept | planned
      · exact shown (suits.2 kept)
      · cases Memory.count_of_answer planned
        exact some rfl
    rw [untold]
    rfl

end Accounts

/-! ## All commits of a run -/

namespace World

variable {σ : Type} {b : Backend σ} {w : World σ} {events : List Event}

/-- The task and the target of the commit that reads the state in an event, with the guard in
hand. -/
def aims? (w : World σ) (e : Event) : Option (Nat × Nat) :=
  match w.begun? e with
  | some (id, .commit last) => some (id, w.log.memory.targetOf last)
  | _ => none

/-- The commits of a run with their targets, in the order in which they took the guard. -/
def aims (b : Backend σ) (w : World σ) (events : List Event) : List (Nat × Nat) :=
  w.along b aims? events

/-- What the commits of a run have reported at its end, in the order in which they took the
guard. -/
def reports (b : Backend σ) (w : World σ) (events : List Event) : List CommitReport :=
  (w.aims b events).filterMap (w.run b events).log.report?

theorem aims?_eq_some {e : Event} {x : Nat × Nat} :
    w.aims? e = some x ↔
      ∃ last, w.begun? e = some (x.1, .commit last) ∧ x.2 = w.log.memory.targetOf last := by
  obtain ⟨id, target⟩ := x
  unfold aims?
  constructor
  · intro aims
    split at aims
    · next begun =>
      cases aims
      exact ⟨_, begun, rfl⟩
    · cases aims
  · rintro ⟨last, begun, rfl⟩
    simp only [begun]

/-- An event takes the commit index that the next write sees as far as its commit reports. -/
theorem tiles_event (orderly : ∀ events, w.Orderly b events) (first rest : List Event)
    (e : Event) :
    let log := (w.run b (first ++ e :: rest)).log
    Tiles (w.seen b (first ++ e :: rest) (w.sequence b first)).commitIndex
      (((w.run b first).aims? e).bind log.report?).toList
      (w.seen b (first ++ e :: rest) (w.sequence b (first ++ [e]))).commitIndex := by
  intro log
  have longer : w.sequence b (first ++ [e]) =
      w.sequence b first ++ ((w.run b first).begun? e).toList := along_concat ..
  rw [longer]
  cases begun : (w.run b first).begun? e with
  | none =>
    simp only [aims?, begun, Option.toList_none, List.append_nil, Option.bind_none]
    rfl
  | some x =>
    obtain ⟨id, mutation⟩ := x
    by_cases commits : ∃ last, mutation = .commit last
    · obtain ⟨last, rfl⟩ := commits
      have read : (w.seen b (first ++ e :: rest) (w.sequence b first)).Alike
          (w.run b first).log.memory := seen_of_begun orderly begun
      simp only [aims?, begun, Option.bind_some, read.targetOf]
      exact (orderly (first ++ e :: rest)).accounts.tiles_commit (place_of_begun begun)
    · have other (last : Option Nat) : mutation ≠ .commit last := fun same => commits ⟨last, same⟩
      have aimless : (w.run b first).aims? e = none := by
        refine Option.eq_none_iff_forall_ne_some.mpr fun x aims => ?_
        obtain ⟨last, begun', -⟩ := aims?_eq_some.mp aims
        rw [begun] at begun'
        cases begun'
        exact other last rfl
      rw [aimless]
      simp only [seen, Option.toList_some, Memory.after_visible_concat]
      split
      · exact (Memory.commitIndex_perform_of_no_commit _ _ other).symm
      · rfl

/-- The reports lie side by side, up to every point of the order. -/
theorem tiles_aims (orderly : ∀ events, w.Orderly b events) (first rest : List Event) :
    Tiles w.log.memory.commitIndex
      ((w.aims b first).filterMap (w.run b (first ++ rest)).log.report?)
      (w.seen b (first ++ rest) (w.sequence b first)).commitIndex := by
  -- what was told is looked up at the end of the run, so what comes behind `first` varies
  induction first using List.reverseRecOn generalizing rest with
  | nil => rfl
  | append_singleton first e ih =>
    have tiles := (ih (e :: rest)).append (tiles_event orderly first rest e)
    rw [Option.toList_bind] at tiles
    rw [aims, along_concat, List.filterMap_append, ← List.append_cons,
      List.filterMap_eq_flatMap_toList _ (Option.toList _)]
    exact tiles

theorem tiles_reports (orderly : ∀ events, w.Orderly b events) (events : List Event) :
    Tiles w.log.memory.commitIndex (w.reports b events)
      (w.run b events).log.memory.commitIndex := by
  have tiles := tiles_aims orderly events []
  rw [List.append_nil] at tiles
  rw [(orderly events).accounts.memory.commitIndex]
  exact tiles

/-- What a report says of its commit. -/
theorem call_of_report (h : w.Orderly b events) {r : CommitReport}
    (mem : r ∈ w.reports b events) :
    ∃ first rest last, events = first ++ .turn r.task :: rest ∧
      (calls events)[r.task]? = some (.commit last) ∧
      (w.run b first).begun? (.turn r.task) = some (r.task, .commit last) ∧
      r.target = (w.run b first).log.memory.targetOf last ∧
      (w.run b events).log.tasks[r.task]? =
        some (.finished (.answered (.ok (.count r.count)))) := by
  obtain ⟨x, aimed, told⟩ := List.mem_filterMap.mp mem
  obtain ⟨rfl, -, answered⟩ := Log.report?_eq_some.mp told
  obtain ⟨first, e, rest, split, aims⟩ := mem_along.mp aimed
  obtain ⟨last, begun, target⟩ := aims?_eq_some.mp aims
  obtain ⟨rfl, -, -⟩ := begun?_eq_some begun
  have read : (r.task, .commit last) ∈ w.sequence b events :=
    mem_along.mpr ⟨first, _, rest, split, begun⟩
  obtain ⟨c, called, becomes⟩ := h.origins.writes _ read
  cases becomes
  exact ⟨first, rest, last, split, called, begun, target, answered⟩

/-- A commit that was told of entries has a report. -/
theorem exists_report (h : w.Orderly b events) {id n : Nat} {last : Option Nat}
    (called : (calls events)[id]? = some (.commit last)) (any : n ≠ 0)
    (told : (w.run b events).log.tasks[id]? = some (.finished (.answered (.ok (.count n))))) :
    ∃ r ∈ w.reports b events, r.task = id ∧ r.count = n := by
  rcases h.answeredInOrder called rfl told with ⟨fault, -, wrong, -⟩ | ⟨before, mutation, place, -⟩
  · cases wrong
  have read : (id, mutation) ∈ w.sequence b events := place.subset (by simp)
  obtain ⟨c, called', becomes⟩ := h.origins.writes _ read
  rw [called] at called'
  cases called'
  cases becomes
  obtain ⟨first, e, rest, split, begun⟩ := mem_along.mp read
  let r : CommitReport := ⟨id, (w.run b first).log.memory.targetOf last, n⟩
  have aims : (w.run b first).aims? e = some (r.task, r.target) :=
    aims?_eq_some.mpr ⟨last, begun, rfl⟩
  have reported : (w.run b events).log.report? (r.task, r.target) = some r :=
    Log.report?_eq_some.mpr ⟨rfl, any, told⟩
  exact ⟨r, List.mem_filterMap.mpr ⟨_, mem_along.mpr ⟨first, e, rest, split, aims⟩, reported⟩,
    rfl, rfl⟩

/-- Reports are in the order of the writes. -/
theorem reports_sublist (b : Backend σ) (w : World σ) (events : List Event) :
    ((w.reports b events).map CommitReport.task).Sublist (w.writers b events) := by
  have told (log : Log) (aims : List (Nat × Nat)) :
      ((aims.filterMap log.report?).map CommitReport.task).Sublist (aims.map Prod.fst) := by
    induction aims with
    | nil => exact .slnil
    | cons x rest ih =>
      cases report : log.report? x with
      | none =>
        rw [List.filterMap_cons_none report]
        exact ih.cons _
      | some r =>
        rw [List.filterMap_cons_some report, (Log.report?_eq_some.mp report).1]
        exact ih.cons_cons _
  have read (w : World σ) : ((w.aims b events).map Prod.fst).Sublist (w.writers b events) := by
    induction events generalizing w with
    | nil => exact .slnil
    | cons e rest ih =>
      have first : ((w.aims? e).toList.map Prod.fst).Sublist
          ((w.begun? e).toList.map Prod.fst) := by
        cases aims : w.aims? e with
        | none => exact List.nil_sublist _
        | some x =>
          obtain ⟨last, begun, -⟩ := aims?_eq_some.mp aims
          rw [begun]
          exact .refl _
      simp only [aims, writers, sequence, along, List.map_append]
      exact first.append (ih _)
  exact (told _ _).trans (read w)

/-! ## Nothing to commit -/

/-- The event has no hook run, publishes nothing, changes nothing that callers see, and wakes
nobody. -/
structure Silent (b : Backend σ) (w : World σ) (e : Event) : Prop where
  offered : w.offered? b e = none
  running : (w.step b e).log.running = w.log.running
  published : w.published? b e = none
  store : (w.step b e).store = w.store
  memory : (w.step b e).log.memory = w.log.memory
  wakes : ∀ wait, ¬ w.Wakes b wait e

/-- A commit up to what is committed is answered with 0 in the turn in which it reads the state. -/
theorem silent_of_committed {id : Nat} {last : Option Nat} (sound : w.log.memory.Sound)
    (begun : w.begun? (.turn id) = some (id, .commit last))
    (committed : w.log.memory.targetOf last ≤ w.log.memory.commitIndex) :
    w.Silent b (.turn id) ∧
      (w.step b (.turn id)).log.tasks[id]? = some (.finished (.answered (.ok (.count 0)))) := by
  obtain ⟨-, found, holds⟩ := begun?_eq_some begun
  have planned := Memory.plan_of_committed sound committed
  have stepped : w.step b (.turn id) =
      { w with log := w.log.conclude id (.answered (.ok (.count 0))) } := by
    simp [step, Log.turn?, found, holds, Log.write, planned, moved]
  have offered : w.offered? b (.turn id) = none := by simp [offered?, found, planned]
  have published : w.published? b (.turn id) = none := by
    simp [published?, found, accepted?_of_none offered]
  refine ⟨⟨offered, by rw [stepped]; rfl, published, by rw [stepped], by rw [stepped]; rfl, ?_⟩, ?_⟩
  · rintro wait ⟨changes⟩
    rw [stepped] at changes
    exact changes rfl
  · rw [stepped]
    exact (Log.turns_conclude found _).self

end World

/-! ## Words -/

/-- The sum, if it is a word. -/
def addWords? (a b : UInt64) : Option UInt64 :=
  if a.toNat + b.toNat < UInt64.size then some (a + b) else none

/-- The difference, if it is a word. -/
def subWords? (a b : UInt64) : Option UInt64 := if b ≤ a then some (a - b) else none

theorem addWords?_of_lt {a b : UInt64} (fits : a.toNat + b.toNat < UInt64.size) :
    ∃ c, addWords? a b = some c ∧ c.toNat = a.toNat + b.toNat := by
  refine ⟨a + b, if_pos fits, ?_⟩
  rw [UInt64.toNat_add, Nat.mod_eq_of_lt fits]

theorem subWords?_of_le {a b : UInt64} (ordered : b ≤ a) :
    ∃ c, subWords? a b = some c ∧ c.toNat = a.toNat - b.toNat :=
  ⟨a - b, if_pos ordered, UInt64.toNat_sub_of_le _ _ ordered⟩

namespace Memory

/-- The index of the last of so many slots, 0 if there is none. -/
def lastWord (slots : UInt64) : UInt64 := if slots = 0 then 0 else slots - 1

theorem toNat_lastWord {m : Memory} {slots : UInt64} (fits : slots.toNat = m.snapshot.length) :
    (lastWord slots).toNat = m.snapshot.lastIndex := by
  unfold lastWord Snapshot.lastIndex
  by_cases none : slots = 0
  · rw [if_pos none, ← fits, none]
    rfl
  · have positive : slots.toNat ≠ 0 := fun zero => none (UInt64.toNat.inj zero)
    have one_le : 1 ≤ slots := UInt64.le_iff_toNat_le.mpr (Nat.pos_of_ne_zero positive)
    rw [if_neg none, ← fits, UInt64.toNat_sub_of_le _ _ one_le]
    rfl

/-- What a commit is answered whose hook keeps it, worked out with words; nothing if any sum or
difference on the way is no word. -/
def commitInWords? (slots committed : UInt64) (last : Option UInt64) :
    Option (Except Fault Reply) := do
  let target := last.getD (lastWord slots)
  if lastWord slots < target then
    let length ← addWords? (lastWord slots) 1
    return .error (.indexOutOfRange target.toNat length.toNat)
  else
    let start ← addWords? committed 1
    if target < start then return .ok (.count 0)
    else
      let more ← subWords? target start
      let count ← addWords? more 1
      return .ok (.count count.toNat)

/-- No number in a commit leaves the words, whatever its target. -/
theorem commitInWords?_eq {m : Memory} (sound : m.Sound) {slots : UInt64}
    (fits : slots.toNat = m.snapshot.length) (last : Option UInt64) :
    (UInt64.ofNat m.commitIndex).toNat = m.commitIndex ∧
      commitInWords? slots (.ofNat m.commitIndex) last =
        some (m.perform (.commit (last.map UInt64.toNat)) .kept).1 := by
  have bound : slots.toNat < UInt64.size := slots.toNat_lt_size
  have length := sound.length_eq
  have within := sound.committed
  have one : (1 : UInt64).toNat = 1 := rfl
  have end_eq : (lastWord slots).toNat = m.snapshot.lastIndex := toNat_lastWord fits
  have committed_eq : (UInt64.ofNat m.commitIndex).toNat = m.commitIndex :=
    UInt64.toNat_ofNat_of_lt' (by omega)
  have target_eq : (last.getD (lastWord slots)).toNat = m.targetOf (last.map UInt64.toNat) := by
    cases last with
    | none => exact end_eq
    | some target => rfl
  have plan := m.plan_commit (last.map UInt64.toNat)
  refine ⟨committed_eq, ?_⟩
  rw [← target_eq, ← end_eq] at plan
  simp only [commitInWords?, UInt64.lt_iff_toNat_lt]
  generalize last.getD (lastWord slots) = target at plan target_eq ⊢
  by_cases beyond : (lastWord slots).toNat < target.toNat
  · obtain ⟨length, added, length_toNat⟩ :=
      addWords?_of_lt (show (lastWord slots).toNat + (1 : UInt64).toNat < UInt64.size by omega)
    rw [if_pos beyond] at plan ⊢
    rw [perform_of_refuse plan, added]
    simp [length_toNat, one]
  -- the commit index is that of an entry, so one more is at most the number of slots
  obtain ⟨start, added, start_toNat⟩ := addWords?_of_lt
    (show (UInt64.ofNat m.commitIndex).toNat + (1 : UInt64).toNat < UInt64.size by omega)
  rw [committed_eq, one] at start_toNat
  rw [if_neg beyond] at plan ⊢
  rw [← start_toNat] at plan
  simp only [added, Option.bind_eq_bind, Option.bind_some]
  by_cases committed : target.toNat < start.toNat
  · rw [if_pos committed] at plan ⊢
    rw [perform_of_answer plan]
    rfl
  · rw [if_neg committed] at plan ⊢
    obtain ⟨more, taken, more_toNat⟩ :=
      subWords?_of_le (UInt64.le_iff_toNat_le.mpr (Nat.le_of_not_lt committed))
    obtain ⟨count, counted, count_toNat⟩ :=
      addWords?_of_lt (show more.toNat + (1 : UInt64).toNat < UInt64.size by omega)
    rw [perform_of_keep plan]
    simp [taken, counted, count_toNat, more_toNat, one, Publication.outcome, Publication.apply]

end Memory

/-! ## The main result -/

namespace World

variable {σ : Type}

/-- The commits of a run report every entry once. The run is any list of events, so what is said of
its end holds at any time. -/
structure ReportsOnce (b : Backend σ) (w : World σ) (events : List Event) : Prop where
  /-- A report is what a commit was told, and its target the one it had when it took the guard. -/
  reported : ∀ r ∈ w.reports b events, ∃ first rest last,
    events = first ++ .turn r.task :: rest ∧ (calls events)[r.task]? = some (.commit last) ∧
      (w.run b first).begun? (.turn r.task) = some (r.task, .commit last) ∧
      r.target = (w.run b first).log.memory.targetOf last ∧
      (w.run b events).log.tasks[r.task]? = some (.finished (.answered (.ok (.count r.count))))
  /-- Every commit that was told of entries has its report. -/
  complete : ∀ (id n : Nat) last, (calls events)[id]? = some (.commit last) → n ≠ 0 →
    (w.run b events).log.tasks[id]? = some (.finished (.answered (.ok (.count n)))) →
      ∃ r ∈ w.reports b events, r.task = id ∧ r.count = n
  /-- Reports are in the order in which writes took the guard, and no write took it twice. -/
  ordered : ((w.reports b events).map CommitReport.task).Sublist (w.writers b events) ∧
    (w.writers b events).Nodup
  contiguous : Tiles w.log.memory.commitIndex (w.reports b events)
    (w.run b events).log.memory.commitIndex
  disjoint : (w.reports b events).Pairwise fun r r' => ∀ i, ¬ (r.Covers i ∧ r'.Covers i)
  sum : w.log.memory.commitIndex + total (w.reports b events) =
    (w.run b events).log.memory.commitIndex
  /-- What was committed in the run is reported once, and nothing else is. -/
  once : ∀ i, (w.reports b events).countP (fun r => decide (r.Covers i)) =
    if w.log.memory.commitIndex < i ∧ i ≤ (w.run b events).log.memory.commitIndex then 1 else 0
  /-- As long as the number of slots is a word, so is every number in a commit. -/
  words : ∀ slots : UInt64, slots.toNat = (w.run b events).log.memory.snapshot.length →
    ∀ last : Option UInt64,
      let m := (w.run b events).log.memory
      (UInt64.ofNat m.commitIndex).toNat = m.commitIndex ∧
        Memory.commitInWords? slots (.ofNat m.commitIndex) last =
          some (m.perform (.commit (last.map UInt64.toNat)) .kept).1
  /-- A commit up to what is committed when it takes the guard tells 0 and does nothing else, and
  no hook is ever run for it. -/
  nothing_new : ∀ first rest id last, events = first ++ .turn id :: rest →
    (w.run b first).begun? (.turn id) = some (id, .commit last) →
      (w.run b first).log.memory.targetOf last ≤ (w.run b first).log.memory.commitIndex →
        (w.run b events).log.tasks[id]? = some (.finished (.answered (.ok (.count 0)))) ∧
          (w.run b first).Silent b (.turn id) ∧ w.Hookless b events id

end World

/-- **Every entry is reported as newly committed once**, whatever is called, whichever hooks fail
and whichever tasks are dropped. -/
theorem commits_reported_once {σ : Type} (b : Backend σ) (config : Config) {r : Replica}
    (restorable : r.Restorable) (store : σ) (events : List Event) :
    (World.start config r store).ReportsOnce b events := by
  have orderly := World.orderly_run b config r store
  have run := orderly events
  have tiles := World.tiles_reports orderly events
  have inOrder := World.inOrder_start config restorable.commitIndex store
  refine ⟨fun r => World.call_of_report run, fun id n last => World.exists_report run,
    ⟨World.reports_sublist .., run.accounts.once⟩, tiles, tiles.disjoint, tiles.total_eq,
    tiles.countP, fun slots fits => Memory.commitInWords?_eq (inOrder.run (b := b) events).1.2 fits,
    ?nothing_new⟩
  case nothing_new =>
    rintro first rest id last rfl begun committed
    obtain ⟨silent, answered⟩ :=
      World.silent_of_committed (inOrder.run (b := b) first).1.2 begun committed
    have ended : ((World.start config r store).run b (first ++ [.turn id])).log.tasks[id]? =
        some (.finished (.answered (.ok (.count 0)))) := by
      rw [World.run_append]
      exact answered
    exact ⟨World.finished_of_append ended, silent,
      .of_answered_at_once orderly begun silent.offered ended⟩

/-- Four entries are appended. A first commit of one fails, a second commits two, a third of all is
dropped while its hook runs, a fourth comes too late, and a fifth commits what an append has put in
the place of the last. -/
theorem commits_reported_once_dropped :
    let b : Backend (List HookResult) := ⟨true, fun _ s => (s.headD .kept, s.tail)⟩
    let entry (term : Term) : Source := .complete ⟨term, .epoch, .empty, false⟩
    let write (id : Nat) : List Event := [.turn id, .hookReturns id, .turn id]
    let events : List Event :=
      [.call (.append [entry 1, entry 1, entry 1, entry 1] none none), .turn 0] ++ write 0 ++
        [.call (.commit (some 1)), .call (.commit (some 2)), .call (.commit none),
          .call (.commit (some 1)), .call (.append [entry 2, entry 2] (some 4) none), .turn 5] ++
        write 1 ++ write 2 ++ [.turn 3, .abort 3, .hookReturns 3, .turn 4] ++ write 5 ++
        [.call (.commit none)] ++ write 6
    let start := World.start .default .empty [.kept, .failed (.file (.system .noSpace))]
    (start.reports b events = [⟨2, 2, 2⟩, ⟨6, 5, 3⟩] ∧
        (start.run b events).log.memory.commitIndex = 5) ∧
      start.ReportsOnce b events :=
  ⟨by decide +kernel, commits_reported_once _ .default (.inl rfl) _ _⟩

end DurableLog
