import DurableLog.Log.Opening
import DurableLog.Proofs.Passage

/-!
# The committed prefix

An append looks at the commit index when it has the guard, and the guard stays taken until the
append is published or lost. So what it replaces lies behind the commit index of the memory it is
published in, whatever other tasks have done since it was called.

1. `Memory.Sound`: the sentinel is in its place and the commit index within the log.
2. `Memory.Keeps`: one memory has all that another has committed.
3. What is planned in a sound memory leads to a sound one that keeps its committed entries, and
   so does every passage.
4. `committed_prefix_kept` puts this together for runs.
-/

namespace DurableLog

namespace Memory

/-- The sentinel is at index 0, and no more is committed than there is. -/
structure Sound (m : Memory) : Prop where
  sentinel : m.snapshot.slots[0]? = some Entry.sentinel
  committed : m.commitIndex ≤ m.snapshot.lastIndex

/-- The second memory has everything that the first has committed. -/
structure Keeps (m m' : Memory) : Prop where
  commitIndex : m.commitIndex ≤ m'.commitIndex
  entries : ∀ i ≤ m.commitIndex, m'.snapshot.slots[i]? = m.snapshot.slots[i]?

theorem Keeps.refl (m : Memory) : m.Keeps m := ⟨Nat.le_refl _, fun _ _ => rfl⟩

theorem Keeps.trans {m m' m'' : Memory} (h : m.Keeps m') (h' : m'.Keeps m'') : m.Keeps m'' where
  commitIndex := Nat.le_trans h.commitIndex h'.commitIndex
  entries i hi := (h'.entries i (Nat.le_trans hi h.commitIndex)).trans (h.entries i hi)

theorem Sound.length_pos {m : Memory} (h : m.Sound) : 0 < m.snapshot.length := by
  obtain ⟨lt, -⟩ := Array.getElem?_eq_some_iff.mp h.sentinel
  exact lt

theorem Sound.length_eq {m : Memory} (h : m.Sound) :
    m.snapshot.length = m.snapshot.lastIndex + 1 := by
  have pos := h.length_pos
  unfold Snapshot.lastIndex
  omega

/-! ## One memory to the next -/

theorem Alike.sound {m m' : Memory} (h : m.Alike m') (sound : m.Sound) : m'.Sound where
  sentinel := by rw [h.snapshot, sound.sentinel]
  committed := by rw [h.snapshot, h.commitIndex]; exact sound.committed

theorem Alike.keeps {m m' : Memory} (h : m.Alike m') : m.Keeps m' where
  commitIndex := Nat.le_of_eq h.commitIndex.symm
  entries i _ := by rw [h.snapshot]

/-! ## Plans -/

/-- The hooks and publications that a write can come to. -/
inductive Planned (m : Memory) : Hook → Publication → Prop
  /-- What an append replaces lies behind the commit index, and within the log. -/
  | append {start : Nat} {entries : Array Entry} (above : m.commitIndex < start)
      (within : start ≤ m.snapshot.length) :
      Planned m (.append start entries) (.append m.snapshot start entries)
  /-- A commit goes forward, and not past the log. -/
  | commit {last : Nat} (forward : m.commitIndex < last) (within : last ≤ m.snapshot.lastIndex) :
      Planned m (.commit last) (.commit (m.commitIndex + 1) last)
  | setTerm {term : Term} :
      Planned m (.term term (if term = m.term then m.vote else none)) (.setTerm term)
  | nextTerm : Planned m (.term (m.term + 1) none) .nextTerm
  | vote {candidate : Member} : Planned m (.term m.term (some candidate)) (.vote candidate)

theorem Plans.planned {m : Memory} (sound : m.Sound) {hook : Hook} {p : Publication}
    (h : m.Plans hook p) : m.Planned hook p := by
  have pos := sound.length_pos
  have committed := sound.committed
  unfold Snapshot.lastIndex at committed
  obtain ⟨mutation, planned⟩ := h
  cases mutation with
  | append entries start =>
    cases start with
    | none =>
      cases planned
      exact .append (by omega) (Nat.le_refl _)
    | some start =>
      simp only [Memory.plan] at planned
      split at planned
      · cases planned
      · split at planned
        · cases planned
        · cases planned
          exact .append (by omega) (by omega)
  | commit last =>
    simp only [Memory.plan] at planned
    split at planned
    · cases planned
    · split at planned
      · cases planned
      · cases planned
        exact .commit (by omega) (by omega)
  | setTerm term =>
    cases planned
    exact .setTerm
  | nextTerm =>
    cases planned
    exact .nextTerm
  | vote candidate =>
    cases planned
    exact .vote

end Memory

/-- Publishing what was planned keeps what is committed. -/
theorem Publication.apply_keeps {m : Memory} (sound : m.Sound) {hook : Hook} {p : Publication}
    (planned : m.Plans hook p) : (p.apply m).1.Sound ∧ m.Keeps (p.apply m).1 := by
  cases planned.planned sound with
  | @append start entries above within =>
    have below {i : Nat} (hi : i ≤ m.commitIndex) :
        (m.snapshot.splice start entries).slots[i]? = m.snapshot.slots[i]? :=
      m.snapshot.splice_below start entries (by omega) within
    refine ⟨⟨?_, ?_⟩, Nat.le_refl _, fun i hi => below hi⟩
    · exact (below (Nat.zero_le _)).trans sound.sentinel
    · simp only [Publication.apply, Snapshot.lastIndex, m.snapshot.length_splice _ _ within]
      omega
  | commit forward within =>
    exact ⟨⟨sound.sentinel, within⟩, Nat.le_of_lt forward, fun _ _ => rfl⟩
  | setTerm => exact ⟨⟨sound.sentinel, sound.committed⟩, Nat.le_refl _, fun _ _ => rfl⟩
  | nextTerm => exact ⟨⟨sound.sentinel, sound.committed⟩, Nat.le_refl _, fun _ _ => rfl⟩
  | vote => exact ⟨⟨sound.sentinel, sound.committed⟩, Nat.le_refl _, fun _ _ => rfl⟩

theorem Publication.outcome_keeps {m : Memory} (sound : m.Sound) {hook : Hook} {p : Publication}
    (planned : m.Plans hook p) (result : HookResult) :
    (p.outcome m result).2.Sound ∧ m.Keeps (p.outcome m result).2 := by
  cases result with
  | kept => exact apply_keeps sound planned
  | failed fault => exact ⟨sound, .refl m⟩
  | panicked => exact ⟨sound, .refl m⟩

/-! ## Runs -/

namespace World

variable {σ : Type} {b : Backend σ} {w w' : World σ} {e : Event} {s s' : Stage}

theorem Passage.keeps (h : Passage b w e w' s s') (sound : w.log.memory.Sound) :
    w'.log.memory.Sound ∧ w.log.memory.Keeps w'.log.memory := by
  cases h with
  | still _ _ memory => exact ⟨memory.sound sound, memory.keeps⟩
  | begins _ _ _ _ memory => rw [memory]; exact ⟨sound, .refl _⟩
  | direct _ planned _ _ memory => rw [memory]; exact Publication.outcome_keeps sound planned _
  | returns _ _ _ memory _ => rw [memory]; exact ⟨sound, .refl _⟩
  | lapses _ _ _ memory _ => rw [memory]; exact ⟨sound, .refl _⟩
  | publishes planned _ _ memory _ => rw [memory]; exact Publication.outcome_keeps sound planned _
  | abandons _ _ _ memory _ => rw [memory]; exact ⟨sound, .refl _⟩

/-- The guard is in order and the memory is sound. -/
def InOrder (w : World σ) : Prop := (∃ s, w.log.At s) ∧ w.log.memory.Sound

theorem InOrder.step (h : w.InOrder) (e : Event) :
    (w.step b e).InOrder ∧ w.log.memory.Keeps (w.step b e).log.memory := by
  obtain ⟨⟨s, standing⟩, sound⟩ := h
  obtain ⟨s', standing', passage⟩ := passage_step (b := b) standing e
  obtain ⟨sound', keeps⟩ := passage.keeps sound
  exact ⟨⟨⟨s', standing'⟩, sound'⟩, keeps⟩

theorem InOrder.run (h : w.InOrder) (events : List Event) :
    (w.run b events).InOrder ∧ w.log.memory.Keeps (w.run b events).log.memory := by
  induction events generalizing w with
  | nil => exact ⟨h, .refl _⟩
  | cons e rest ih =>
    obtain ⟨next, keeps⟩ := h.step (b := b) e
    obtain ⟨last, later⟩ := ih next
    exact ⟨last, keeps.trans later⟩

end World

/-! ## Beginnings -/

namespace Replica

/-- A log can open in this state: it is new, or a disk has led to it. -/
def Restorable (r : Replica) : Prop :=
  r = .empty ∨ ∃ (d d' : Disk) (config : Config) (journal : Option Journal),
    d.openLog config = (.ok (r, journal), d')

theorem commitIndex_clamp (r : Replica) : r.clamp.commitIndex ≤ r.clamp.entries.size :=
  Nat.min_le_right _ _

theorem commitIndex_ofRecords {records : List Record} {r : Replica}
    (h : ofRecords records = .ok r) : r.commitIndex ≤ r.entries.size := by
  unfold ofRecords at h
  cases replayed : empty.applyAll records with
  | error fault => rw [replayed] at h; cases h
  | ok last =>
    rw [replayed] at h
    cases h
    exact commitIndex_clamp last

theorem commitIndex_recoverReplica {d d' : Disk} {r : Replica}
    (h : d.recoverReplica = (.ok r, d')) : r.commitIndex ≤ r.entries.size := by
  unfold Disk.recoverReplica at h
  split at h
  · split at h
    · cases h
    · exact commitIndex_ofRecords (Prod.mk.inj h).1
  · cases h
    exact Nat.le_refl _

theorem commitIndex_openLog {d d' : Disk} {config : Config} {r : Replica}
    {journal : Option Journal} (h : d.openLog config = (.ok (r, journal), d')) :
    r.commitIndex ≤ r.entries.size := by
  unfold Disk.openLog at h
  split at h
  · cases h
  · split at h
    · cases h
      exact Nat.le_refl _
    · split at h
      · cases h
      · split at h
        · cases h
        · next recovered =>
          split at h
          · cases h
          · cases h
            exact commitIndex_recoverReplica recovered

theorem Restorable.commitIndex {r : Replica} (h : r.Restorable) :
    r.commitIndex ≤ r.entries.size := by
  rcases h with rfl | ⟨d, d', config, journal, opened⟩
  · exact Nat.le_refl _
  · exact commitIndex_openLog opened

end Replica

theorem Memory.sound_ofReplica {r : Replica} (h : r.commitIndex ≤ r.entries.size) :
    (Memory.ofReplica r).Sound where
  sentinel := by
    simp only [Memory.ofReplica, Snapshot.ofEntries]
    rw [Array.getElem?_append_left (by simp)]
    rfl
  committed := by simpa [Memory.ofReplica, Snapshot.lastIndex] using h

theorem World.inOrder_start {σ : Type} (config : Config) {r : Replica}
    (h : r.commitIndex ≤ r.entries.size) (store : σ) : (World.start config r store).InOrder :=
  ⟨⟨.idle, Log.at_ofReplica config r⟩, Memory.sound_ofReplica h⟩

/-! ## The main result -/

/-- However calls, turns, hooks and drops are ordered: the sentinel stays in its place, no more is
committed than there is, the commit index never goes back, and committed entries stay. -/
theorem committed_prefix_kept {σ : Type} (b : Backend σ) (config : Config) {r : Replica}
    (restorable : r.Restorable) (store : σ) (first second : List Event) :
    let earlier := (World.start config r store).run b first
    let later := (World.start config r store).run b (first ++ second)
    earlier.log.memory.Sound ∧ earlier.log.memory.Keeps later.log.memory := by
  intro earlier later
  have start := World.inOrder_start config restorable.commitIndex store
  obtain ⟨middle, -⟩ := start.run (b := b) first
  obtain ⟨-, keeps⟩ := middle.run (b := b) second
  rw [← World.run_append] at keeps
  exact ⟨middle.2, keeps⟩

/-- Two entries are appended and one committed; then an append replaces the other. -/
theorem committed_prefix_kept_conflict :
    let entry (term : Term) : Source := .complete ⟨term, .epoch, .empty, false⟩
    let first : List Event :=
      [.call (.append [entry 1, entry 1] none none), .turn 0, .turn 0,
        .call (.commit (some 1)), .turn 1]
    let second : List Event := [.call (.append [entry 2] (some 2) none), .turn 2, .turn 2]
    let start := World.start .default .empty ()
    let earlier := start.run (.volatile Unit) first
    let later := start.run (.volatile Unit) (first ++ second)
    (earlier.log.memory.commitIndex = 1 ∧
        later.log.memory.snapshot ≠ earlier.log.memory.snapshot) ∧
      earlier.log.memory.Sound ∧ earlier.log.memory.Keeps later.log.memory :=
  ⟨by decide +kernel, committed_prefix_kept (.volatile Unit) .default (.inl rfl) () _ _⟩

end DurableLog
