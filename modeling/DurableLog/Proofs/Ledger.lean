import DurableLog.Proofs.HookReplay
import DurableLog.Proofs.Passage
import Mathlib.Data.List.Chain

/-!
# The ledger of a backend

What a backend has accepted in a run, in order, each hook with the task that had it run: the
*ledger*. A journal on a disk holds the records of its ledger.

The appends of a ledger cover *stretches* of indices. The ledger can be replayed exactly when every
stretch starts no later than where the one before it stops (`Replica.keepAll_isSome_iff`), whatever
terms and commits lie between.
-/

namespace DurableLog

/-- What a backend has accepted, the oldest first. -/
abbrev Ledger := List (Nat × Hook)

/-- The indices that an append of a task covers: from `start`, and before `stop`. -/
structure Stretch where
  task : Nat
  start : Nat
  stop : Nat
  deriving DecidableEq

namespace Ledger

def hooks (ledger : Ledger) : List Hook := ledger.map Prod.snd

/-- The stretch of one hook. -/
def stretch? : Nat × Hook → Option Stretch
  | (task, .append start entries) => some ⟨task, start, start + entries.size⟩
  | _ => none

/-- What the appends of a ledger cover. -/
def stretches (ledger : Ledger) : List Stretch := ledger.filterMap stretch?

@[simp] theorem hooks_append (first second : Ledger) :
    (first ++ second).hooks = first.hooks ++ second.hooks := List.map_append

@[simp] theorem stretches_append (first second : Ledger) :
    (first ++ second).stretches = first.stretches ++ second.stretches := List.filterMap_append

/-- The state that the records of a ledger lead to. -/
def replay (stamps : UInt64 → UInt64) (ledger : Ledger) : Except Fault Replica :=
  Replica.ofRecords (Journal.recordsOf stamps 1 ledger.hooks)

theorem toOption_replay (stamps : UInt64 → UInt64) {ledger : Ledger}
    (storable : ∀ hook ∈ ledger.hooks, hook.Storable) :
    (ledger.replay stamps).toOption = (Replica.empty.keepAll ledger.hooks).map .clamp :=
  Replica.ofRecords_recordsOf stamps 1 storable

/-- The stretch starts within what the one before it leaves, or right behind. -/
def Follows (a next : Stretch) : Prop := next.start ≤ a.stop

end Ledger

namespace Replica

theorem keepAll_hooks_concat (r : Replica) (ledger : Ledger) (x : Nat × Hook) :
    r.keepAll (Ledger.hooks (ledger ++ [x])) =
      (r.keepAll ledger.hooks).bind fun next => next.keep x.2 := by
  rw [Ledger.hooks_append]
  exact keepAll_concat r ledger.hooks x.2

/-- The stretch of the entries of a state, the sentinel included. -/
def stretch (r : Replica) : Stretch := ⟨0, 0, r.entries.size + 1⟩

/-- Only appends change the entries. -/
theorem keep_of_no_stretch {r : Replica} {task : Nat} {hook : Hook}
    (h : Ledger.stretch? (task, hook) = none) :
    ∃ next, r.keep hook = some next ∧ next.entries = r.entries := by
  cases hook with
  | append start entries => cases h
  | term term vote => exact ⟨_, rfl, rfl⟩
  | commit index => exact ⟨_, rfl, rfl⟩
  | sync => exact ⟨_, rfl, rfl⟩

theorem size_keep_append {r next : Replica} {start : Nat} {entries : Array Entry}
    (h : r.keep (.append start entries) = some next) :
    start ≠ 0 ∧ start ≤ r.entries.size + 1 ∧ next.entries.size + 1 = start + entries.size := by
  rw [keep] at h
  split at h
  · cases h
  · cases h
    simp only [Array.size_append, Array.take, Array.size_extract]
    omega

/-- Hooks can be kept one after another when their stretches follow one another. -/
theorem keepAll_isSome_iff (r : Replica) (ledger : Ledger) :
    (r.keepAll ledger.hooks).isSome ↔
      (∀ a ∈ ledger.stretches, a.start ≠ 0) ∧
        (r.stretch :: ledger.stretches).IsChain Ledger.Follows := by
  induction ledger generalizing r with
  | nil => simp [Ledger.hooks, Ledger.stretches, keepAll]
  | cons x rest ih =>
    obtain ⟨task, hook⟩ := x
    have unfolded : r.keepAll (Ledger.hooks ((task, hook) :: rest)) =
        (r.keep hook).bind fun next => next.keepAll (Ledger.hooks rest) := rfl
    rw [unfolded]
    cases covers : Ledger.stretch? (task, hook) with
    | none =>
      obtain ⟨next, kept, same⟩ := keep_of_no_stretch (r := r) covers
      have skipped : Ledger.stretches ((task, hook) :: rest) = Ledger.stretches rest :=
        List.filterMap_cons_none covers
      rw [kept, skipped, Option.bind_some, ih next, stretch, stretch, same]
    | some a =>
      have taken : Ledger.stretches ((task, hook) :: rest) = a :: Ledger.stretches rest :=
        List.filterMap_cons_some covers
      obtain ⟨start, entries, rfl⟩ : ∃ start entries, hook = .append start entries := by
        cases hook with
        | append start entries => exact ⟨start, entries, rfl⟩
        | term _ _ => cases covers
        | commit _ => cases covers
        | sync => cases covers
      cases covers
      rw [taken, List.forall_mem_cons, List.isChain_cons_cons]
      cases kept : r.keep (.append start entries) with
      | none =>
        have gap : start = 0 ∨ r.entries.size + 1 < start := by
          rw [keep] at kept
          split at kept
          · assumption
          · cases kept
        simp only [Option.bind_none, Option.isSome_none, Bool.false_eq_true, false_iff]
        rintro ⟨⟨nonzero, -⟩, follows, -⟩
        simp only [Ledger.Follows, stretch] at follows
        omega
      | some next =>
        obtain ⟨nonzero, within, size⟩ := size_keep_append kept
        -- only where a stretch stops matters for what follows it
        have onward : (next.stretch :: Ledger.stretches rest).IsChain Ledger.Follows ↔
            ((⟨task, start, start + entries.size⟩ : Stretch) :: Ledger.stretches rest).IsChain
              Ledger.Follows := by
          simp only [List.isChain_cons, Ledger.Follows, stretch, size]
        rw [Option.bind_some, ih next, onward]
        have follows : Ledger.Follows r.stretch ⟨task, start, start + entries.size⟩ := within
        simp [nonzero, follows]

theorem keep_below {r next : Replica} {x : Nat × Hook} {i : Nat} (h : r.keep x.2 = some next)
    (within : i ≤ r.entries.size) (above : ∀ a, Ledger.stretch? x = some a → i < a.start) :
    i ≤ next.entries.size ∧ ∀ k < i, next.entries[k]? = r.entries[k]? := by
  obtain ⟨task, hook⟩ := x
  cases covers : Ledger.stretch? (task, hook) with
  | none =>
    obtain ⟨next', kept, same⟩ := keep_of_no_stretch (r := r) covers
    rw [h] at kept
    cases kept
    rw [same]
    exact ⟨within, fun _ _ => rfl⟩
  | some a =>
    cases hook with
    | term _ _ => cases covers
    | commit _ => cases covers
    | sync => cases covers
    | append start entries =>
      cases covers
      have low : i < start := above _ rfl
      rw [keep] at h
      split at h
      · cases h
      · cases h
        refine ⟨?_, fun k hk => ?_⟩
        · simp only [Array.size_append, Array.take, Array.size_extract]
          omega
        · rw [Array.getElem?_append_left (by simp; omega)]
          rw [Array.take, Array.getElem?_extract, if_pos (by omega), Nat.zero_add]

/-- What lies below every stretch stays. -/
theorem keepAll_below {r r' : Replica} {ledger : Ledger} {i : Nat}
    (h : r.keepAll ledger.hooks = some r') (within : i ≤ r.entries.size)
    (above : ∀ a ∈ ledger.stretches, i < a.start) :
    i ≤ r'.entries.size ∧ ∀ k < i, r'.entries[k]? = r.entries[k]? := by
  induction ledger generalizing r with
  | nil =>
    cases h
    exact ⟨within, fun _ _ => rfl⟩
  | cons x rest ih =>
    have unfolded : r.keepAll (Ledger.hooks (x :: rest)) =
        (r.keep x.2).bind fun next => next.keepAll (Ledger.hooks rest) := rfl
    rw [unfolded, Option.bind_eq_some_iff] at h
    obtain ⟨next, kept, onward⟩ := h
    obtain ⟨within', below⟩ := keep_below kept within fun a ha =>
      above a (List.mem_filterMap.mpr ⟨x, List.mem_cons_self, ha⟩)
    obtain ⟨within'', below'⟩ := ih onward within' fun a ha => by
      obtain ⟨y, hy, hya⟩ := List.mem_filterMap.mp ha
      exact above a (List.mem_filterMap.mpr ⟨y, List.mem_cons_of_mem _ hy, hya⟩)
    exact ⟨within'', fun k hk => (below' k hk).trans (below k hk)⟩

end Replica

namespace World

variable {σ : Type}

/-! ## What a run leaves in the ledger -/

/-- The hook that the backend is handed by an event and accepts. -/
def accepted? (b : Backend σ) (w : World σ) (e : Event) : Option (Nat × Hook) :=
  (w.offered? b e).filter fun x => (b.keep x.2 w.store).1 = .kept

/-- What the backend accepts in a run. -/
def accepted (b : Backend σ) (w : World σ) : List Event → Ledger
  | [] => []
  | e :: rest => (w.accepted? b e).toList ++ (w.step b e).accepted b rest

theorem accepted_append (b : Backend σ) (w : World σ) (first second : List Event) :
    w.accepted b (first ++ second) = w.accepted b first ++ (w.run b first).accepted b second := by
  induction first generalizing w with
  | nil => rfl
  | cons e rest ih => rw [List.cons_append, accepted, accepted, ih, run_cons, List.append_assoc]

theorem accepted?_of_offered {b : Backend σ} {w : World σ} {e : Event} {x : Nat × Hook}
    (offered : w.offered? b e = some x) :
    w.accepted? b e = if (b.keep x.2 w.store).1 = .kept then some x else none := by
  simp [accepted?, offered, Option.filter]

theorem accepted?_of_none {b : Backend σ} {w : World σ} {e : Event}
    (offered : w.offered? b e = none) : w.accepted? b e = none := by
  rw [accepted?, offered]
  rfl

end World

end DurableLog
