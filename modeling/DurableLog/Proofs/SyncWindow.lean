import DurableLog.Journal.Store
import DurableLog.Proofs.FailingFile
import Mathlib.Data.List.Induction

/-!
# The records that a sync would add

A writer counts the records written since its file was last synced, so its count says how many of
them a loss of power can take (`sync_window_counted`).

Whether a file has been synced is not asked of the writer: the file is *watched*, and tells in which
order it was written to, cut and synced.

1. Up to a sync a watched file goes through what the file itself does (`Watched.Of`), in every part
   of a call.
2. A call on a watched file fails and leaves the count; or it succeeds without a sync, and its
   records are added; or it ends with a sync, and the count is 0 (`WriterCall.Counted`).
3. So the count is that of the calls since the last one in which the file was synced
   (`Made.sinceSync`).
-/

namespace DurableLog

/-- Two computations come to the same answer, and what they leave is related. -/
inductive Agree {α φ ψ : Type} (R : φ → ψ → Prop) : α × φ → α × ψ → Prop
  | intro (answer : α) {f : φ} {g : ψ} (left : R f g) : Agree R (answer, f) (answer, g)

@[elab_as_elim]
theorem Agree.elim {α φ ψ : Type} {R : φ → ψ → Prop} {P : α × φ → α × ψ → Prop} {x : α × φ}
    {y : α × ψ} (h : Agree R x y) (ends : ∀ answer f g, R f g → P (answer, f) (answer, g)) :
    P x y := by
  cases h with
  | intro answer left => exact ends answer _ _ left

/-- Something that is done to the bytes of a file. -/
inductive Doing
  | written
  | cut
  /-- With success. -/
  | synced
  deriving DecidableEq

/-- A file, and what has been done to it since it is watched. -/
structure Watched (φ : Type) where
  file : φ
  doings : List Doing

namespace Watched

variable {φ : Type}

def watch (f : φ) : Watched φ := ⟨f, []⟩

/-- This is the file that is watched, and it has not been synced. -/
structure Of (f : Watched φ) (g : φ) : Prop where
  file : f.file = g
  unsynced : .synced ∉ f.doings

theorem of_watch (f : φ) : (watch f).Of f := ⟨rfl, List.not_mem_nil⟩

/-- What has been done, noted on the file it leaves. -/
def noting {α : Type} (f : Watched φ) (doings : List Doing) (done : α × φ) : α × Watched φ :=
  (done.1, ⟨done.2, f.doings ++ doings⟩)

theorem Of.noting {α : Type} {f : Watched φ} {g : φ} (h : f.Of g) {doings : List Doing}
    (quiet : .synced ∉ doings) (done : α × φ) : Agree Of (f.noting doings done) done := by
  obtain ⟨answer, g'⟩ := done
  refine .intro answer ⟨rfl, fun synced => ?_⟩
  exact (List.mem_append.mp synced).elim h.unsynced quiet

variable [LogFile φ]

instance : LogFile (Watched φ) where
  write f bytes := f.noting [.written] (LogFile.write f.file bytes)
  setLength f n := f.noting [.cut] (LogFile.setLength f.file n)
  seek f n := f.noting [] (LogFile.seek f.file n)
  flush f := f.noting [] (LogFile.flush f.file)
  sync f :=
    match LogFile.sync f.file with
    | (.ok (), g) => f.noting [.synced] (.ok (), g)
    | (.error fault, g) => f.noting [] (.error fault, g)

/-- A sync of a watched file and one of the file: both fail, or both succeed. -/
inductive Syncs : Except FileFault Unit × Watched φ → Except FileFault Unit × φ → Prop
  | fails {f : Watched φ} {g : φ} (fault : FileFault) (left : f.Of g) :
      Syncs (.error fault, f) (.error fault, g)
  | succeeds {f : Watched φ} (last : f.doings.getLast? = some .synced) :
      Syncs (.ok (), f) (.ok (), f.file)

namespace Of

variable {f : Watched φ} {g : φ} (h : f.Of g)
include h

theorem write (bytes : ByteArray) : Agree Of (LogFile.write f bytes) (LogFile.write g bytes) := by
  rw [← h.file]
  exact Of.noting ⟨rfl, h.unsynced⟩ (by simp) _

theorem setLength (n : Nat) : Agree Of (LogFile.setLength f n) (LogFile.setLength g n) := by
  rw [← h.file]
  exact Of.noting ⟨rfl, h.unsynced⟩ (by simp) _

theorem seek (n : Nat) : Agree Of (LogFile.seek f n) (LogFile.seek g n) := by
  rw [← h.file]
  exact Of.noting ⟨rfl, h.unsynced⟩ (by simp) _

theorem flush : Agree Of (LogFile.flush f) (LogFile.flush g) := by
  rw [← h.file]
  exact Of.noting ⟨rfl, h.unsynced⟩ (by simp) _

theorem sync : Syncs (LogFile.sync f) (LogFile.sync g) := by
  obtain ⟨rfl, unsynced⟩ := h
  simp only [LogFile.sync]
  cases LogFile.sync f.file with
  | mk result g =>
    cases result with
    | error fault => exact .fails fault ⟨rfl, by simpa [Watched.noting] using unsynced⟩
    | ok _ => exact .succeeds (by simp)

theorem writeAll (stuck : FileFault) (bytes : ByteArray) :
    Agree Of (DurableLog.writeAll stuck f bytes) (DurableLog.writeAll stuck g bytes) := by
  induction size : bytes.size using Nat.strongRecOn generalizing f g bytes with
  | ind size ih =>
    subst size
    rw [DurableLog.writeAll, DurableLog.writeAll]
    split
    · exact .intro _ h
    · refine (h.write bytes).elim fun answer f' g' left => ?_
      cases answer with
      | error fault => exact .intro _ left
      | ok n =>
        by_cases none : n = 0
        · simp only [if_pos none]
          exact .intro _ left
        · simp only [if_neg none]
          exact ih _ (by simp only [ByteArray.size_extract]; omega) left _ rfl

end Of

end Watched

/-! ## Calls on a watched file -/

namespace Gathered

variable {φ : Type} [LogFile φ] {g : Gathered (Watched φ)} {g' : Gathered φ}

/-- The same is gathered for a watched file and for the file. -/
structure Of (g : Gathered (Watched φ)) (g' : Gathered φ) : Prop where
  file : g.file.Of g'.file
  block : g.block = g'.block

theorem Of.flush (h : g.Of g') : Agree Of g.flush g'.flush := by
  unfold Gathered.flush
  rw [← h.block]
  refine (h.file.writeAll .blockNotTaken g.block).elim fun answer f f' left => ?_
  cases answer <;> exact .intro _ ⟨left, rfl⟩

theorem Of.finish (h : g.Of g') : Agree Of g.finish g'.finish := by
  unfold Gathered.finish
  refine h.flush.elim fun answer g₁ g₁' flushed => ?_
  cases answer with
  | error fault => exact .intro _ flushed
  | ok _ =>
    simp only
    refine flushed.file.flush.elim fun answer f f' left => ?_
    exact .intro answer ⟨left, flushed.block⟩

theorem Of.place (h : g.Of g') (frame : ByteArray) : Agree Of (g.place frame) (g'.place frame) := by
  unfold Gathered.place
  rw [h.block]
  split
  · refine (h.file.writeAll .frameNotTaken frame).elim fun answer f f' left => ?_
    exact .intro answer ⟨left, rfl⟩
  · exact .intro _ ⟨h.file, rfl⟩

theorem Of.put (h : g.Of g') (frame : ByteArray) : Agree Of (g.put frame) (g'.put frame) := by
  unfold Gathered.put
  simp only [h.block]
  split
  · exact .intro _ ⟨h.file, rfl⟩
  · split
    · refine h.flush.elim fun answer g₁ g₁' flushed => ?_
      cases answer with
      | error fault => exact .intro _ flushed
      | ok _ => exact flushed.place frame
    · exact h.place frame

end Gathered

namespace Writer

variable {φ : Type} [LogFile φ] {f : Watched φ} {g : φ}

theorem putAll_of (w : Writer) (stamps : UInt64 → UInt64) {g : Gathered (Watched φ)}
    {g' : Gathered φ} (h : g.Of g') (lsn : UInt64) (changes : List Change) :
    Agree Gathered.Of (w.putAll stamps g lsn changes) (w.putAll stamps g' lsn changes) := by
  induction changes generalizing g g' lsn with
  | nil => exact .intro _ h
  | cons change rest ih =>
    rw [putAll, putAll]
    cases (Record.mk lsn change (stamps lsn)).toFrame with
    | error fault => exact .intro _ h
    | ok frame =>
      simp only
      refine (h.put frame).elim fun answer g₁ g₁' left => ?_
      cases answer with
      | error fault => exact .intro _ left
      | ok _ =>
        simp only
        refine (ih left (lsn + 1)).elim fun answer g₂ g₂' left => ?_
        cases answer <;> exact .intro _ left

theorem rollback_of (w : Writer) (h : f.Of g) :
    Agree Watched.Of (w.rollback f) (w.rollback g) := by
  unfold rollback
  refine (h.setLength w.offset).elim fun answer f₁ g₁ left => ?_
  cases answer with
  | error fault => exact .intro _ left
  | ok _ =>
    simp only
    refine (left.seek w.offset).elim fun answer f₂ g₂ left => ?_
    cases answer <;> exact .intro _ left

/-- A rollback can do no more to a writer than disable it. -/
theorem counts_rollback (w : Writer) (f : φ) :
    (w.rollback f).1.unsynced = w.unsynced ∧ (w.rollback f).1.policy = w.policy := by
  unfold rollback
  split
  · exact ⟨rfl, rfl⟩
  · split <;> exact ⟨rfl, rfl⟩

/-- What becomes of records that are written to a watched file, and to the file, by a writer that
would have `count` of them unsynced then. -/
inductive Writes (w : Writer) (count : Nat) :
    Except Fault (Nat × Nat) × Watched φ → Except Fault (Nat × Nat) × φ → Prop
  | fails {f : Watched φ} {g : φ} (fault : Fault) (left : f.Of g) :
      Writes w count (.error fault, f) (.error fault, g)
  | adds {f : Watched φ} {g : φ} {length : Nat} (undue : w.policy.due count = false)
      (left : f.Of g) : Writes w count (.ok (length, count), f) (.ok (length, count), g)
  | syncs {f : Watched φ} {length : Nat} (due : w.policy.due count = true)
      (last : f.doings.getLast? = some .synced) :
      Writes w count (.ok (length, 0), f) (.ok (length, 0), f.file)

theorem writeRecords_of (w : Writer) (h : f.Of g) (stamps : UInt64 → UInt64)
    (changes : List Change) :
    w.Writes (w.unsynced + changes.length) (w.writeRecords stamps f changes)
      (w.writeRecords stamps g changes) := by
  have start : Gathered.Of ⟨f, .empty⟩ ⟨g, .empty⟩ := ⟨h, rfl⟩
  unfold writeRecords
  refine (w.putAll_of stamps start w.nextLsn changes).elim fun answer g₁ g₁' left => ?_
  cases answer with
  | error fault => exact .fails fault left.file
  | ok length =>
    simp only
    refine left.finish.elim fun answer g₂ g₂' left => ?_
    cases answer with
    | error fault => exact .fails _ left.file
    | ok _ =>
      cases due : w.policy.due (w.unsynced + changes.length) with
      | false => exact .adds due left.file
      | true =>
        have synced := left.file.sync
        simp only [if_true]
        generalize LogFile.sync g₂.file = done at synced ⊢
        generalize LogFile.sync g₂'.file = done' at synced ⊢
        cases synced with
        | fails fault left => exact .fails _ left
        | succeeds last => exact .syncs due last

end Writer

/-! ## One call -/

namespace WriterCall

variable {φ : Type} [LogFile φ]

/-- What comes of a call on a watched file, and on the file. -/
inductive Counted (w : Writer) (call : WriterCall) :
    Answer × Writer × Watched φ → Answer × Writer × φ → Prop
  | fails {w' : Writer} {f : Watched φ} {g : φ} (fault : Fault)
      (same : w'.unsynced = w.unsynced) (policy : w'.policy = w.policy) (left : f.Of g) :
      Counted w call (.error fault, w', f) (.error fault, w', g)
  | adds {told : Option UInt64} {w' : Writer} {f : Watched φ} {g : φ}
      (count : w'.unsynced = w.unsynced + call.changes.length) (policy : w'.policy = w.policy)
      (undue : call.changes ≠ [] → w.policy.due w'.unsynced = false) (appends : call ≠ .sync)
      (left : f.Of g) : Counted w call (.ok told, w', f) (.ok told, w', g)
  | syncs {told : Option UInt64} {w' : Writer} {f : Watched φ}
      (none : w'.unsynced = 0) (policy : w'.policy = w.policy)
      (due : call = .sync ∨
        call.changes ≠ [] ∧ w.policy.due (w.unsynced + call.changes.length) = true)
      (last : f.doings.getLast? = some .synced) :
      Counted w call (.ok told, w', f) (.ok told, w', f.file)

/-- A call that appends its changes. -/
theorem counted_appendAll (w : Writer) (f : φ) (stamps : UInt64 → UInt64) {call : WriterCall}
    (appends : call ≠ .sync) :
    Counted w call
      (match w.appendAll stamps (Watched.watch f) call.changes with
        | (answer, after) => (answer.map some, after))
      (match w.appendAll stamps f call.changes with
        | (answer, after) => (answer.map some, after)) := by
  rw [Writer.appendAll, Writer.appendAll]
  by_cases none : call.changes.isEmpty = true
  · rw [if_pos none, if_pos none]
    have empty : call.changes = [] := List.isEmpty_iff.mp none
    exact .adds (by simp [empty]) rfl (absurd empty) appends (Watched.of_watch f)
  rw [if_neg none, if_neg none]
  by_cases disabled : w.disabled = true
  · rw [if_pos disabled, if_pos disabled]
    exact .fails _ rfl rfl (Watched.of_watch f)
  rw [if_neg disabled, if_neg disabled]
  have some : call.changes ≠ [] := fun empty => none (List.isEmpty_iff.mpr empty)
  have written := w.writeRecords_of (Watched.of_watch f) stamps call.changes
  generalize w.writeRecords stamps (Watched.watch f) call.changes = done at written ⊢
  generalize w.writeRecords stamps f call.changes = done' at written ⊢
  cases written with
  | adds undue left => exact .adds rfl rfl (fun _ => undue) appends left
  | syncs due last => exact .syncs rfl rfl (.inr ⟨some, due⟩) last
  | @fails f' g' fault left =>
    -- a sync that was due has failed if it was tried, so cutting the file back adds no success
    have same := w.counts_rollback f'
    have rolled := w.rollback_of left
    simp only
    generalize w.rollback f' = done at same rolled ⊢
    generalize w.rollback g' = done' at rolled ⊢
    cases rolled with
    | intro w' left => exact .fails fault same.1 same.2 left

theorem counted_sync (w : Writer) (f : φ) :
    Counted w .sync (perform w (Watched.watch f) .sync) (perform w f .sync) := by
  rw [perform, perform, Writer.sync, Writer.sync]
  by_cases disabled : w.disabled = true
  · rw [if_pos disabled, if_pos disabled]
    exact .fails _ rfl rfl (Watched.of_watch f)
  rw [if_neg disabled, if_neg disabled]
  refine (Watched.of_watch f).flush.elim fun answer f₁ g₁ left => ?_
  cases answer with
  | error fault => exact .fails _ rfl rfl left
  | ok _ =>
    have synced := left.sync
    simp only
    generalize LogFile.sync f₁ = done at synced ⊢
    generalize LogFile.sync g₁ = done' at synced ⊢
    cases synced with
    | fails fault left => exact .fails _ rfl rfl left
    | succeeds last => exact .syncs rfl rfl (.inl rfl) last

theorem counted_perform (w : Writer) (f : φ) (call : WriterCall) :
    Counted w call (call.perform w (Watched.watch f)) (call.perform w f) := by
  cases call with
  | append stamps change =>
    have appends : append stamps change ≠ .sync := nofun
    exact counted_appendAll w f stamps appends
  | appendAll stamps changes =>
    have appends : appendAll stamps changes ≠ .sync := nofun
    exact counted_appendAll w f stamps appends
  | sync => exact counted_sync w f

/-- A call on a watched file is the call on the file. It syncs the file if it succeeds and a sync is
asked for or due, and it does so last. -/
theorem perform_watch {w w' : Writer} {f f' : φ} {call : WriterCall} {answer : Answer}
    (made : call.perform w f = (answer, w', f')) :
    ∃ doings, call.perform w (Watched.watch f) = (answer, w', ⟨f', doings⟩) ∧
      (.synced ∈ doings ↔ (∃ told, answer = .ok told) ∧ (call = .sync ∨
        call.changes ≠ [] ∧ w.policy.due (w.unsynced + call.changes.length) = true)) ∧
      (.synced ∈ doings → doings.getLast? = some .synced) := by
  have counted := counted_perform w f call
  rw [made] at counted
  generalize call.perform w (Watched.watch f) = watched at counted ⊢
  cases counted with
  | @fails _ f _ fault same policy left =>
    exact ⟨f.doings, by rw [← left.file], by simp [left.unsynced],
      fun synced => absurd synced left.unsynced⟩
  | @adds told _ f _ count policy undue appends left =>
    refine ⟨f.doings, by rw [← left.file], ?_, fun synced => absurd synced left.unsynced⟩
    refine iff_of_false left.unsynced ?_
    rintro ⟨-, rfl | ⟨some, due⟩⟩
    · exact appends rfl
    · rw [← count, undue some] at due
      cases due
  | @syncs told _ f none policy due last =>
    have synced := List.mem_of_getLast? last
    exact ⟨f.doings, rfl, iff_of_true synced ⟨⟨told, rfl⟩, due⟩, fun _ => last⟩

/-- What a call leaves of the count. -/
theorem window_perform {w w' : Writer} {f f' : φ} {call : WriterCall} {answer : Answer}
    (made : call.perform w f = (answer, w', f')) :
    (∀ told, answer = .ok told → call.changes ≠ [] →
      match w.policy with
      | .everyWrite => w'.unsynced = 0
      | .everyRecords n => w'.unsynced < max n 1) ∧
    (∀ fault, answer = .error fault → w'.unsynced = w.unsynced) := by
  have counted := counted_perform w f call
  rw [made] at counted
  generalize call.perform w (Watched.watch f) = watched at counted
  cases counted with
  | fails fault same policy left => exact ⟨nofun, fun _ _ => same⟩
  | adds count policy undue appends left =>
    refine ⟨fun _ _ some => ?_, nofun⟩
    have undue := undue some
    cases policy : w.policy with
    | everyWrite => simp [policy, SyncPolicy.due] at undue
    | everyRecords n =>
      simp only [policy, SyncPolicy.due, decide_eq_false_iff_not] at undue ⊢
      omega
  | syncs none policy due last =>
    refine ⟨fun _ _ _ => ?_, nofun⟩
    cases w.policy with
    | everyWrite => exact none
    | everyRecords n =>
      simp only [none]
      omega

end WriterCall

/-! ## Calls one after another -/

/-- A call that was made, what it was answered, and what was done to the file in it. -/
structure Made where
  call : WriterCall
  answer : WriterCall.Answer
  doings : List Doing

namespace Made

/-- The file was synced in the call. -/
def synced (m : Made) : Bool := decide (.synced ∈ m.doings)

/-- What the call added. -/
def added (m : Made) : List Change :=
  match m.answer with
  | .ok _ => m.call.changes
  | .error _ => []

/-- What was added since the last call in which the file was synced. -/
def sinceSync (calls : List Made) : List Change :=
  (calls.reverse.takeWhile fun m => !m.synced).reverse.flatMap added

theorem sinceSync_concat (calls : List Made) (m : Made) :
    sinceSync (calls ++ [m]) = if m.synced then [] else sinceSync calls ++ m.added := by
  cases synced : m.synced <;> simp [sinceSync, synced]

end Made

namespace WriterCall

variable {φ : Type} [LogFile φ]

/-- A call as it is made: the file is watched during it. -/
def making (w : Writer) (f : φ) (call : WriterCall) : Made where
  call := call
  answer := (call.perform w f).1
  doings := (call.perform w (Watched.watch f)).2.2.doings

/-- Calls as they are made one after another. -/
def history (w : Writer) (f : φ) : List WriterCall → List Made
  | [] => []
  | call :: rest =>
    match call.perform w f with
    | (_, w', f') => call.making w f :: history w' f' rest

theorem history_append (w : Writer) (f : φ) (calls later : List WriterCall) :
    history w f (calls ++ later) =
      match performAll w f calls with
      | (_, w', f') => history w f calls ++ history w' f' later := by
  induction calls generalizing w f with
  | nil => rfl
  | cons call rest ih => simp only [List.cons_append, history, performAll, ih]

theorem history_told (w : Writer) (f : φ) (calls : List WriterCall) :
    (history w f calls).map Made.call = calls ∧
      (history w f calls).map Made.answer = (performAll w f calls).1 := by
  induction calls generalizing w f with
  | nil => exact ⟨rfl, rfl⟩
  | cons call rest ih =>
    simp only [history, performAll, List.map_cons, ih, making, and_self]

/-- The count after a call. -/
theorem unsynced_perform (w : Writer) (f : φ) (call : WriterCall) :
    (call.perform w f).2.1.policy = w.policy ∧
      (call.perform w f).2.1.unsynced = if (call.making w f).synced then 0
        else w.unsynced + (call.making w f).added.length := by
  have counted := counted_perform w f call
  unfold making Made.synced Made.added
  generalize call.perform w (Watched.watch f) = watched at counted ⊢
  generalize call.perform w f = after at counted ⊢
  cases counted with
  | fails fault same policy left => exact ⟨policy, by simpa [left.unsynced] using same⟩
  | adds count policy undue appends left => exact ⟨policy, by simpa [left.unsynced] using count⟩
  | syncs none policy due last =>
    exact ⟨policy, by simpa [List.mem_of_getLast? last] using none⟩

/-- The count after any number of calls. -/
theorem unsynced_performAll {w : Writer} (fresh : w.unsynced = 0) (f : φ)
    (calls : List WriterCall) :
    (performAll w f calls).2.1.policy = w.policy ∧
      (performAll w f calls).2.1.unsynced = (Made.sinceSync (history w f calls)).length := by
  induction calls using List.reverseRecOn with
  | nil => exact ⟨rfl, fresh⟩
  | append_singleton calls call ih =>
    obtain ⟨answers, w₁, f₁, made⟩ :
        ∃ answers w₁ f₁, performAll w f calls = (answers, w₁, f₁) := ⟨_, _, _, rfl⟩
    obtain ⟨policy, count⟩ := unsynced_perform w₁ f₁ call
    rw [made] at ih
    simp only [performAll_append, history_append, made, performAll, history,
      Made.sinceSync_concat]
    refine ⟨policy.trans ih.1, count.trans ?_⟩
    rw [ih.2]
    split <;> simp

end WriterCall

/-- A writer that was opened has no records to sync yet. -/
theorem Journal.fresh_openAt {d d' : Disk} {policy : SyncPolicy} {j : Journal}
    (opened : Journal.openAt d policy = (.ok j, d')) : j.writer.unsynced = 0 := by
  unfold Journal.openAt at opened
  grind

/-- The count of a writer is that of the records in its successful appends since its file was last
synced, which is what a successful explicit sync does, and a successful append if a sync is due. An
append that succeeds leaves less than a sync is due for, and a call that fails leaves the count. -/
theorem sync_window_counted {φ : Type} [LogFile φ] {w : Writer} {f : φ} (fresh : w.unsynced = 0)
    {calls : List WriterCall} {answers : List WriterCall.Answer} {w₁ : Writer} {f₁ : φ}
    (made : WriterCall.performAll w f calls = (answers, w₁, f₁)) :
    (WriterCall.history w f calls).map Made.call = calls ∧
      (WriterCall.history w f calls).map Made.answer = answers ∧
      w₁.unsynced = (Made.sinceSync (WriterCall.history w f calls)).length ∧
      ∀ (call : WriterCall) (answer : WriterCall.Answer) (w₂ : Writer) (f₂ : φ),
        call.perform w₁ f₁ = (answer, w₂, f₂) →
          (∃ doings, call.perform w₁ (Watched.watch f₁) = (answer, w₂, ⟨f₂, doings⟩) ∧
            (.synced ∈ doings ↔ (∃ told, answer = .ok told) ∧
              (call = .sync ∨ call.changes ≠ [] ∧
                w.policy.due (w₁.unsynced + call.changes.length) = true)) ∧
            (.synced ∈ doings → doings.getLast? = some .synced)) ∧
          (∀ told, answer = .ok told → call.changes ≠ [] →
            match w.policy with
            | .everyWrite => w₂.unsynced = 0
            | .everyRecords n => w₂.unsynced < max n 1) ∧
          (∀ fault, answer = .error fault → w₂.unsynced = w₁.unsynced) := by
  obtain ⟨called, told⟩ := WriterCall.history_told w f calls
  obtain ⟨policy, count⟩ := WriterCall.unsynced_performAll fresh f calls
  rw [made] at told policy count
  simp only at policy
  refine ⟨called, told, count, fun call answer w₂ f₂ performed => ?_⟩
  rw [← policy]
  exact ⟨WriterCall.perform_watch performed, WriterCall.window_perform performed⟩

/-! ## A file whose syncs fail as told -/

/-- A file that takes whatever it is given. Its next syncs succeed or fail as told; what is not told
succeeds. -/
structure UnsureFile where
  syncs : List Bool

instance : LogFile UnsureFile where
  write f bytes := (.ok bytes.size, f)
  setLength f _ := (.ok (), f)
  seek f _ := (.ok (), f)
  flush f := (.ok (), f)
  sync f := (if f.syncs.headD true then .ok () else .error (.system .noSpace), ⟨f.syncs.tail⟩)

/-- A writer is opened in an empty data directory. The sync of its second call fails and the third
call's does not; then an explicit sync fails. One more record is the third since the file was
synced. -/
theorem sync_window_counted_unsure :
    let f : UnsureFile := ⟨[false, true, false]⟩
    let d : Disk := { Disk.blank "data" with place := .aDirectory }
    let w : Writer := ⟨d.walPath, 0, 1, .everyRecords 3, 0, false⟩
    let calls : List WriterCall := [.append id (.commit 1), .appendAll id [.commit 2, .commit 3],
      .appendAll id [.commit 4, .commit 5], .append id (.commit 6), .appendAll id [], .sync,
      .append id (.commit 7)]
    let call : WriterCall := .append id (.commit 8)
    (∃ file place d', Journal.openAt d (.everyRecords 3) = (.ok ⟨w, file, place⟩, d')) ∧
      ∃ answers w₁ f₁ w₂ f₂ doings, WriterCall.performAll w f calls = (answers, w₁, f₁) ∧
        w₁.unsynced = 2 ∧
        call.perform w₁ (Watched.watch f₁) = (.ok (some 6), w₂, ⟨f₂, doings⟩) ∧
        .synced ∈ doings ∧ w₂.unsynced < 3 := by
  intro f d w calls call
  have opened : Journal.openAt d (.everyRecords 3) =
      (.ok ⟨w, 0, 0⟩, d.addLog (.regular .empty)) := rfl
  have fresh : w.unsynced = 0 := Journal.fresh_openAt opened
  obtain ⟨answers, w₁, f₁, made⟩ :
      ∃ answers w₁ f₁, WriterCall.performAll w f calls = (answers, w₁, f₁) := ⟨_, _, _, rfl⟩
  have ran : (match WriterCall.performAll w f calls with
      | (_, w₁, f₁) => (call.perform w₁ f₁).1 = .ok (some 6)) := by decide +kernel
  have since : Made.sinceSync (WriterCall.history w f calls) = [.commit 6, .commit 7] := by
    decide +kernel
  rw [made] at ran
  obtain ⟨answer, w₂, f₂, performed⟩ :
      ∃ answer w₂ f₂, call.perform w₁ f₁ = (answer, w₂, f₂) := ⟨_, _, _, rfl⟩
  obtain rfl : answer = .ok (some 6) := by rw [← ran, performed]
  obtain ⟨-, -, count, next⟩ := sync_window_counted fresh made
  obtain ⟨⟨doings, watched, synced, -⟩, window, -⟩ := next call _ w₂ f₂ performed
  rw [since] at count
  refine ⟨⟨_, _, _, opened⟩, answers, w₁, f₁, w₂, f₂, doings, made, count, watched,
    synced.mpr ⟨⟨_, rfl⟩, .inr ?_⟩, window _ rfl (by decide)⟩
  rw [count]
  decide

end DurableLog
