import DurableLog.Proofs.AllOrNothing

/-!
# A writer on a file that fails

Any number of calls are made on a writer whose file may take a part of what it is given and then
fail, and may fail to be cut back (`writer_all_or_nothing`):

* while the writer is not disabled, the file holds what it held at first and behind it the frames
  of the calls that succeeded, and nothing else;
* a call that fails and does not disable the writer leaves the writer and the bytes of the file as
  they were;
* a writer is disabled only by a call that fails and whose file cannot be cut back; from then on
  the writer and its file stay as they are, and whatever would write or sync is refused.

`appendAll_spec` says this of one call; the invariant that a run carries is `Writer.Added`.
-/

namespace DurableLog

variable {φ : Type} [LogFile φ] {V : FileView φ} {w w' : Writer} {f f' : φ} {base : ByteArray}

/-- A call of a writer. The times of the records are those at which this call makes them. -/
inductive WriterCall
  | append (stamps : UInt64 → UInt64) (change : Change)
  | appendAll (stamps : UInt64 → UInt64) (changes : List Change)
  | sync

namespace WriterCall

/-- What a call tells: the number of the last record of an append. -/
abbrev Answer := Except Fault (Option UInt64)

/-- The changes that the call adds if it succeeds. -/
def changes : WriterCall → List Change
  | append _ change => [change]
  | appendAll _ changes => changes
  | sync => []

/-- The answer of the call, and the writer and the file after it. -/
def perform (w : Writer) (f : φ) : WriterCall → Answer × Writer × φ
  | append stamps change =>
    match w.append stamps f change with
    | (answer, after) => (answer.map some, after)
  | appendAll stamps changes =>
    match w.appendAll stamps f changes with
    | (answer, after) => (answer.map some, after)
  | sync =>
    match w.sync f with
    | (answer, after) => (answer.map fun _ => none, after)

/-- The answer of a disabled writer: it refuses whatever would write or sync. -/
def refusal (w : Writer) : WriterCall → Answer
  | append _ _ | appendAll _ (_ :: _) => .error (w.failed w.nextLsn .writerDisabled)
  | appendAll _ [] => .ok (some (w.nextLsn - 1))
  | sync => .error (.file .writerDisabled)

/-- The answers of calls made one after another, and the writer and the file after them. -/
def performAll (w : Writer) (f : φ) : List WriterCall → List Answer × Writer × φ
  | [] => ([], w, f)
  | call :: rest =>
    match call.perform w f with
    | (answer, w, f) =>
      match performAll w f rest with
      | (answers, after) => (answer :: answers, after)

theorem performAll_append (calls later : List WriterCall) :
    performAll w f (calls ++ later) =
      match performAll w f calls with
      | (answers, w', f') =>
        match performAll w' f' later with
        | (answers', after) => (answers ++ answers', after) := by
  induction calls generalizing w f with
  | nil => rfl
  | cons call rest ih => simp only [List.cons_append, performAll, ih]

/-- The changes of the calls that succeeded, in order. -/
def added : List WriterCall → List Answer → List Change
  | call :: rest, .ok _ :: answers => call.changes ++ added rest answers
  | _ :: rest, .error _ :: answers => added rest answers
  | _, _ => []

/-- A disabled writer does nothing. -/
theorem perform_of_disabled (disabled : w.disabled = true) (call : WriterCall) :
    call.perform w f = (call.refusal w, w, f) := by
  cases call with
  | append stamps change => simp [perform, Writer.append, Writer.appendAll, disabled, refusal,
      Except.map]
  | appendAll stamps changes =>
    cases changes with
    | nil => simp [perform, Writer.appendAll, refusal, Except.map]
    | cons change rest => simp [perform, Writer.appendAll, disabled, refusal, Except.map]
  | sync => simp [perform, Writer.sync, disabled, refusal, Except.map]

theorem performAll_of_disabled (disabled : w.disabled = true) (calls : List WriterCall) :
    performAll w f calls = (calls.map (refusal w), w, f) := by
  induction calls with
  | nil => rfl
  | cons call rest ih => simp only [performAll, perform_of_disabled disabled, ih, List.map_cons]

end WriterCall

namespace Writer

/-- Records of these changes, numbered from `first` on, were added behind `base`. -/
structure Added (V : FileView φ) (base : ByteArray) (first : UInt64) (w : Writer) (f : φ)
    (changes : List Change) : Prop where
  file : ∃ records, records.map Record.change = changes ∧ Record.Consecutive first records ∧
    (∀ r ∈ records, r.Fits) ∧ V.AtEnd f (base ++ Record.frames records)
  offset : w.offset = (V.bytes f).size
  nextLsn : w.nextLsn = first + UInt64.ofNat changes.length

variable {first : UInt64} {changes : List Change}

theorem added_nil (start : V.AtEnd f base) (offset : w.offset = base.size) :
    w.Added V base w.nextLsn f [] where
  file := ⟨[], rfl, trivial, by simp, by
    rwa [Record.frames, List.foldr_nil, ByteArray.append_empty]⟩
  offset := by rw [offset, start.bytes]
  nextLsn := by simp

/-- The file may have been written to and cut back, and the count of unsynced records may be
another. -/
theorem Added.of_atEnd (h : w.Added V base first f changes) (same : V.AtEnd f' (V.bytes f))
    (offset : w'.offset = w.offset) (nextLsn : w'.nextLsn = w.nextLsn) :
    w'.Added V base first f' changes := by
  obtain ⟨⟨records, of, consecutive, fits, atEnd⟩, offset', nextLsn'⟩ := h
  rw [atEnd.bytes] at same offset'
  exact ⟨⟨records, of, consecutive, fits, same⟩, by rw [offset, offset', same.bytes],
    by rw [nextLsn, nextLsn']⟩

theorem Added.atEnd (h : w.Added V base first f changes) : V.AtEnd f (V.bytes f) := by
  obtain ⟨records, -, -, -, atEnd⟩ := h.file
  rwa [atEnd.bytes]

/-- What a call leaves that would add `new`: it has added all of it; or it has failed and nothing
has changed; or it has failed, the file cannot be cut back, and the writer is disabled. -/
def Leaves (V : FileView φ) (base : ByteArray) (first : UInt64) (changes new : List Change)
    (w : Writer) (f : φ) : WriterCall.Answer × Writer × φ → Prop
  | (.ok _, w', f') => w'.disabled = false ∧ w'.Added V base first f' (changes ++ new)
  | (.error _, w', f') => w' = w ∧ V.AtEnd f' (V.bytes f) ∨
      V.Stuck (V.bytes f) ∧ w' = { w with disabled := true }

theorem Added.appendAll (h : w.Added V base first f changes) (enabled : w.disabled = false)
    (stamps : UInt64 → UInt64) (new : List Change) :
    Leaves V base first changes new w f (WriterCall.perform w f (.appendAll stamps new)) := by
  have call := appendAll_spec stamps h.atEnd h.offset enabled new
  rw [WriterCall.perform]
  cases ended : w.appendAll stamps f new with
  | mk answer after =>
    rw [ended] at call
    cases answer with
    | error fault => exact call
    | ok last =>
      obtain ⟨w', f'⟩ := after
      obtain ⟨records, of, consecutive, fits, atEnd⟩ := h.file
      obtain ⟨longer, each, state⟩ := call
      have count : records.length = changes.length := by rw [← of, List.length_map]
      have follow : Record.Consecutive (first + UInt64.ofNat records.length)
          (Record.numbered stamps w.nextLsn new) := by
        rw [count, ← h.nextLsn]
        exact Record.consecutive_numbered stamps w.nextLsn new
      rw [state]
      refine ⟨enabled, ⟨⟨records ++ Record.numbered stamps w.nextLsn new, ?_, ?_, ?_, ?_⟩, ?_, ?_⟩⟩
      · rw [List.map_append, of, Record.map_change_numbered]
      · exact Record.consecutive_append.mpr ⟨consecutive, follow⟩
      · exact fun r mem => (List.mem_append.mp mem).elim (fits r) (each r)
      · rwa [Record.frames_append, ← ByteArray.append_assoc, ← atEnd.bytes]
      · rw [longer.bytes, ByteArray.size_append, h.offset]
      · rw [h.nextLsn, List.length_append, UInt64.ofNat_add, UInt64.add_assoc]

theorem Added.sync (h : w.Added V base first f changes) (enabled : w.disabled = false) :
    Leaves V base first changes [] w f (WriterCall.perform w f .sync) := by
  have flushed := h.atEnd.flush
  rw [WriterCall.perform, Writer.sync, enabled]
  simp only [Bool.false_eq_true, if_false]
  cases flush : LogFile.flush f with
  | mk result f₁ =>
    rw [flush] at flushed
    cases result with
    | error fault => exact .inl ⟨rfl, flushed⟩
    | ok _ =>
      have synced := flushed.sync
      simp only
      cases sync : LogFile.sync f₁ with
      | mk result f₂ =>
        rw [sync] at synced
        cases result with
        | error fault => exact .inl ⟨rfl, synced⟩
        | ok _ => exact ⟨rfl, by rw [List.append_nil]; exact h.of_atEnd synced rfl rfl⟩

/-- One call of a writer that is not disabled. -/
theorem Added.perform (h : w.Added V base first f changes) (enabled : w.disabled = false)
    (call : WriterCall) :
    Leaves V base first changes call.changes w f (call.perform w f) := by
  cases call with
  | append stamps change => exact h.appendAll enabled stamps [change]
  | appendAll stamps new => exact h.appendAll enabled stamps new
  | sync => exact h.sync enabled

/-- What a run of calls leaves, unless it disables the writer. -/
theorem Added.performAll (h : w.Added V base first f changes) (calls : List WriterCall) :
    match WriterCall.performAll w f calls with
    | (answers, w', f') =>
      w'.disabled = false →
        w'.Added V base first f' (changes ++ WriterCall.added calls answers) := by
  induction calls generalizing w f changes with
  | nil =>
    intro enabled
    simpa [WriterCall.added] using h
  | cons call rest ih =>
    cases enabled : w.disabled with
    | true =>
      rw [WriterCall.performAll_of_disabled enabled]
      exact fun still => nomatch enabled.symm.trans still
    | false =>
      have step := h.perform enabled call
      rw [WriterCall.performAll]
      cases made : call.perform w f with
      | mk answer after =>
        rw [made] at step
        obtain ⟨w₁, f₁⟩ := after
        cases answer with
        | ok told =>
          have onward := ih step.2
          simp only [List.append_assoc] at onward
          exact onward
        | error fault =>
          rcases step with ⟨rfl, same⟩ | ⟨-, rfl⟩
          · exact ih (h.of_atEnd same rfl rfl)
          · -- from here on nothing happens
            simp only [WriterCall.performAll_of_disabled (w := { w with disabled := true }) rfl]
            exact nofun

end Writer

/-- What a writer at the end of its file has added as long as it is not disabled, what a failed
call leaves, and when a writer is disabled, which it then stays. -/
theorem writer_all_or_nothing (V : FileView φ) (start : V.AtEnd f base)
    (offset : w.offset = base.size) {calls : List WriterCall} {answers : List WriterCall.Answer}
    {w₁ : Writer} {f₁ : φ} (made : WriterCall.performAll w f calls = (answers, w₁, f₁)) :
    (w₁.disabled = false → w₁.Added V base w.nextLsn f₁ (WriterCall.added calls answers)) ∧
      (∀ (call : WriterCall) (fault : Fault) (w₂ : Writer) (f₂ : φ),
        call.perform w₁ f₁ = (.error fault, w₂, f₂) → w₂.disabled = false →
          w₂ = w₁ ∧ V.AtEnd f₂ (V.bytes f₁)) ∧
      (∀ (call : WriterCall) (answer : WriterCall.Answer) (w₂ : Writer) (f₂ : φ),
        call.perform w₁ f₁ = (answer, w₂, f₂) → w₁.disabled = false → w₂.disabled = true →
          (∃ fault, answer = .error fault) ∧ V.Stuck (V.bytes f₁)) ∧
      (w₁.disabled = true → ∀ later : List WriterCall,
        WriterCall.performAll w₁ f₁ later = (later.map (WriterCall.refusal w₁), w₁, f₁)) := by
  have run := (Writer.added_nil start offset).performAll calls
  rw [made] at run
  refine ⟨run, fun call fault w₂ f₂ last enabled₂ => ?_, fun call answer w₂ f₂ last enabled
    disabled => ?_, fun disabled later => WriterCall.performAll_of_disabled disabled later⟩
  · have enabled : w₁.disabled = false := by
      cases disabled : w₁.disabled with
      | false => rfl
      | true =>
        rw [WriterCall.perform_of_disabled disabled, Prod.mk.injEq, Prod.mk.injEq] at last
        rw [← disabled, last.2.1, enabled₂]
    have step := (run enabled).perform enabled call
    rw [last] at step
    rcases step with same | ⟨-, rfl⟩
    · exact same
    · cases enabled₂
  · have step := (run enabled).perform enabled call
    rw [last] at step
    cases answer with
    | ok told =>
      rw [step.1] at disabled
      cases disabled
    | error fault =>
      rcases step with ⟨rfl, -⟩ | ⟨stuck, -⟩
      · rw [enabled] at disabled
        cases disabled
      · exact ⟨⟨fault, rfl⟩, stuck⟩

/-! ## A file that fails as told -/

/-- A file in memory. Its next writes take so many bytes at most, or fail where no number is
told; its next cuts succeed or fail. What is not told succeeds. -/
structure ScriptedFile where
  bytes : ByteArray
  place : Nat
  writes : List (Option Nat)
  cuts : List Bool

namespace ScriptedFile

def write (f : ScriptedFile) (new : ByteArray) : Except FileFault Nat × ScriptedFile :=
  match f.writes.headD (some new.size) with
  | none => (.error (.system .noSpace), { f with writes := f.writes.tail })
  | some most =>
    let n := min most new.size
    (.ok n, { f with
      bytes := Bytes.writeAt f.bytes f.place (new.extract 0 n)
      place := f.place + n
      writes := f.writes.tail })

def setLength (f : ScriptedFile) (n : Nat) : Except FileFault Unit × ScriptedFile :=
  if f.cuts.headD true then
    (.ok (), { f with bytes := Bytes.resize f.bytes n, cuts := f.cuts.tail })
  else (.error (.system .noSpace), { f with cuts := f.cuts.tail })

instance : LogFile ScriptedFile where
  write := write
  setLength := setLength
  seek f n := (.ok (), { f with place := n })
  flush f := (.ok (), f)
  sync f := (.ok (), f)

/-- Whatever it is told, such a file does what it tells. -/
def view : FileView ScriptedFile where
  Sound _ := True
  bytes := bytes
  place := place
  write := by
    intro f f' new n _ atEnd h
    simp only [LogFile.write, write] at h
    split at h
    · cases h
    · next most told =>
      cases h
      exact ⟨trivial, Nat.min_le_right _ _, by rw [atEnd, Bytes.writeAt_size], rfl⟩
  write_error := by
    intro f f' new fault _ _ h
    simp only [LogFile.write, write] at h
    split at h
    · cases h
      exact ⟨trivial, .empty, ByteArray.append_empty.symm⟩
    · cases h
  cut := by
    intro f f' n _ within h
    simp only [LogFile.setLength, setLength] at h
    split at h
    · cases h
      exact ⟨trivial, if_pos within⟩
    · cases h
  seek := by
    intro f f' n _ h
    cases h
    exact ⟨trivial, rfl, rfl⟩
  flush _ := ⟨trivial, rfl, rfl⟩
  sync _ := ⟨trivial, rfl, rfl⟩

end ScriptedFile

/-- The second call's frame is cut off again, the third call's frames are written in two parts, and
the fourth call's frame cannot be cut off. -/
theorem writer_all_or_nothing_scripted :
    let f : ScriptedFile := ⟨.empty, 0, [some 99, some 10, none, some 5, some 99, some 7, none],
      [true, false]⟩
    let w : Writer := ⟨"log", 0, 1, .everyWrite, 0, false⟩
    let calls : List WriterCall := [.append id (.commit 1), .append id (.commit 2),
      .appendAll id [.commit 3, .commit 4]]
    let last : WriterCall := .append id (.commit 5)
    ∃ answers w₁ f₁ answer w₂ f₂,
      WriterCall.performAll w f calls = (answers, w₁, f₁) ∧ w₁.disabled = false ∧
        w₁.Added ScriptedFile.view .empty 1 f₁ [.commit 1, .commit 3, .commit 4] ∧
        last.perform w₁ f₁ = (answer, w₂, f₂) ∧ w₂.disabled = true ∧
        ScriptedFile.view.Stuck f₁.bytes ∧
        WriterCall.performAll w₂ f₂ [.appendAll id [], .append id (.commit 6), .sync] =
          ([.ok (some 3), .error (w₂.failed 4 .writerDisabled), .error (.file .writerDisabled)],
            w₂, f₂) := by
  intro f w calls last
  have start : ScriptedFile.view.AtEnd f .empty := ⟨trivial, rfl, rfl⟩
  obtain ⟨answers, w₁, f₁, made⟩ :
      ∃ answers w₁ f₁, WriterCall.performAll w f calls = (answers, w₁, f₁) := ⟨_, _, _, rfl⟩
  obtain ⟨answer, w₂, f₂, failed⟩ :
      ∃ answer w₂ f₂, last.perform w₁ f₁ = (answer, w₂, f₂) := ⟨_, _, _, rfl⟩
  have all : WriterCall.performAll w f (calls ++ [last]) = (answers ++ [answer], w₂, f₂) := by
    simp [WriterCall.performAll_append, made, WriterCall.performAll, failed]
  have ran : (match WriterCall.performAll w f calls with
      | (answers, w₁, f₁) => w₁.disabled = false ∧
        WriterCall.added calls answers = [.commit 1, .commit 3, .commit 4]) := by decide +kernel
  have ended : (match WriterCall.performAll w f (calls ++ [last]) with
      | (_, w₂, _) => w₂.disabled = true ∧ w₂.nextLsn = 4) := by decide +kernel
  rw [made] at ran
  rw [all] at ended
  obtain ⟨added, -, stuck, -⟩ := writer_all_or_nothing ScriptedFile.view start rfl made
  obtain ⟨-, -, -, still⟩ := writer_all_or_nothing ScriptedFile.view start rfl all
  refine ⟨answers, w₁, f₁, answer, w₂, f₂, made, ran.1, ran.2 ▸ added ran.1, failed, ended.1,
    (stuck last answer w₂ f₂ failed ran.1 ended.1).2, ?_⟩
  rw [still ended.1]
  simp [WriterCall.refusal, ended.2]

end DurableLog
