import DurableLog.Entry.Intake

/-!
# However a payload arrives

A payload arrives in pieces of any size, with pauses between them, and is read into room that starts
at any size and grows. None of this shows in what becomes of it: a stream is taken in whole, is
refused because it brings more than the limit, or ends with its own failure
(`Stream.Outcome`). A call-off can come before any read and leaves nothing of the stream.

1. `Filling.next_step` lists what one read can do. No later proof looks into `Filling.next`.
2. `Filling.Of` says how far a stream has been read: what is held and what is still ahead make up
   what the stream brings. Every read keeps this, and every end that it leads to is an outcome of
   the stream (`Filling.Of.step`).
3. So is the end of a whole run (`Filling.Of.run`), and of a capture that is looked at again and
   again (`capture_independent_of_arrival`).
-/

namespace DurableLog

/-! ## What a stream brings -/

/-- The bytes that pieces bring before they end or fail. -/
def bytesBrought : List Piece → ByteArray
  | [] => .empty
  | .gate _ :: rest => bytesBrought rest
  | .fail _ :: _ => .empty
  | .bytes data :: rest => if data.size = 0 then .empty else data ++ bytesBrought rest

/-- The failure that stops pieces, if they do not just end. -/
def failureBrought? : List Piece → Option FileFault
  | [] => none
  | .gate _ :: rest => failureBrought? rest
  | .fail fault :: _ => some fault
  | .bytes data :: rest => if data.size = 0 then none else failureBrought? rest

namespace Stream

/-- The entry that a stream is, taken in whole. -/
def entry (s : Stream) : Entry := ⟨s.term, s.timestamp.instant, bytesBrought s.pieces, s.isSnapshot⟩

/-- What becomes of a stream under a limit. Of a payload that is too large some bytes more than the
limit have been seen. -/
inductive Outcome (s : Stream) (limit : Nat) : Except Fault Entry → Prop
  | taken (ends : failureBrought? s.pieces = none)
      (within : (bytesBrought s.pieces).size ≤ limit) : Outcome s limit (.ok s.entry)
  | tooLarge {seen : Nat} (past : limit < seen) (brought : seen ≤ (bytesBrought s.pieces).size) :
      Outcome s limit (.error (.payloadTooLarge (.readSoFar seen) limit))
  | fails {fault : FileFault} (failure : failureBrought? s.pieces = some fault)
      (within : (bytesBrought s.pieces).size ≤ limit) : Outcome s limit (.error (.file fault))

/-- The streams bring the same, in whatever pieces, and tell the same but for the size they
announce. -/
structure Like (s s' : Stream) : Prop where
  term : s'.term = s.term
  instant : s'.timestamp.instant = s.timestamp.instant
  isSnapshot : s'.isSnapshot = s.isSnapshot
  bytes : bytesBrought s'.pieces = bytesBrought s.pieces
  failure : failureBrought? s'.pieces = failureBrought? s.pieces

end Stream

/-- The results are the same, but for how much was seen of a payload that is too large. -/
inductive SameResult : Except Fault Entry → Except Fault Entry → Prop
  | same (result : Except Fault Entry) : SameResult result result
  | tooLarge (seen seen' limit : Nat) :
      SameResult (.error (.payloadTooLarge (.readSoFar seen) limit))
        (.error (.payloadTooLarge (.readSoFar seen') limit))

/-- A stream has one outcome. -/
theorem Stream.Outcome.sameResult {s s' : Stream} (like : s.Like s') {limit : Nat}
    {result result' : Except Fault Entry} (h : s.Outcome limit result)
    (h' : s'.Outcome limit result') : SameResult result result' := by
  obtain ⟨term, instant, isSnapshot, bytes, failure⟩ := like
  cases h with
  | taken ends within =>
    cases h' with
    | taken ends' within' =>
      rw [entry, entry, term, instant, isSnapshot, bytes]
      exact .same _
    | tooLarge past brought => rw [bytes] at brought; omega
    | fails fails' _ => simp [failure, ends] at fails'
  | tooLarge past brought =>
    cases h' with
    | taken _ within' => rw [bytes] at within'; omega
    | tooLarge past' brought' => exact .tooLarge ..
    | fails _ within' => rw [bytes] at within'; omega
  | fails fails within =>
    cases h' with
    | taken ends' _ => simp [failure, fails] at ends'
    | tooLarge past brought => rw [bytes] at brought; omega
    | fails fails' _ =>
      rw [failure, fails] at fails'
      cases fails'
      exact .same _

namespace Filling

variable {intake : Intake} {signals : Signals} {stream : Stream} {f g : Filling}

/-! ## One read -/

/-- What is held after a read. -/
def grown (intake : Intake) (f : Filling) (data : ByteArray) : ByteArray :=
  f.held ++ Bytes.slice data f.taken (min (f.nextRoom intake) (data.size - f.taken))

/-- What one read can do. -/
inductive Step (intake : Intake) (signals : Signals) (f : Filling) : Next → Prop
  | cancelled (off : signals.cancelled = true) : Step intake signals f (.ended (.error .canceled))
  | ends (failure : failureBrought? f.pending = none) (ahead : bytesBrought f.pending = .empty) :
      Step intake signals f (.ended (.ok f.entry))
  | fails {fault : FileFault} {rest : List Piece} (pending : f.pending = .fail fault :: rest) :
      Step intake signals f (.ended (.error (.file fault)))
  | blocked {name : String} {rest : List Piece} (pending : f.pending = .gate name :: rest)
      (shut : signals.opened name = false) : Step intake signals f .blocked
  | passes {name : String} {rest : List Piece} (pending : f.pending = .gate name :: rest) :
      Step intake signals f (.go { f with pending := rest, taken := 0 })
  | overflows {data : ByteArray} {rest : List Piece} (pending : f.pending = .bytes data :: rest)
      (some : data.size ≠ 0) (long : intake.limit < (f.grown intake data).size) :
      Step intake signals f
        (.ended (.error (.payloadTooLarge (.readSoFar (f.grown intake data).size) intake.limit)))
  | reads {data : ByteArray} {rest : List Piece} {count room : Nat}
      (pending : f.pending = .bytes data :: rest) (some : data.size ≠ 0)
      (count_eq : count = min (f.nextRoom intake) (data.size - f.taken))
      (within : (f.grown intake data).size ≤ intake.limit) (more : f.taken + count < data.size) :
      Step intake signals f
        (.go { f with taken := f.taken + count, held := f.grown intake data, room })
  | finishes {data : ByteArray} {rest : List Piece} {room : Nat}
      (pending : f.pending = .bytes data :: rest) (some : data.size ≠ 0)
      (within : (f.grown intake data).size ≤ intake.limit)
      (all : data.size ≤ f.taken + min (f.nextRoom intake) (data.size - f.taken)) :
      Step intake signals f
        (.go { f with pending := rest, taken := 0, held := f.grown intake data, room })

theorem next_step (intake : Intake) (signals : Signals) (f : Filling) :
    f.Step intake signals (f.next intake signals) := by
  unfold next
  by_cases off : signals.cancelled = true
  · rw [if_pos off]
    exact .cancelled off
  · rw [if_neg off]
    split
    · next pending => exact .ends (by rw [pending]; rfl) (by rw [pending]; rfl)
    · next name rest pending =>
      by_cases opened : signals.opened name = true
      · rw [if_pos opened]
        exact .passes pending
      · rw [if_neg opened]
        exact .blocked pending (by simpa using opened)
    · next pending => exact .fails pending
    · next data rest pending =>
      by_cases none : data.size = 0
      · rw [if_pos none]
        exact .ends (by rw [pending, failureBrought?, if_pos none])
          (by rw [pending, bytesBrought, if_pos none])
      · rw [if_neg none]
        show f.Step intake signals (if intake.limit < (f.grown intake data).size then _ else _)
        by_cases long : intake.limit < (f.grown intake data).size
        · rw [if_pos long]
          exact .overflows pending none long
        · have within := Nat.not_lt.mp long
          rw [if_neg long]
          -- the rest of the piece is left for the next read, or nothing is
          by_cases more : f.taken + min (f.nextRoom intake) (data.size - f.taken) < data.size
          · rw [if_pos more]
            exact .reads pending none rfl within more
          · rw [if_neg more]
            exact .finishes pending none within (Nat.not_lt.mp more)

theorem run_of_go (goes : f.next intake signals = .go g) :
    f.run intake signals = g.run intake signals := by
  rw [run]
  split <;> simp_all

theorem run_of_blocked (blocked : f.next intake signals = .blocked) :
    f.run intake signals = .waiting f := by
  rw [run]
  split <;> simp_all

theorem run_of_ended {result : Except Fault Entry} (ends : f.next intake signals = .ended result) :
    f.run intake signals = .finished result := by
  rw [run]
  split <;> simp_all

/-! ## How far a stream has been read -/

/-- What the pieces still bring that are not used up. -/
def ahead (f : Filling) : ByteArray :=
  Bytes.slice (bytesBrought f.pending) f.taken ((bytesBrought f.pending).size - f.taken)

/-- The stream has been read so far: what is held and what is ahead make up what it brings. -/
structure Of (intake : Intake) (s : Stream) (f : Filling) : Prop where
  stream : f.stream = s
  pending : f.pending <:+ s.pieces
  within : f.held.size ≤ intake.limit
  taken : f.taken = 0 ∨ f.taken < firstSize f.pending
  bytes : f.held ++ f.ahead = bytesBrought s.pieces
  failure : failureBrought? f.pending = failureBrought? s.pieces

theorem ahead_of_taken_eq_zero (none : f.taken = 0) : f.ahead = bytesBrought f.pending := by
  rw [ahead, none, Nat.sub_zero, Bytes.slice_whole]

theorem of_start (intake : Intake) (s : Stream) : (start intake s).Of intake s where
  stream := rfl
  pending := List.suffix_rfl
  within := Nat.zero_le _
  taken := .inl rfl
  bytes := by
    rw [ahead_of_taken_eq_zero rfl]
    exact ByteArray.empty_append
  failure := rfl

/-- A read takes the first bytes that are ahead. -/
theorem ahead_eq {data : ByteArray} {rest : List Piece} {count : Nat}
    (pending : f.pending = .bytes data :: rest) (some : data.size ≠ 0)
    (within : f.taken + count ≤ data.size) :
    f.ahead = Bytes.slice data f.taken count ++
      Bytes.slice (data ++ bytesBrought rest) (f.taken + count)
        ((data ++ bytesBrought rest).size - (f.taken + count)) := by
  have whole : count + ((data ++ bytesBrought rest).size - (f.taken + count)) =
      (data ++ bytesBrought rest).size - f.taken := by
    rw [ByteArray.size_append]
    omega
  rw [ahead, pending, bytesBrought, if_neg some,
    ← Bytes.slice_append_left (bytesBrought rest) within, Bytes.slice_append, whole]

/-- What is behind the first piece is a part of the stream as well. -/
theorem Of.rest {s : Stream} (h : f.Of intake s) {piece : Piece} {rest : List Piece}
    (pending : f.pending = piece :: rest) : rest <:+ s.pieces :=
  (List.suffix_cons piece rest).trans (pending ▸ h.pending)

theorem Of.taken_lt {s : Stream} (h : f.Of intake s) {data : ByteArray} {rest : List Piece}
    (pending : f.pending = .bytes data :: rest) (some : data.size ≠ 0) : f.taken < data.size := by
  rcases h.taken with none | less
  · omega
  · rwa [pending] at less

/-- What is held after a read, and what is ahead then, make up the same. -/
theorem Of.grown_append {s : Stream} (h : f.Of intake s) {data : ByteArray} {rest : List Piece}
    (pending : f.pending = .bytes data :: rest) (some : data.size ≠ 0) {count : Nat}
    (count_eq : count = min (f.nextRoom intake) (data.size - f.taken)) :
    f.grown intake data ++ Bytes.slice (data ++ bytesBrought rest) (f.taken + count)
      ((data ++ bytesBrought rest).size - (f.taken + count)) = bytesBrought s.pieces := by
  have less := h.taken_lt pending some
  rw [grown, ← count_eq, ByteArray.append_assoc, ← ahead_eq pending some (by omega), h.bytes]

/-- Every read that does not end leads on in the stream, and every end is an outcome of it, unless a
call-off came before. -/
theorem Of.step {s : Stream} (h : f.Of intake s) (signals : Signals) :
    match f.next intake signals with
    | .blocked => True
    | .go g => g.Of intake s
    | .ended result => s.Outcome intake.limit result ∨
        (signals.cancelled = true ∧ result = .error .canceled) := by
  have step := f.next_step intake signals
  have bytes := h.bytes
  generalize f.next intake signals = next at step ⊢
  cases step with
  | cancelled off => exact .inr ⟨off, rfl⟩
  | ends failure none =>
    have held : f.held = bytesBrought s.pieces := by
      rw [← bytes, ahead, none, Bytes.empty_slice, ByteArray.append_empty]
    have entry : f.entry = s.entry := by rw [Filling.entry, Stream.entry, h.stream, held]
    rw [entry]
    exact .inl (.taken (h.failure ▸ failure) (held ▸ h.within))
  | fails pending =>
    have held : f.held = bytesBrought s.pieces := by
      rw [← bytes, ahead, pending, bytesBrought, Bytes.empty_slice, ByteArray.append_empty]
    refine .inl (.fails ?_ (held ▸ h.within))
    rw [← h.failure, pending, failureBrought?]
  | blocked pending shut => trivial
  | passes pending =>
    have none : f.taken = 0 := by
      rcases h.taken with none | less
      · exact none
      · rw [pending] at less
        exact absurd less (Nat.not_lt_zero _)
    refine ⟨h.stream, h.rest pending, h.within, .inl rfl, ?_, ?_⟩
    · rw [← bytes, ahead_of_taken_eq_zero rfl, ahead_of_taken_eq_zero none, pending, bytesBrought]
    · rw [← h.failure, pending, failureBrought?]
  | overflows pending some long =>
    refine .inl (.tooLarge long ?_)
    rw [← h.grown_append pending some rfl, ByteArray.size_append]
    exact Nat.le_add_right _ _
  | reads pending some count_eq within more =>
    have grown := h.grown_append pending some count_eq
    refine ⟨h.stream, h.pending, within, .inr (by rw [pending]; exact more), ?_, h.failure⟩
    rw [← grown, ahead, pending, bytesBrought, if_neg some]
  | @finishes data rest room pending some within all =>
    have grown := h.grown_append pending some rfl
    have less := h.taken_lt pending some
    have whole : f.taken + min (f.nextRoom intake) (data.size - f.taken) = data.size + 0 := by
      omega
    have size : (data ++ bytesBrought rest).size - (data.size + 0) = (bytesBrought rest).size := by
      rw [ByteArray.size_append]
      omega
    rw [whole, Bytes.slice_append_right, size, Bytes.slice_whole] at grown
    refine ⟨h.stream, h.rest pending, within, .inl rfl, ?_, ?_⟩
    · rw [← grown, ahead_of_taken_eq_zero rfl]
    · rw [← h.failure, pending, failureBrought?, if_neg some]

/-- A run stops in front of a closed gate of the stream or with an outcome, unless it is called
off. -/
theorem Of.run {s : Stream} (h : f.Of intake s) (signals : Signals) :
    match f.run intake signals with
    | .waiting g => g.Of intake s ∧ ∃ name, .gate name ∈ s.pieces ∧ signals.opened name = false
    | .finished result => s.Outcome intake.limit result ∨
        (signals.cancelled = true ∧ result = .error .canceled) := by
  fun_induction Filling.run intake signals f with
  | case1 f blocked =>
    have step := f.next_step intake signals
    rw [blocked] at step
    cases step with
    | @blocked name rest pending shut =>
      have part : .gate name ∈ f.pending := by rw [pending]; exact List.mem_cons_self
      exact ⟨h, name, h.pending.subset part, shut⟩
  | case2 f result ends =>
    have step := h.step signals
    rwa [ends] at step
  | case3 f g goes ih =>
    have step := h.step signals
    rw [goes] at step
    exact ih step

/-- The fillings that reading a stream leads to, whatever the surroundings do between the reads. -/
inductive Reached (intake : Intake) (s : Stream) : Filling → Prop
  | start : Reached intake s (start intake s)
  | next {f g : Filling} (signals : Signals) (before : Reached intake s f)
      (goes : f.next intake signals = .go g) : Reached intake s g

theorem Reached.of {s : Stream} (reached : f.Reached intake s) : f.Of intake s := by
  induction reached with
  | start => exact of_start intake s
  | next signals _ goes ih =>
    have step := ih.step signals
    rwa [goes] at step

end Filling

/-! ## Capturing one source -/

namespace Capture

/-- How far a source has been taken in when it is looked at time after time, under the signals that
`course` has then. -/
def attend (intake : Intake) (source : Source) (course : Nat → Signals) :
    Nat → Attempt Filling Entry
  | 0 => begin intake (course 0) source
  | time + 1 =>
    match attend intake source course time with
    | .waiting f => f.run intake (course (time + 1))
    | .finished result => .finished result

variable {intake : Intake} {s : Stream} {course : Nat → Signals} {time : Nat}

/-- A source that may be read is read from its start. -/
theorem begin_eq_run (streamed : s.reusable = none)
    (short : ∀ size ∈ s.announced, size ≤ intake.limit) {signals : Signals}
    (on : signals.cancelled = false) :
    begin intake signals (.streamed s) = (Filling.start intake s).run intake signals := by
  simp only [begin, streamed, on, Bool.false_eq_true, if_false]
  cases announced : s.announced with
  | none => rfl
  | some size => exact if_neg (Nat.not_lt.mpr (short size announced))

/-- Whenever it is looked at, a source waits for a gate that is closed then, or has come to an
outcome, or has been called off. -/
theorem attend_of (intake : Intake) (streamed : s.reusable = none)
    (short : ∀ size ∈ s.announced, size ≤ intake.limit) (course : Nat → Signals) (time : Nat) :
    match attend intake (.streamed s) course time with
    | .waiting f => f.Of intake s ∧
        ∃ name, .gate name ∈ s.pieces ∧ (course time).opened name = false
    | .finished result => s.Outcome intake.limit result ∨
        ((∃ t ≤ time, (course t).cancelled = true) ∧ result = .error .canceled) := by
  induction time with
  | zero =>
    rw [attend]
    cases off : (course 0).cancelled with
    | true =>
      have called : begin intake (course 0) (.streamed s) = .finished (.error .canceled) := by
        simp only [begin, streamed, off, if_true]
      rw [called]
      exact .inr ⟨⟨0, Nat.le_refl 0, off⟩, rfl⟩
    | false =>
      rw [begin_eq_run streamed short off]
      have run := (Filling.of_start intake s).run (course 0)
      cases attempt : (Filling.start intake s).run intake (course 0) with
      | waiting f => rwa [attempt] at run
      | finished result =>
        rw [attempt] at run
        exact run.imp_right (And.imp_left fun off => ⟨0, Nat.le_refl 0, off⟩)
  | succ time ih =>
    rw [attend]
    cases before : attend intake (.streamed s) course time with
    | finished result =>
      rw [before] at ih
      refine ih.imp_right (And.imp_left ?_)
      rintro ⟨t, le, off⟩
      exact ⟨t, Nat.le_succ_of_le le, off⟩
    | waiting f =>
      rw [before] at ih
      have run := ih.1.run (course (time + 1))
      simp only
      cases attempt : f.run intake (course (time + 1)) with
      | waiting g => rwa [attempt] at run
      | finished result =>
        rw [attempt] at run
        exact run.imp_right (And.imp_left fun off => ⟨time + 1, Nat.le_refl _, off⟩)

end Capture

/-- The gate is open from some time on. -/
def Opens (course : Nat → Signals) (name : String) : Prop :=
  ∃ time, ∀ t ≥ time, (course t).opened name = true

/-- If each gate is open from some time on, there is a time from which all are. -/
theorem exists_all_open {course : Nat → Signals} (pieces : List Piece)
    (opens : ∀ name, .gate name ∈ pieces → Opens course name) :
    ∃ time, ∀ t ≥ time, ∀ name, .gate name ∈ pieces → (course t).opened name = true := by
  induction pieces with
  | nil => exact ⟨0, by simp⟩
  | cons piece rest ih =>
    obtain ⟨time, others⟩ := ih fun name mem => opens name (List.mem_cons_of_mem _ mem)
    by_cases gate : ∃ name, piece = .gate name
    · obtain ⟨name, rfl⟩ := gate
      obtain ⟨first, opened⟩ := opens name List.mem_cons_self
      refine ⟨max time first, ?_⟩
      intro t late name' mem
      rcases List.mem_cons.mp mem with same | mem
      · cases same
        exact opened t (by omega)
      · exact others t (by omega) name' mem
    · refine ⟨time, ?_⟩
      intro t late name mem
      rcases List.mem_cons.mp mem with same | mem
      · exact absurd ⟨name, same.symm⟩ gate
      · exact others t late name mem

/-- A capture whose pauses end comes to an end. -/
theorem Capture.exists_attend_eq_finished {intake : Intake} {s : Stream} {course : Nat → Signals}
    (streamed : s.reusable = none) (short : ∀ size ∈ s.announced, size ≤ intake.limit)
    (opens : ∀ name, .gate name ∈ s.pieces → Opens course name) :
    ∃ time result, attend intake (.streamed s) course time = .finished result := by
  obtain ⟨time, opened⟩ := exists_all_open s.pieces opens
  have now := attend_of intake streamed short course time
  cases attempt : attend intake (.streamed s) course time with
  | finished result => exact ⟨time, result, attempt⟩
  | waiting f =>
    -- it would wait for a gate that is open
    rw [attempt] at now
    obtain ⟨-, name, part, shut⟩ := now
    rw [opened time (Nat.le_refl time) name part] at shut
    cases shut

/-! ## The main result -/

/-- Whatever the room to start with, the pieces and the pauses, a capture that ends has come to the
outcome of the stream, or to a call-off that there was; and it ends if the pauses do. So two
captures that nobody calls off, of streams that bring alike, have the same result; and a call-off
between any two reads leaves no part of a stream behind. (A stream that is at hand as an entry, or
announces more than the limit, is not read at all.) -/
theorem capture_independent_of_arrival (capacity limit : Nat) {s : Stream}
    (streamed : s.reusable = none) (short : ∀ size ∈ s.announced, size ≤ limit) :
    let intake := Intake.ofSizes capacity limit
    (∀ course time result, Capture.attend intake (.streamed s) course time = .finished result →
      s.Outcome limit result ∨
        ((∃ t ≤ time, (course t).cancelled = true) ∧ result = .error .canceled)) ∧
    (∀ course, (∀ name, .gate name ∈ s.pieces → Opens course name) →
      ∃ time result, Capture.attend intake (.streamed s) course time = .finished result) ∧
    (∀ (s' : Stream) capacity' course course' time time' result result', s.Like s' →
      s'.reusable = none → (∀ size ∈ s'.announced, size ≤ limit) →
      (∀ t, (course t).cancelled = false) → (∀ t, (course' t).cancelled = false) →
      Capture.attend intake (.streamed s) course time = .finished result →
      Capture.attend (.ofSizes capacity' limit) (.streamed s') course' time' = .finished result' →
      SameResult result result') ∧
    ∀ (f : Filling) signals result, f.Reached intake s → f.next intake signals = .ended result →
      s.Outcome limit result ∨ (signals.cancelled = true ∧ result = .error .canceled) := by
  intro intake
  refine ⟨?_, ?_, ?_, ?_⟩
  · intro course time result finished
    have now := Capture.attend_of intake streamed short course time
    rwa [finished] at now
  · intro course opens
    exact Capture.exists_attend_eq_finished streamed short opens
  · intro s' capacity' course course' time time' result result' like streamed' short' on on'
      finished finished'
    have now := Capture.attend_of intake streamed short course time
    have now' := Capture.attend_of (.ofSizes capacity' limit) streamed' short' course' time'
    rw [finished] at now
    rw [finished'] at now'
    have outcome : s.Outcome limit result := now.resolve_right (by simp [on])
    have outcome' : s'.Outcome limit result' := now'.resolve_right (by simp [on'])
    exact outcome.sameResult like outcome'
  · intro f signals result reached ended
    have step := reached.of.step signals
    rwa [ended] at step

/-- Four bytes at the limit arrive in two pieces with a pause between them and an empty one behind
them, into room for one byte at a time. They are the entry that they are in one piece, announced. -/
theorem capture_independent_of_arrival_paused :
    let paused : Stream := { Stream.plain 1 ⟨.epoch, 0⟩ .empty with
      pieces := [.bytes (Bytes.ofList [1, 2, 3]), .gate "later", .bytes (Bytes.ofList [4]),
        .bytes .empty, .bytes (Bytes.ofList [5])] }
    let whole : Stream := { Stream.plain 1 ⟨.epoch, 3600⟩ (Bytes.ofList [1, 2, 3, 4]) with
      announced := some 4 }
    let course : Nat → Signals := fun time => ⟨false, fun _ => decide (1 ≤ time)⟩
    paused.reusable = none ∧ (∀ size ∈ paused.announced, size ≤ 4) ∧
      (∃ time, Capture.attend (.ofSizes 0 4) (.streamed paused) course time =
        .finished (.ok ⟨1, .epoch, Bytes.ofList [1, 2, 3, 4], false⟩)) ∧
      ∀ time time' result result',
        Capture.attend (.ofSizes 0 4) (.streamed paused) course time = .finished result →
        Capture.attend (.ofSizes 9 4) (.streamed whole) course time' = .finished result' →
        SameResult result result' := by
  intro paused whole course
  have short : ∀ size ∈ paused.announced, size ≤ 4 := by simp [paused, Stream.plain]
  have short' : ∀ size ∈ whole.announced, size ≤ 4 := by simp [whole]
  have brought : bytesBrought paused.pieces = Bytes.ofList [1, 2, 3, 4] := by decide +kernel
  have unfailing : failureBrought? paused.pieces = none := by decide +kernel
  have like : paused.Like whole := ⟨rfl, rfl, rfl, by decide +kernel, by decide +kernel⟩
  obtain ⟨outcome, ends, same, -⟩ := capture_independent_of_arrival 0 4 (s := paused) rfl short
  refine ⟨rfl, short, ?_, ?_⟩
  · have opens : ∀ name, .gate name ∈ paused.pieces → Opens course name :=
      fun name _ => ⟨1, fun t late => decide_eq_true late⟩
    obtain ⟨time, result, finished⟩ := ends course opens
    have taken : result = .ok paused.entry := by
      rcases outcome course time result finished with came | ⟨⟨t, -, off⟩, -⟩
      · cases came with
        | taken => rfl
        | tooLarge past most =>
          rw [brought] at most
          exact absurd (Nat.lt_of_lt_of_le past most) (by decide)
        | fails failure =>
          rw [unfailing] at failure
          cases failure
      · cases off
    refine ⟨time, ?_⟩
    rw [finished, taken, Stream.entry, brought]
    rfl
  · intro time time' result result'
    exact same whole 9 course course time time' result result' like rfl short' (fun _ => rfl)
      fun _ => rfl

end DurableLog
