import DurableLog.Bytes.Basic
import DurableLog.Config
import DurableLog.Entry.Source

/-!
# Taking entries in

Streamed payloads are copied into memory before the log looks at them, so that it only ever holds
finished entries.

## How a payload is read

A read takes as many bytes of the current piece as there is room for. The room starts at the
announced size, or at the usual capacity, and grows by that capacity whenever it is used up, so
a read never asks for nothing and a read of nothing always means the end. A call-off is noticed
before every read. Neither the room nor the pieces show in the result.

## Termination

Every read uses up a piece or a part of one: the number of pieces falls, or the first one's
remaining bytes do (`Filling.next_lt`).
-/

namespace DurableLog

/-- How payloads are taken in: the room that is added at a time, and the largest payload. -/
structure Intake where
  capacity : Nat
  limit : Nat
  capacity_pos : 0 < capacity

/-- What the surroundings let a reader do. -/
structure Signals where
  cancelled : Bool
  opened : String → Bool

namespace Intake

/-- At least one byte of room is added at a time. -/
def ofSizes (capacity limit : Nat) : Intake := ⟨max capacity 1, limit, by omega⟩

def ofConfig (c : Config) : Intake := ofSizes c.initialCapacity c.maxPayload

def default : Intake := ofConfig Config.default

end Intake

/-- A payload that is being read. -/
structure Filling where
  stream : Stream
  /-- The pieces not used up yet. -/
  pending : List Piece
  /-- The bytes already taken of the first of them. -/
  taken : Nat
  held : ByteArray
  /-- The bytes that fit in before more room is added. -/
  room : Nat

/-- What came of trying to go on. -/
inductive Attempt (σ α : Type)
  /-- Nothing can be done before the surroundings change. -/
  | waiting (state : σ)
  | finished (result : Except Fault α)

namespace Filling

/-- The payload of `stream` before the first read. -/
def start (intake : Intake) (stream : Stream) : Filling where
  stream
  pending := stream.pieces
  taken := 0
  held := .empty
  room := stream.announced.getD (min intake.capacity intake.limit)

/-- The finished entry. -/
def entry (f : Filling) : Entry where
  term := f.stream.term
  timestamp := f.stream.timestamp.instant
  payload := f.held
  isSnapshot := f.stream.isSnapshot

/-- One step of reading. -/
inductive Next
  | blocked
  | go (filling : Filling)
  | ended (result : Except Fault Entry)

/-- The room for the next read. -/
def nextRoom (intake : Intake) (f : Filling) : Nat :=
  if f.room = 0 then intake.capacity else f.room

theorem nextRoom_pos (intake : Intake) (f : Filling) : 0 < f.nextRoom intake := by
  have := intake.capacity_pos
  unfold nextRoom
  split <;> omega

/-- One read, or one gate passed. -/
def next (intake : Intake) (signals : Signals) (f : Filling) : Next :=
  if signals.cancelled then .ended (.error .canceled)
  else match f.pending with
    | [] => .ended (.ok f.entry)
    | .gate name :: rest =>
      if signals.opened name then .go { f with pending := rest, taken := 0 } else .blocked
    | .fail fault :: _ => .ended (.error (.file fault))
    | .bytes data :: rest =>
      -- a read of nothing is the end, whatever follows
      if data.size = 0 then .ended (.ok f.entry)
      else
        let count := min (f.nextRoom intake) (data.size - f.taken)
        let held := f.held ++ Bytes.slice data f.taken count
        if intake.limit < held.size then
          .ended (.error (.payloadTooLarge (.readSoFar held.size) intake.limit))
        else if f.taken + count < data.size then
          .go { f with taken := f.taken + count, held, room := f.nextRoom intake - count }
        else
          .go { f with pending := rest, taken := 0, held, room := f.nextRoom intake - count }

/-- The bytes of the first piece. -/
def firstSize : List Piece → Nat
  | .bytes data :: _ => data.size
  | _ => 0

/-- A step that goes on leaves fewer pieces, or fewer bytes of the first one. -/
theorem next_lt {intake : Intake} {signals : Signals} {f g : Filling}
    (h : f.next intake signals = .go g) :
    Prod.Lex (· < ·) (· < ·) (g.pending.length, firstSize g.pending - g.taken)
      (f.pending.length, firstSize f.pending - f.taken) := by
  unfold next at h
  split at h
  · cases h
  · split at h
    · cases h
    · next hp =>
      split at h
      · cases h; rw [hp]; exact Prod.Lex.left _ _ (by simp)
      · cases h
    · cases h
    · next data rest hp =>
      split at h
      · cases h
      · dsimp only at h
        split at h
        · cases h
        · split at h
          · next hlt =>
            cases h
            rw [hp]
            refine Prod.Lex.right _ ?_
            have := f.nextRoom_pos intake
            simp only [firstSize]
            omega
          · cases h; rw [hp]; exact Prod.Lex.left _ _ (by simp)

/-- Reads until a closed gate or the end. -/
def run (intake : Intake) (signals : Signals) (f : Filling) : Attempt Filling Entry :=
  match _step : f.next intake signals with
  | .blocked => .waiting f
  | .ended result => .finished result
  | .go g => run intake signals g
termination_by (f.pending.length, firstSize f.pending - f.taken)
decreasing_by
  have lt := next_lt _step
  exact lt

/-- The next read would not have to wait. -/
def ready (signals : Signals) (f : Filling) : Bool :=
  signals.cancelled || match f.pending with
    | .gate name :: _ => signals.opened name
    | _ => true

end Filling

/-- A batch of entries that is being taken in, one after another. -/
structure Capture where
  finished : Array Entry
  current : Option Filling
  rest : List Source

namespace Capture

/-- A batch before its first source. -/
def start (sources : List Source) : Capture := ⟨#[], none, sources⟩

/-- The beginning of one source: a finished entry is taken as it is, whatever its size. -/
def begin (intake : Intake) (signals : Signals) (source : Source) : Attempt Filling Entry :=
  match source with
  | .complete entry => .finished (.ok entry)
  | .streamed stream =>
    match stream.reusable with
    | some entry => .finished (.ok entry)
    | none =>
      if signals.cancelled then .finished (.error .canceled)
      else match stream.announced with
        | some size =>
          if intake.limit < size then
            .finished (.error (.payloadTooLarge (.announced size) intake.limit))
          else (Filling.start intake stream).run intake signals
        | none => (Filling.start intake stream).run intake signals

/-- Goes on with the sources that have not been begun. -/
def runRest (intake : Intake) (signals : Signals) (finished : Array Entry) :
    List Source → Attempt Capture (Array Entry)
  | [] => .finished (.ok finished)
  | source :: rest =>
    match begin intake signals source with
    | .waiting filling => .waiting ⟨finished, some filling, rest⟩
    | .finished (.error fault) => .finished (.error fault)
    | .finished (.ok entry) => runRest intake signals (finished.push entry) rest

/-- Goes on until a closed gate, the end or the first fault. -/
def run (intake : Intake) (signals : Signals) (c : Capture) : Attempt Capture (Array Entry) :=
  match c.current with
  | none => runRest intake signals c.finished c.rest
  | some filling =>
    match filling.run intake signals with
    | .waiting filling => .waiting { c with current := some filling }
    | .finished (.error fault) => .finished (.error fault)
    | .finished (.ok entry) => runRest intake signals (c.finished.push entry) c.rest

/-- Going on would do something. -/
def ready (signals : Signals) (c : Capture) : Bool :=
  match c.current with
  | none => true
  | some filling => filling.ready signals

end Capture

end DurableLog
