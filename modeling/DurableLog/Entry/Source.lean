import DurableLog.Entry.Basic
import DurableLog.Fault
import DurableLog.Time.WallClock

/-!
# Entries as they arrive

The replication layer hands over entries either complete or as a payload stream with some data in
front. A stream delivers its payload in pieces; between two pieces it can pause at a *gate* until
somebody opens it, and it can fail.

A piece without bytes is a read of nothing, which is how a stream ends.
-/

namespace DurableLog

/-- One piece of a payload stream. -/
inductive Piece
  | bytes (data : ByteArray)
  | fail (fault : FileFault)
  | gate (name : String)
  deriving DecidableEq

/-- A streamed entry. -/
structure Stream where
  term : Term
  timestamp : ZonedInstant
  isSnapshot : Bool
  /-- The payload size that the stream tells in advance. -/
  announced : Option Nat
  /-- The finished entry, where the sender has it at hand. -/
  reusable : Option Entry
  pieces : List Piece
  deriving DecidableEq

/-- An entry as the replication layer hands it over. -/
inductive Source
  | complete (entry : Entry)
  | streamed (stream : Stream)
  deriving DecidableEq

namespace Stream

/-- A stream that tells nothing in advance and delivers its payload in one piece. -/
def plain (term : Term) (timestamp : ZonedInstant) (payload : ByteArray) : Stream where
  term
  timestamp
  isSnapshot := false
  announced := none
  reusable := none
  pieces := [.bytes payload]

end Stream

/-- All bytes that reading the pieces to their end gives. -/
def readAll : List Piece → Except FileFault ByteArray
  | [] => .ok .empty
  | .gate _ :: rest => readAll rest
  | .fail fault :: _ => .error fault
  | .bytes data :: rest => if data.size = 0 then .ok .empty else (readAll rest).map (data ++ ·)

namespace Source

def term : Source → Term
  | complete entry => entry.term
  | streamed stream => stream.term

/-- A complete entry tells its time in UTC. -/
def timestamp : Source → ZonedInstant
  | complete entry => ⟨entry.timestamp, 0⟩
  | streamed stream => stream.timestamp

def isSnapshot : Source → Bool
  | complete entry => entry.isSnapshot
  | streamed stream => stream.isSnapshot

def announced : Source → Option Nat
  | complete entry => some entry.size
  | streamed stream => stream.announced

def reusable : Source → Option Entry
  | complete entry => some entry
  | streamed stream => stream.reusable

def payload : Source → Except FileFault ByteArray
  | complete entry => .ok entry.payload
  | streamed stream => readAll stream.pieces

end Source

end DurableLog
