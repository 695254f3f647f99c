import DurableLog.Fault

/-!
# Waiting for a commit

The commit index is published on a board. Whoever waits looks at the board again whenever
something changes, so nobody is woken by name and a high index may take several commits. The board
is short for a channel whose listeners know which version they have seen; that a look at the one
tells what a listener on the other finds out is shown with the proofs.

## Which answer is given

A wait that finds its index reached when it begins succeeds at once, whatever else holds. From
then on a call-off comes first, success second, and the end of the time last. A timer with some time
ends at a whole millisecond. A timer with no time at all has ended when it is first looked at, and
its end is not brought up to a whole millisecond before that.
-/

namespace DurableLog

/-- What a task can see of the world around the log. -/
structure Surroundings where
  /-- Nanoseconds since the beginning. -/
  now : Nat
  /-- The tokens that have been called off. -/
  cancelled : List String
  /-- The gates that are open. -/
  opened : List String
  deriving DecidableEq

namespace Surroundings

def start : Surroundings := ⟨0, [], []⟩

/-- The token has been called off; no token never is. -/
def isCancelled (s : Surroundings) (token : Option String) : Bool :=
  match token with
  | some name => s.cancelled.contains name
  | none => false

end Surroundings

/-- The published commit index, and how many wait for a higher one. -/
structure CommitBoard where
  published : Nat
  waiting : Nat
  deriving DecidableEq

namespace CommitBoard

def ofIndex (index : Nat) : CommitBoard := ⟨index, 0⟩

def publish (b : CommitBoard) (index : Nat) : CommitBoard := { b with published := index }

/-- One more waits. -/
def join (b : CommitBoard) : CommitBoard := { b with waiting := b.waiting + 1 }

/-- One less waits. -/
def leave (b : CommitBoard) : CommitBoard := { b with waiting := b.waiting - 1 }

end CommitBoard

/-- The time in nanoseconds, brought up to a whole millisecond. -/
def wholeMillis (nanos : Nat) : Nat := (nanos + 999999) / 1000000 * 1000000

/-- A wait that has begun. -/
structure CommitWait where
  target : Nat
  time : Duration
  /-- When the time ends. -/
  deadline : Nat
  token : Option String
  deriving DecidableEq

namespace CommitWait

def start (s : Surroundings) (target : Nat) (time : Duration) (token : Option String) :
    CommitWait :=
  ⟨target, time, wholeMillis (s.now + time.toNanos), token⟩

/-- The time has ended. A wait with no time at all is over when it is first polled, without a look
at the clock. -/
def Expired (w : CommitWait) (s : Surroundings) : Prop := w.time.toNanos = 0 ∨ w.deadline ≤ s.now

instance (w : CommitWait) (s : Surroundings) : Decidable (w.Expired s) :=
  inferInstanceAs (Decidable (_ ∨ _))

/-- The answer to a wait that is under way, if there is one. -/
def answer? (w : CommitWait) (s : Surroundings) (published : Nat) : Option (Except Fault Unit) :=
  -- the order of these tests is the order of preference
  if s.isCancelled w.token then some (.error .canceled)
  else if w.target ≤ published then some (.ok ())
  else if w.Expired s then some (.error (.timeout w.target w.time))
  else none

/-- The answer to a wait that begins. -/
def firstAnswer? (w : CommitWait) (s : Surroundings) (published : Nat) :
    Option (Except Fault Unit) :=
  if w.target ≤ published then some (.ok ()) else w.answer? s published

end CommitWait

end DurableLog
