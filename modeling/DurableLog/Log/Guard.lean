/-!
# The guard

Range reads share the guard, a write has it alone. Whoever asks gets it in the order of asking:
nobody is let in before one who waits longer, so a write is not starved by reads.

A holder or waiter is a task, known by its number.
-/

namespace DurableLog

/-- How the guard is wanted. -/
inductive Access
  | shared
  | exclusive
  deriving DecidableEq

/-- A task that holds the guard or waits for it. -/
structure Ticket where
  task : Nat
  access : Access
  deriving DecidableEq

/-- Who holds the guard, and who waits, the longest first. -/
structure Guard where
  holders : List Ticket
  waiting : List Ticket
  deriving DecidableEq

namespace Guard

/-- Nobody holds the guard. -/
def free : Guard := ⟨[], []⟩

/-- One more can be let in beside the holders. -/
def admits (holders : List Ticket) (t : Ticket) : Bool :=
  match t.access with
  | .exclusive => holders.isEmpty
  | .shared => holders.all fun h => h.access = .shared

/-- Lets in whoever waits longest, as long as there is room. -/
def letIn (holders : List Ticket) : List Ticket → Guard
  | [] => ⟨holders, []⟩
  | t :: rest => if admits holders t then letIn (holders ++ [t]) rest else ⟨holders, t :: rest⟩

def settle (g : Guard) : Guard := letIn g.holders g.waiting

/-- A task asks for the guard. -/
def request (g : Guard) (task : Nat) (access : Access) : Guard :=
  settle { g with waiting := g.waiting ++ [⟨task, access⟩] }

/-- A task gives the guard back, or stops waiting for it. -/
def release (g : Guard) (task : Nat) : Guard :=
  settle ⟨g.holders.filter (·.task ≠ task), g.waiting.filter (·.task ≠ task)⟩

/-- The task holds the guard. -/
def holds (g : Guard) (task : Nat) : Bool := g.holders.any (·.task = task)

end Guard

end DurableLog
