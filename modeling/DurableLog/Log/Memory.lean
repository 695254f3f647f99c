import DurableLog.Journal.Store
import DurableLog.Log.CommitBoard
import DurableLog.Log.Snapshot

/-!
# The log in memory

The state that callers see, and how one write changes it.

A write has two halves. `Memory.plan` looks at the state and says what has to be kept first, or
why the write is refused; `Publication.apply` makes the planned change visible. Between the two
runs the durability hook, and only if it succeeds is the second half done.
-/

namespace DurableLog

/-- The state of a log in memory. -/
structure Memory where
  snapshot : Snapshot
  commitIndex : Nat
  board : CommitBoard
  term : Term
  vote : Option Member
  deriving DecidableEq

/-- A write, its entries finished. -/
inductive Mutation
  /-- The entries go to `start`, or to the end of the log. -/
  | append (entries : Array Entry) (start : Option Nat)
  /-- Commits up to an index, or everything. -/
  | commit (last : Option Nat)
  | setTerm (term : Term)
  | nextTerm
  | vote (candidate : Member)
  deriving DecidableEq

/-- What a call is answered with. -/
inductive Reply
  | done
  | index (n : Nat)
  | count (n : Nat)
  | term (term : Term)
  | entries (entries : Array Entry)
  deriving DecidableEq

/-- A planned change. -/
inductive Publication
  | append (base : Snapshot) (start : Nat) (entries : Array Entry)
  /-- Commits the indices from `first` to `last`. -/
  | commit (first last : Nat)
  | setTerm (term : Term)
  | nextTerm
  | vote (candidate : Member)
  deriving DecidableEq

/-- What a write comes to before anything is kept. -/
inductive Plan
  | refuse (fault : Fault)
  /-- There is nothing to change. -/
  | answer (reply : Reply)
  | keep (hook : Hook) (publication : Publication)
  deriving DecidableEq

namespace Memory

/-- The memory of a log that starts in a recovered state. -/
def ofReplica (r : Replica) : Memory where
  snapshot := .ofEntries r.entries
  commitIndex := r.commitIndex
  board := .ofIndex r.commitIndex
  term := r.term
  vote := r.vote

/-- The candidate may be voted for: nobody has been, or it has. -/
def isVotedFor (m : Memory) (candidate : Member) : Bool :=
  match m.vote with
  | none => true
  | some member => member = candidate

/-- Plans a write. -/
def plan (m : Memory) : Mutation → Plan
  | .append entries none =>
    let start := m.snapshot.length
    .keep (.append start entries) (.append m.snapshot start entries)
  | .append entries (some start) =>
    if start ≤ m.commitIndex then .refuse (.invalidAppendIndex start m.commitIndex)
    else if m.snapshot.length < start then .refuse (.indexOutOfRange start m.snapshot.length)
    else .keep (.append start entries) (.append m.snapshot start entries)
  | .commit last =>
    let lastIndex := m.snapshot.lastIndex
    let target := last.getD lastIndex
    if lastIndex < target then .refuse (.indexOutOfRange target (lastIndex + 1))
    else if target < m.commitIndex + 1 then .answer (.count 0)
    else .keep (.commit target) (.commit (m.commitIndex + 1) target)
  | .setTerm term =>
    .keep (.term term (if term = m.term then m.vote else none)) (.setTerm term)
  | .nextTerm => .keep (.term (m.term + 1) none) .nextTerm
  | .vote candidate => .keep (.term m.term (some candidate)) (.vote candidate)

end Memory

/-- Makes a planned change visible. -/
def Publication.apply (m : Memory) : Publication → Memory × Reply
  | append base start entries => ({ m with snapshot := base.splice start entries }, .index start)
  | commit first last =>
    ({ m with commitIndex := last, board := m.board.publish last }, .count (last - first + 1))
  | setTerm term => ({ m with term, vote := if m.term = term then m.vote else none }, .done)
  | nextTerm => ({ m with term := m.term + 1, vote := none }, .term (m.term + 1))
  | vote candidate => ({ m with vote := some candidate }, .done)

end DurableLog
