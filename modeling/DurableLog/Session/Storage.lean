import DurableLog.Log.Backend

/-!
# The backends of a session

The logs of a session keep their changes in a journal on the session's disk, with a recorder, or
nowhere. A *recorder* remembers what it was told, can be set to refuse calls, and can hold calls
on entry until it is let go on.
-/

namespace DurableLog.Session

/-- The kinds of hooks. -/
inductive HookKind
  | term
  | append
  | commit
  | sync
  deriving DecidableEq

/-- The kind of a hook. -/
def HookKind.of : Hook → HookKind
  | .term .. => .term
  | .append .. => .append
  | .commit _ => .commit
  | .sync => .sync

/-- Which calls a recorder refuses. -/
structure FailurePlan where
  /-- Calls of this kind, or all. -/
  kind : Option HookKind
  /-- The fault told, or none to stop in the middle. -/
  fault : Option Fault
  /-- So many more calls, or all that come. -/
  times : Option Nat

namespace FailurePlan

/-- The plan refuses the next call of a kind. -/
def matchesKind (p : FailurePlan) (kind : HookKind) : Bool :=
  (p.kind.isNone || p.kind = some kind) && p.times ≠ some 0

/-- The plan after one refusal. -/
def used (p : FailurePlan) : FailurePlan := { p with times := p.times.map (· - 1) }

def result (p : FailurePlan) : HookResult :=
  match p.fault with
  | some fault => .failed fault
  | none => .panicked

end FailurePlan

/-- A backend that remembers what it was told. -/
structure Recorder where
  blocking : Bool
  /-- The calls that succeeded and have not been looked at. -/
  calls : Array Hook
  plan : Option FailurePlan
  /-- Calls stop on entry. -/
  holding : Bool

namespace Recorder

def new (blocking : Bool) : Recorder := ⟨blocking, #[], none, false⟩

/-- Remembers the call, or refuses it. -/
def keep (r : Recorder) (hook : Hook) : HookResult × Recorder :=
  let record : HookResult × Recorder := (.kept, { r with calls := r.calls.push hook })
  match r.plan with
  | none => record
  | some plan =>
    if plan.matchesKind (.of hook) then (plan.result, { r with plan := some plan.used })
    else record

end Recorder

/-- Everything that lasts beyond a log. -/
structure Storage where
  disk : Disk
  recorders : Array Recorder
  journals : Array Journal

/-- Where a log keeps its changes. -/
inductive Keeper
  | nowhere
  | recorder (number : Nat)
  | journal (number : Nat)
  deriving DecidableEq

/-- The times of writing are not told by a session. -/
def noStamps : UInt64 → UInt64 := fun _ => 0

namespace Keeper

/-- The backend of a log that keeps its changes so. -/
def backend (k : Keeper) (s : Storage) : Backend Storage :=
  match k with
  | nowhere => .volatile Storage
  | recorder number =>
    { blocking := (s.recorders[number]?.map Recorder.blocking).getD true
      keep := fun hook s =>
        match s.recorders[number]? with
        | none => (.kept, s)
        | some r =>
          match r.keep hook with
          | (result, r) => (result, { s with recorders := s.recorders.setIfInBounds number r }) }
  | journal number =>
    { blocking := true
      keep := fun hook s =>
        match s.journals[number]? with
        | none => (.kept, s)
        | some j =>
          match (Backend.ofJournal noStamps).keep hook (j, s.disk) with
          | (result, j, disk) =>
            (result, { s with disk, journals := s.journals.setIfInBounds number j }) }

/-- Calls of the backend stop on entry. -/
def isHolding (k : Keeper) (s : Storage) : Bool :=
  match k with
  | recorder number => (s.recorders[number]?.map fun r => r.blocking && r.holding).getD false
  | _ => false

end Keeper

end DurableLog.Session
