import DurableLog.Log.Memory

/-!
# Durability backends

A backend is told of every change before it becomes visible, and can refuse it. A *blocking* one
does its work on a helper thread while the caller waits.
-/

namespace DurableLog

/-- How a hook ended. -/
inductive HookResult
  | kept
  | failed (fault : Fault)
  /-- It stopped in the middle. -/
  | panicked
  deriving DecidableEq

namespace HookResult

def ofExcept : Except Fault Unit → HookResult
  | .ok () => kept
  | .error fault => failed fault

end HookResult

/-- What comes of a planned change once its hook has ended: only a kept change becomes visible. -/
def Publication.outcome (m : Memory) (p : Publication) : HookResult → Except Fault Reply × Memory
  | .kept =>
    match p.apply m with
    | (m, reply) => (.ok reply, m)
  | .failed fault => (.error fault, m)
  | .panicked => (.error .hookPanicked, m)

/-- A durability backend with state `σ`. -/
structure Backend (σ : Type) where
  blocking : Bool
  keep : Hook → σ → HookResult × σ

namespace Backend

/-- Keeps nothing and never fails. -/
def volatile (σ : Type) : Backend σ := ⟨false, fun _ s => (.kept, s)⟩

/-- Keeps everything in a journal on a disk; `stamps` tells when the record with a number is
made. -/
def ofJournal (stamps : UInt64 → UInt64) : Backend (Journal × Disk) where
  blocking := true
  keep := fun hook (j, d) =>
    match j.keep stamps d hook with
    | (result, j, d) => (.ofExcept result, j, d)

/-- A write from plan to answer, with nobody else around. -/
def perform {σ : Type} (b : Backend σ) (mutation : Mutation) (m : Memory) (s : σ) :
    Except Fault Reply × Memory × σ :=
  match m.plan mutation with
  | .refuse fault => (.error fault, m, s)
  | .answer reply => (.ok reply, m, s)
  | .keep hook publication =>
    match b.keep hook s with
    | (result, s) =>
      match publication.outcome m result with
      | (reply, m) => (reply, m, s)

end Backend

end DurableLog
