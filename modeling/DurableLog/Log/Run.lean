import DurableLog.Log.Log

/-!
# Runs of a log

A log, its surroundings and its backend change by *events*: somebody calls, a task takes a turn, a
hook returns from its helper thread, a task is dropped, a token is called off, a gate opens, time
passes. An event that is not possible changes nothing, so every list of events is a run, and the
runs are exactly the orders in which tasks can be interleaved.
-/

namespace DurableLog

/-- A log with its surroundings and the state of its backend. -/
structure World (σ : Type) where
  log : Log
  env : Surroundings
  store : σ

/-- Something that happens. -/
inductive Event
  | call (call : Call)
  | turn (task : Nat)
  | hookReturns (task : Nat)
  | abort (task : Nat)
  | cancel (token : String)
  | openGate (name : String)
  | pass (nanos : Nat)

namespace Surroundings

def cancel (s : Surroundings) (token : String) : Surroundings :=
  { s with cancelled := token :: s.cancelled }

def openGate (s : Surroundings) (name : String) : Surroundings :=
  { s with opened := name :: s.opened }

/-- Time goes on to `now`, if that lies ahead. -/
def passTo (s : Surroundings) (now : Nat) : Surroundings := { s with now := max s.now now }

end Surroundings

namespace World

variable {σ : Type}

/-- A log that starts in a recovered state. -/
def start (config : Config) (r : Replica) (store : σ) : World σ :=
  ⟨.ofReplica config r, .start, store⟩

/-- The world after a possible change of the log and its backend. -/
def moved (w : World σ) : Option (Log × σ) → World σ
  | some (log, store) => { w with log, store }
  | none => w

/-- What an event does. -/
def step (b : Backend σ) (w : World σ) : Event → World σ
  | .call c => { w with log := w.log.call w.env c }
  | .turn task => w.moved (w.log.turn? b w.env task w.store)
  | .hookReturns task => w.moved (w.log.hookReturns? b task w.store)
  | .abort task => { w with log := w.log.abort task }
  | .cancel token => { w with env := w.env.cancel token }
  | .openGate name => { w with env := w.env.openGate name }
  | .pass nanos => { w with env := w.env.passTo (w.env.now + nanos) }

/-- The world after a list of events. -/
def run (b : Backend σ) (w : World σ) (events : List Event) : World σ := events.foldl (step b) w

@[simp] theorem run_nil (b : Backend σ) (w : World σ) : w.run b [] = w := rfl

@[simp] theorem run_cons (b : Backend σ) (w : World σ) (e : Event) (events : List Event) :
    w.run b (e :: events) = (w.step b e).run b events := rfl

theorem run_append (b : Backend σ) (w : World σ) (first second : List Event) :
    w.run b (first ++ second) = (w.run b first).run b second := List.foldl_append

/-- A property that every event keeps holds at the end of every run. -/
theorem run_induction {b : Backend σ} {P : World σ → Prop}
    (step : ∀ w e, P w → P (w.step b e)) {w : World σ} (h : P w) (events : List Event) :
    P (w.run b events) := by
  induction events generalizing w with
  | nil => exact h
  | cons e rest ih => exact ih (step w e h)

end World

end DurableLog
