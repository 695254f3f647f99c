import DurableLog.Log.Run

/-!
# Calls with nobody in between
-/

namespace DurableLog

namespace Call

/-- The call is made and awaited to its end. -/
def awaited (c : Call) (task : Nat) : List Event :=
  [.call c, .turn task, .turn task, .hookReturns task, .turn task]

/-- The call is made, and dropped while its hook runs. -/
def droppedInHook (c : Call) (task : Nat) : List Event :=
  [.call c, .turn task, .turn task, .abort task, .hookReturns task]

end Call

end DurableLog
