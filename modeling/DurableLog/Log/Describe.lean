import DurableLog.Log.Memory

/-!
# Describing a log

One line with the state of a log, for people who look for a fault.
-/

namespace DurableLog.Memory

/-- The term and the vote. -/
def describeBallot (m : Memory) : String :=
  "PersistentState \x7b term: " ++ toString m.term ++ ", voted_for: "
    ++ (match m.vote with
        | some member => "Some(MemberId(" ++ toString member.id ++ "))"
        | none => "None")
    ++ " \x7d"

/-- The whole state, with the name of the durability backend. -/
def describe (m : Memory) (backend : String) : String :=
  "ReplicatedLog \x7b last_index: " ++ toString m.snapshot.lastIndex ++ ", commit_index: "
    ++ toString m.commitIndex ++ ", state: " ++ m.describeBallot ++ ", durability: " ++ backend
    ++ " \x7d"

end DurableLog.Memory
