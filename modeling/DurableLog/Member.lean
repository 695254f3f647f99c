/-!
# Members and terms

A member of the cluster is known by its number. A term is a 64-bit election number.
-/

namespace DurableLog

/-- An election number. -/
abbrev Term := UInt64

/-- A cluster member. -/
structure Member where
  id : UInt64
  deriving DecidableEq

namespace Member

/-- The name by which a member is shown. -/
def text (m : Member) : String := "member-" ++ toString m.id

instance : Ord Member := ⟨fun a b => compare a.id b.id⟩

end Member

end DurableLog
