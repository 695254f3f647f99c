import DurableLog.Fault

/-!
# Settings

Where a log lives, how often it is flushed to the medium, and how large a payload may be.
-/

namespace DurableLog

/-- When written records are flushed to the medium. -/
inductive SyncPolicy
  | everyWrite
  | everyRecords (count : Nat)
  deriving DecidableEq

/-- A flush is due once so many written records have not been flushed. -/
def SyncPolicy.due : SyncPolicy → (unsynced : Nat) → Bool
  | everyWrite, _ => true
  | everyRecords count, unsynced => decide (count ≤ unsynced)

/-- The settings of a log. -/
structure Config where
  dataDir : Option String
  sync : SyncPolicy
  initialCapacity : Nat
  maxPayload : Nat
  deriving DecidableEq

namespace Config

/-- The usual room for a payload whose length is not announced. -/
def defaultCapacity : Nat := 1024

/-- In memory, flushed at every write, payloads of up to 16 MiB. -/
def default : Config where
  dataDir := none
  sync := .everyWrite
  initialCapacity := defaultCapacity
  maxPayload := 16 * 1024 * 1024

/-- What is wrong with the settings, if anything; the first fault in this order is told. -/
def fault? (c : Config) : Option SettingsFault :=
  if c.initialCapacity = 0 then some .noCapacity
  else if c.maxPayload < c.initialCapacity then
    some (.capacityAboveLimit c.initialCapacity c.maxPayload)
  else if maxEntryPayload < c.maxPayload then some (.limitAboveRecord c.maxPayload)
  else if c.sync = .everyRecords 0 then some .noSyncCount
  else none

/-- Nothing is wrong with the settings. -/
def Valid (c : Config) : Prop :=
  0 < c.initialCapacity ∧ c.initialCapacity ≤ c.maxPayload ∧ c.maxPayload ≤ maxEntryPayload ∧
    c.sync ≠ .everyRecords 0

theorem fault?_eq_none_iff (c : Config) : c.fault? = none ↔ c.Valid := by
  unfold fault? Valid
  constructor
  · intro h
    split at h
    · simp at h
    · split at h
      · simp at h
      · split at h
        · simp at h
        · split at h
          · simp at h
          · exact ⟨by omega, by omega, by omega, by assumption⟩
  · rintro ⟨h1, h2, h3, h4⟩
    rw [if_neg (by omega), if_neg (by omega), if_neg (by omega), if_neg h4]

end Config

end DurableLog
