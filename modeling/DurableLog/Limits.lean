/-!
# Sizes of the stored format

Every fixed size in bytes. The overheads are what the limits on payloads and batches set aside
for a record's own fields; a record's real fields need no more (36 bytes for an append besides
its entries, 29 for an entry besides its payload).
-/

namespace DurableLog

/-- The header in front of every record. -/
def headerSize : Nat := 16

/-- The longest record body that is written or read. -/
def maxRecordSize : Nat := 64 * 1024 * 1024

/-- Set aside for the fields of an append besides its entries. -/
def appendOverhead : Nat := 64

/-- Set aside for the fields of an entry besides its payload. -/
def entryOverhead : Nat := 32

/-- The longest payload that is sure to fit into a record. -/
def maxEntryPayload : Nat := maxRecordSize - appendOverhead - entryOverhead

/-- What the entries of one append record may take together. -/
def recordBudget : Nat := maxRecordSize - appendOverhead

/-- The name of the log file in its directory. -/
def walFileName : String := "raft.wal"

/-- The release of the stored format and its tools. -/
def version : String := "0.1.0"

end DurableLog
