import DurableLog.Bytes.LittleEndian
import DurableLog.Journal.Record

/-!
# The body of a record

Fields one after another without gaps: integers little-endian and of fixed width, a choice by its
number in four bytes, an optional value behind a byte 0 or 1, a sequence behind its length in
eight bytes.

## Reading

A decoder reads at an offset and gives the value with the offset behind it. It never looks past
the end: whatever length the bytes announce, a field that does not fit is an unexpected end.
-/

namespace DurableLog

/-! ## Writing -/

namespace Body

/-- A yes or no. -/
def flag (b : Bool) : ByteArray := Bytes.ofList [if b then 1 else 0]

/-- A number in four bytes that tells which change follows. -/
def variant : Change → UInt32
  | .term .. => 0
  | .append .. => 1
  | .commit .. => 2

def encodeVote : Option Member → ByteArray
  | none => flag false
  | some member => flag true ++ Bytes.le64 member.id

def encodeEntry (e : StoredEntry) : ByteArray :=
  Bytes.le64 e.term ++ Bytes.le64 e.secs.toUInt64 ++ Bytes.le32 e.nanos
    ++ Bytes.le64 (UInt64.ofNat e.payload.size) ++ e.payload ++ flag e.isSnapshot

/-- The entries one after another behind `front`. -/
def encodeEntries (front : ByteArray) (entries : List StoredEntry) : ByteArray :=
  entries.foldl (fun bytes e => bytes ++ encodeEntry e) front

/-- A change behind `front`. -/
def encodeChange (front : ByteArray) (c : Change) : ByteArray :=
  let front := front ++ Bytes.le32 (variant c)
  match c with
  | .term term vote => front ++ Bytes.le64 term ++ encodeVote vote
  | .append start entries =>
    encodeEntries (front ++ Bytes.le64 start ++ Bytes.le64 (UInt64.ofNat entries.length)) entries
  | .commit index => front ++ Bytes.le64 index

end Body

/-- The body of a record. -/
def Record.encode (r : Record) : ByteArray :=
  Body.encodeChange (Bytes.le64 r.lsn) r.change ++ Bytes.le64 r.timestamp

/-! ## Reading -/

/-- Reads a value at an offset; gives it with the offset behind it. -/
def Decoder (α : Type) : Type := ByteArray → Nat → Except BodyFault (α × Nat)

namespace Decoder

/-- Gives `a` and reads nothing. -/
def pure {α : Type} (a : α) : Decoder α := fun _ i => .ok (a, i)

/-- Gives a fault. -/
def fail {α : Type} (fault : BodyFault) : Decoder α := fun _ _ => .error fault

/-- One decoder after another. -/
def bind {α β : Type} (d : Decoder α) (next : α → Decoder β) : Decoder β := fun b i =>
  match d b i with
  | .ok (a, j) => next a b j
  | .error fault => .error fault

instance : Monad Decoder where
  pure := pure
  bind := bind

/-- The next `n` bytes. -/
def bytes (n : Nat) : Decoder ByteArray := fun b i =>
  if i + n ≤ b.size then .ok (Bytes.slice b i n, i + n) else .error .unexpectedEnd

def byte : Decoder UInt8 := fun b i =>
  if h : i < b.size then .ok (b[i], i + 1) else .error .unexpectedEnd

def word32 : Decoder UInt32 := fun b i =>
  if i + 4 ≤ b.size then .ok (Bytes.word32At b i, i + 4) else .error .unexpectedEnd

def word64 : Decoder UInt64 := fun b i =>
  if i + 8 ≤ b.size then .ok (Bytes.word64At b i, i + 8) else .error .unexpectedEnd

/-- `n` values in a row. -/
def many {α : Type} (d : Decoder α) : Nat → Decoder (List α)
  | 0 => pure []
  | n + 1 => bind d fun a => bind (many d n) fun rest => pure (a :: rest)

/-- A yes or no. -/
def flag : Decoder Bool := do
  match ← byte with
  | 0 => pure false
  | 1 => pure true
  | other => fail (.badFlag other.toNat)

def vote : Decoder (Option Member) := do
  match ← byte with
  | 0 => pure none
  | 1 => do
    let id ← word64
    pure (some ⟨id⟩)
  | other => fail (.badOptionTag other.toNat)

def storedEntry : Decoder StoredEntry := do
  let term ← word64
  let secs ← word64
  let nanos ← word32
  let size ← word64
  let payload ← bytes size.toNat
  let isSnapshot ← flag
  pure ⟨term, secs.toInt64, nanos, payload, isSnapshot⟩

def change : Decoder Change := do
  match ← word32 with
  | 0 => do
    let term ← word64
    let vote ← vote
    pure (.term term vote)
  | 1 => do
    let start ← word64
    let count ← word64
    let entries ← many storedEntry count.toNat
    pure (.append start entries)
  | 2 => do
    let index ← word64
    pure (.commit index)
  | other => fail (.unknownVariant other.toNat)

def record : Decoder Record := do
  let lsn ← word64
  let change ← change
  let timestamp ← word64
  pure ⟨lsn, change, timestamp⟩

end Decoder

/-- The record at the beginning of a body; bytes left over are ignored. -/
def Record.decode (body : ByteArray) : Except BodyFault Record :=
  (Decoder.record body 0).map Prod.fst

end DurableLog
