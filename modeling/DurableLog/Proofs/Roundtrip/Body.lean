import DurableLog.Journal.Body
import DurableLog.Limits

/-!
# The round trip of a body

A body that was written is read back, whatever follows it. The fields stand one after another, so
every statement is about a field between any front and any rest (`Decoder.Reads`), and the fields
are put together by `Reads.bind` alone.

A count of entries or bytes is written in 64 bits. It is read back when the body is not longer than
that, which is so for every body that fits into a record.
-/

namespace DurableLog

namespace Decoder

/-- The decoder reads `a` from these bytes, wherever they stand. -/
def Reads {α : Type} (d : Decoder α) (a : α) (bytes : ByteArray) : Prop :=
  ∀ front rest, d (front ++ bytes ++ rest) front.size = .ok (a, front.size + bytes.size)

variable {α β : Type}

theorem reads_pure (a : α) : Reads (Decoder.pure a) a .empty := by
  intro front rest
  rw [ByteArray.size_empty]
  rfl

theorem Reads.bind {d : Decoder α} {next : α → Decoder β} {a : α} {c : β} {x y : ByteArray}
    (h : d.Reads a x) (h' : (next a).Reads c y) : (Decoder.bind d next).Reads c (x ++ y) := by
  intro front rest
  have split : front ++ (x ++ y) ++ rest = front ++ x ++ (y ++ rest) := by
    simp only [ByteArray.append_assoc]
  have onward := h' (front ++ x) rest
  rw [ByteArray.size_append, ByteArray.append_assoc] at onward
  rw [Decoder.bind, split, h front (y ++ rest)]
  simp only
  rw [onward, ByteArray.size_append, Nat.add_assoc]

/-- The last field of several. -/
theorem Reads.last {d : Decoder α} {f : α → β} {a : α} {x : ByteArray} (h : d.Reads a x) :
    (Decoder.bind d fun a => Decoder.pure (f a)).Reads (f a) x := by
  have read : (Decoder.bind d fun a => Decoder.pure (f a)).Reads (f a) (x ++ .empty) :=
    h.bind (reads_pure (f a))
  rwa [ByteArray.append_empty] at read

/-! ## Single fields -/

theorem reads_word64 (v : UInt64) : word64.Reads v (Bytes.le64 v) := by
  intro front rest
  rw [word64, if_pos (by simp only [ByteArray.size_append, Bytes.size_le64]; omega),
    Bytes.word64At_le64, Bytes.size_le64]

theorem reads_word32 (v : UInt32) : word32.Reads v (Bytes.le32 v) := by
  intro front rest
  rw [word32, if_pos (by simp only [ByteArray.size_append, Bytes.size_le32]; omega),
    Bytes.word32At_le32, Bytes.size_le32]

theorem reads_bytes (b : ByteArray) : (bytes b.size).Reads b b := by
  intro front rest
  rw [bytes, if_pos (by simp only [ByteArray.size_append]; omega), Bytes.slice_middle]

theorem reads_byte (v : UInt8) : byte.Reads v (Bytes.ofList [v]) := by
  intro front rest
  have lt : front.size < (front ++ Bytes.ofList [v] ++ rest).size := by
    simp only [ByteArray.size_append, Bytes.size_ofList, List.length_singleton]
    omega
  have found : (front ++ Bytes.ofList [v] ++ rest)[front.size] = v := by
    rw [ByteArray.getElem_append_left (by rw [ByteArray.size_append, Bytes.size_ofList]; simp),
      ByteArray.getElem_append_right (Nat.le_refl _)]
    simp only [Nat.sub_self]
    rfl
  rw [byte, dif_pos lt, found]
  rfl

theorem reads_flag (v : Bool) : flag.Reads v (Body.flag v) := by
  cases v with
  | false =>
    have read : flag.Reads false (Bytes.ofList [0] ++ .empty) :=
      (reads_byte 0).bind (reads_pure false)
    rwa [ByteArray.append_empty] at read
  | true =>
    have read : flag.Reads true (Bytes.ofList [1] ++ .empty) :=
      (reads_byte 1).bind (reads_pure true)
    rwa [ByteArray.append_empty] at read

theorem reads_vote (v : Option Member) : vote.Reads v (Body.encodeVote v) := by
  cases v with
  | none =>
    have read : vote.Reads none (Bytes.ofList [0] ++ .empty) :=
      (reads_byte 0).bind (reads_pure none)
    rwa [ByteArray.append_empty] at read
  | some member => exact (reads_byte 1).bind (reads_word64 member.id).last

/-- Values in a row, each in its bytes. -/
theorem Reads.many {d : Decoder α} {encode : α → ByteArray} {values : List α}
    (h : ∀ a ∈ values, d.Reads a (encode a)) :
    (Decoder.many d values.length).Reads values (values.foldr (encode · ++ ·) .empty) := by
  induction values with
  | nil => exact reads_pure []
  | cons a rest ih =>
    have tail := ih fun a ha => h a (List.mem_cons_of_mem _ ha)
    exact (h a List.mem_cons_self).bind tail.last

/-! ## Entries -/

theorem reads_storedEntry {e : StoredEntry} (short : e.payload.size < UInt64.size) :
    storedEntry.Reads e (Body.encodeEntry e) := by
  have size_eq : (UInt64.ofNat e.payload.size).toNat = e.payload.size := by
    rw [UInt64.toNat_ofNat', Nat.mod_eq_of_lt short]
  have payload : (bytes (UInt64.ofNat e.payload.size).toNat).Reads e.payload e.payload := by
    rw [size_eq]
    exact reads_bytes e.payload
  have fields : Body.encodeEntry e = Bytes.le64 e.term ++ (Bytes.le64 e.secs.toUInt64 ++
      (Bytes.le32 e.nanos ++ (Bytes.le64 (.ofNat e.payload.size) ++
        (e.payload ++ Body.flag e.isSnapshot)))) := by
    simp only [Body.encodeEntry, ByteArray.append_assoc]
  rw [fields]
  refine (reads_word64 e.term).bind <| (reads_word64 e.secs.toUInt64).bind <|
    (reads_word32 e.nanos).bind <| (reads_word64 (.ofNat e.payload.size)).bind <|
    payload.bind ?_
  have last := (reads_flag e.isSnapshot).last (f := fun isSnapshot : Bool =>
    StoredEntry.mk e.term e.secs.toUInt64.toInt64 e.nanos e.payload isSnapshot)
  exact last

/-! ## Changes and records -/

end Decoder

namespace Body

/-- The entries one after another. -/
def entries (stored : List StoredEntry) : ByteArray := stored.foldr (encodeEntry · ++ ·) .empty

theorem encodeEntries_eq (front : ByteArray) (stored : List StoredEntry) :
    encodeEntries front stored = front ++ entries stored := by
  induction stored generalizing front with
  | nil => exact ByteArray.append_empty.symm
  | cons e rest ih =>
    have next : encodeEntries front (e :: rest) = encodeEntries (front ++ encodeEntry e) rest := rfl
    rw [next, ih, ByteArray.append_assoc]
    rfl

/-- A change without anything before it. -/
def fields (c : Change) : ByteArray :=
  Bytes.le32 (variant c) ++
    match c with
    | .term term vote => Bytes.le64 term ++ encodeVote vote
    | .append start stored =>
      Bytes.le64 start ++ (Bytes.le64 (.ofNat stored.length) ++ entries stored)
    | .commit index => Bytes.le64 index

theorem encodeChange_eq (front : ByteArray) (c : Change) :
    encodeChange front c = front ++ fields c := by
  cases c with
  | term term vote => simp only [encodeChange, fields, ByteArray.append_assoc]
  | append start stored =>
    simp only [encodeChange, fields, encodeEntries_eq, ByteArray.append_assoc]
  | commit index => simp only [encodeChange, fields, ByteArray.append_assoc]

end Body

theorem Record.encode_eq (r : Record) :
    r.encode = Bytes.le64 r.lsn ++ (Body.fields r.change ++ Bytes.le64 r.timestamp) := by
  rw [encode, Body.encodeChange_eq, ByteArray.append_assoc]

/-! ## Lengths -/

namespace Body

@[simp] theorem size_flag (b : Bool) : (flag b).size = 1 := by simp [flag]

@[simp] theorem size_encodeEntry (e : StoredEntry) :
    (encodeEntry e).size = 29 + e.payload.size := by
  simp only [encodeEntry, ByteArray.size_append, Bytes.size_le64, Bytes.size_le32, size_flag]
  omega

theorem length_le_size_entries (stored : List StoredEntry) :
    stored.length ≤ (entries stored).size := by
  induction stored with
  | nil => exact Nat.zero_le _
  | cons e rest ih =>
    have split : (entries (e :: rest)).size = (encodeEntry e).size + (entries rest).size :=
      ByteArray.size_append
    rw [split, size_encodeEntry, List.length_cons]
    omega

theorem payload_le_size_entries {stored : List StoredEntry} {e : StoredEntry} (h : e ∈ stored) :
    e.payload.size ≤ (entries stored).size := by
  induction stored with
  | nil => cases h
  | cons first rest ih =>
    have split : (entries (first :: rest)).size = (encodeEntry first).size + (entries rest).size :=
      ByteArray.size_append
    rw [split, size_encodeEntry]
    rcases List.mem_cons.mp h with rfl | h
    · omega
    · have := ih h
      omega

end Body

/-- Counts in the change are less than 2⁶⁴. -/
def Change.Countable : Change → Prop
  | .append _ stored =>
    stored.length < UInt64.size ∧ ∀ e ∈ stored, e.payload.size < UInt64.size
  | _ => True

theorem Body.length_le_size_fields (start : UInt64) (stored : List StoredEntry) :
    stored.length ≤ (fields (.append start stored)).size := by
  have := length_le_size_entries stored
  simp only [fields, ByteArray.size_append]
  omega

theorem Change.countable_of_size {c : Change} (h : (Body.fields c).size < UInt64.size) :
    c.Countable := by
  cases c with
  | term _ _ => trivial
  | commit _ => trivial
  | append start stored =>
    simp only [Body.fields, ByteArray.size_append] at h
    have few := Body.length_le_size_entries stored
    refine ⟨by omega, fun e he => ?_⟩
    have short := Body.payload_le_size_entries he
    omega

theorem Record.size_encode (r : Record) : r.encode.size = 16 + (Body.fields r.change).size := by
  rw [encode_eq]
  simp only [ByteArray.size_append, Bytes.size_le64]
  omega

namespace Decoder

theorem reads_change {c : Change} (countable : c.Countable) : change.Reads c (Body.fields c) := by
  cases c with
  | term term vote => exact (reads_word32 0).bind <| (reads_word64 term).bind (reads_vote vote).last
  | commit index => exact (reads_word32 2).bind (reads_word64 index).last
  | append start stored =>
    obtain ⟨few, short⟩ := countable
    have count_eq : (UInt64.ofNat stored.length).toNat = stored.length := by
      rw [UInt64.toNat_ofNat', Nat.mod_eq_of_lt few]
    have all := Reads.many fun e he => reads_storedEntry (short e he)
    rw [← count_eq] at all
    exact (reads_word32 1).bind <| (reads_word64 start).bind <|
      (reads_word64 (.ofNat stored.length)).bind all.last

theorem reads_record {r : Record} (countable : r.change.Countable) : record.Reads r r.encode := by
  rw [r.encode_eq]
  exact (reads_word64 r.lsn).bind <| (reads_change countable).bind (reads_word64 r.timestamp).last

end Decoder

/-- A body is read back, whatever follows it. -/
theorem Record.decode_encode {r : Record} (countable : r.change.Countable) (rest : ByteArray) :
    decode (r.encode ++ rest) = .ok r := by
  have read := Decoder.reads_record countable .empty rest
  rw [ByteArray.empty_append, ByteArray.size_empty] at read
  rw [decode, read]
  rfl

end DurableLog
