import DurableLog.Disk.Content

/-!
# Reading ahead

A file is read in blocks of 8192 bytes, and small pieces are given out of the last block. A piece
of a whole block or more, wanted when nothing is left of the last one, is read directly.

What was read ahead stays as it was read, even if the file changes behind the reader's back. As
long as the file does not change, a piece is what the file holds at the reader's place
(`take_regular`).
-/

namespace DurableLog

/-- The number of bytes read ahead, and gathered before a write. -/
def blockSize : Nat := 8192

/-- The place of a reader in a file, and what it has read ahead. -/
structure ReadAhead where
  /-- Everything before this offset of the file has been read. -/
  offset : Nat
  block : ByteArray
  /-- The bytes of the block that have been given out. -/
  used : Nat

namespace ReadAhead

/-- At the beginning of a file. -/
def start : ReadAhead := ⟨0, .empty, 0⟩

/-- The offset of the next byte that is given out. -/
def place (r : ReadAhead) : Nat := r.offset - (r.block.size - r.used)

/-- The next `n` bytes, fewer only at the end of the file. -/
def take (c : Content) (r : ReadAhead) (n : Nat) : Except FileFault (ByteArray × ReadAhead) :=
  let front := Bytes.slice r.block r.used n
  let missing := n - front.size
  if missing = 0 then .ok (front, { r with used := r.used + front.size })
  else if blockSize ≤ missing then
    (c.read r.offset missing).map fun direct =>
      (front ++ direct, ⟨r.offset + direct.size, .empty, 0⟩)
  else
    (c.read r.offset blockSize).map fun block =>
      let piece := Bytes.slice block 0 missing
      (front ++ piece, ⟨r.offset + block.size, block, piece.size⟩)

/-! ## While the file stays as it is -/

/-- What was read ahead is what the file holds in front of the offset. -/
structure Agrees (b : ByteArray) (r : ReadAhead) : Prop where
  used_le : r.used ≤ r.block.size
  size_le : r.block.size ≤ r.offset
  offset_le : r.offset ≤ b.size
  block_eq : r.block = Bytes.slice b (r.offset - r.block.size) r.block.size

theorem agrees_start (b : ByteArray) : Agrees b .start :=
  ⟨Nat.le_refl _, Nat.le_refl _, Nat.zero_le _, by simp [start]⟩

/-- The part of the block that has not been given out is the file's, at the reader's place. -/
theorem Agrees.slice_block {b : ByteArray} {r : ReadAhead} (h : Agrees b r) (n : Nat) :
    Bytes.slice r.block r.used n = Bytes.slice b r.place (min n (r.block.size - r.used)) := by
  have used_le := h.used_le
  have size_le := h.size_le
  have front : r.offset - r.block.size + r.used = r.place := by unfold place; omega
  rw [Bytes.slice_min]
  conv => lhs; rw [h.block_eq]
  rw [Bytes.slice_slice _ _ _ _ _ (by rw [← h.block_eq]; omega), front, ← h.block_eq]

/-- While the file stays as it is, a piece is what the file holds at the reader's place, and the
reader moves behind it. -/
theorem take_regular {b : ByteArray} {r : ReadAhead} (h : Agrees b r) (n : Nat) :
    ∃ r' : ReadAhead, r.take (.regular b) n = .ok (Bytes.slice b r.place n, r') ∧ Agrees b r' ∧
      r'.place = r.place + (Bytes.slice b r.place n).size := by
  have used_le := h.used_le
  have size_le := h.size_le
  have offset_le := h.offset_le
  have place_eq : r.place = r.offset - (r.block.size - r.used) := rfl
  have front := h.slice_block n
  have size_front : (Bytes.slice r.block r.used n).size = min n (r.block.size - r.used) :=
    Bytes.size_slice ..
  unfold take
  simp only [size_front]
  split
  · next h0 =>
    have le : n ≤ r.block.size - r.used := by omega
    rw [front, Nat.min_eq_left le]
    refine ⟨_, rfl, ⟨by dsimp only; omega, size_le, offset_le, h.block_eq⟩, ?_⟩
    rw [Bytes.size_slice]
    unfold place at *
    dsimp only
    omega
  · next h0 =>
    have all : min n (r.block.size - r.used) = r.block.size - r.used := by omega
    have whole (k : Nat) : Bytes.slice r.block r.used n ++ Bytes.slice b r.offset k
        = Bytes.slice b r.place (r.block.size - r.used + k) := by
      have next : r.place + (r.block.size - r.used) = r.offset := by omega
      rw [front, all]
      conv => lhs; rw [← next]
      rw [Bytes.slice_append]
    rw [all]
    split
    · simp only [Content.read, Except.map, whole]
      refine ⟨_, by rw [show r.block.size - r.used + (n - (r.block.size - r.used)) = n by omega],
        ⟨Nat.le_refl _, Nat.zero_le _, ?_, by simp⟩, ?_⟩
      · simp only [Bytes.size_slice]; omega
      · simp only [place, Bytes.size_slice, ByteArray.size_empty]; omega
    · next hb =>
      have inner : Bytes.slice (Bytes.slice b r.offset blockSize) 0 (n - (r.block.size - r.used))
          = Bytes.slice b r.offset (n - (r.block.size - r.used)) := by
        rw [Bytes.slice_slice _ _ _ _ _ (by omega), Nat.add_zero]
      simp only [Content.read, Except.map, inner, whole]
      refine ⟨_, by rw [show r.block.size - r.used + (n - (r.block.size - r.used)) = n by omega],
        ⟨?_, ?_, ?_, ?_⟩, ?_⟩
      · simp only [Bytes.size_slice]; omega
      · simp only [Bytes.size_slice]; omega
      · simp only [Bytes.size_slice]; omega
      · simp only [Nat.add_sub_cancel]
        rw [Bytes.size_slice, ← Bytes.slice_min]
      · simp only [place, Bytes.size_slice]; omega

end ReadAhead

end DurableLog
