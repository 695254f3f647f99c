import DurableLog.Bytes.Basic

/-!
# Little-endian integers

Fixed-width unsigned integers, least significant byte first. `digits` writes and `value` reads;
each is the other's inverse on its width (`value_digits`, `digits_value`).
-/

namespace DurableLog.Bytes

/-- The `w` low bytes of `n`, the least significant first. -/
def digits : (w : Nat) → Nat → List UInt8
  | 0, _ => []
  | w + 1, n => UInt8.ofNat n :: digits w (n / 256)

/-- The number whose bytes are given, the least significant first. -/
def value : List UInt8 → Nat
  | [] => 0
  | b :: rest => b.toNat + 256 * value rest

/-- How many numbers can be written in `w` bytes. -/
def capacity : (w : Nat) → Nat
  | 0 => 1
  | w + 1 => 256 * capacity w

@[simp] theorem length_digits (w n : Nat) : (digits w n).length = w := by
  induction w generalizing n with
  | zero => rfl
  | succ w ih => simp [digits, ih]

/-- Reading what was written gives the number modulo the width. -/
theorem value_digits (w n : Nat) : value (digits w n) = n % capacity w := by
  induction w generalizing n with
  | zero => simp [digits, value, capacity, Nat.mod_one]
  | succ w ih =>
    rw [digits, value, ih, capacity, Nat.mod_mul]
    simp

/-- Writing what was read gives the bytes back. -/
theorem digits_value (l : List UInt8) : digits l.length (value l) = l := by
  induction l with
  | nil => rfl
  | cons b rest ih =>
    have lt := b.toNat_lt
    have quot : (b.toNat + 256 * value rest) / 256 = value rest := by omega
    have low : UInt8.ofNat (b.toNat + 256 * value rest) = b := by
      apply UInt8.toNat_inj.mp
      simp only [UInt8.toNat_ofNat']
      omega
    simp only [List.length_cons, value, digits, quot, low, ih]

theorem value_lt (l : List UInt8) : value l < capacity l.length := by
  induction l with
  | nil => exact Nat.zero_lt_one
  | cons b rest ih =>
    have lt := b.toNat_lt
    rw [value, List.length_cons, capacity]
    omega

/-- Eight bytes. -/
def le64 (v : UInt64) : ByteArray := ofList (digits 8 v.toNat)

/-- Four bytes. -/
def le32 (v : UInt32) : ByteArray := ofList (digits 4 v.toNat)

@[simp] theorem size_le64 (v : UInt64) : (le64 v).size = 8 := by simp [le64]

@[simp] theorem size_le32 (v : UInt32) : (le32 v).size = 4 := by simp [le32]

/-- The number in the `w` bytes at offset `i`. -/
def valueAt (b : ByteArray) (i w : Nat) : Nat := value (slice b i w).data.toList

/-- The 64-bit word at offset `i`. -/
def word64At (b : ByteArray) (i : Nat) : UInt64 := UInt64.ofNat (valueAt b i 8)

/-- The 32-bit word at offset `i`. -/
def word32At (b : ByteArray) (i : Nat) : UInt32 := UInt32.ofNat (valueAt b i 4)

/-- A word is read back wherever it stands. -/
theorem word64At_le64 (front : ByteArray) (v : UInt64) (rest : ByteArray) :
    word64At (front ++ le64 v ++ rest) front.size = v := by
  have middle := slice_middle front (le64 v) rest
  rw [size_le64] at middle
  rw [word64At, valueAt, middle, le64, toList_ofList, value_digits]
  apply UInt64.toNat_inj.mp
  rw [UInt64.toNat_ofNat']
  have lt := v.toNat_lt
  simp only [capacity]
  omega

theorem word32At_le32 (front : ByteArray) (v : UInt32) (rest : ByteArray) :
    word32At (front ++ le32 v ++ rest) front.size = v := by
  have middle := slice_middle front (le32 v) rest
  rw [size_le32] at middle
  rw [word32At, valueAt, middle, le32, toList_ofList, value_digits]
  apply UInt32.toNat_inj.mp
  rw [UInt32.toNat_ofNat']
  have lt := v.toNat_lt
  simp only [capacity]
  omega

/-- Writing the number read in `w` bytes gives these bytes back. -/
theorem digits_valueAt {b : ByteArray} {i w : Nat} (h : i + w ≤ b.size) :
    ofList (digits w (valueAt b i w)) = slice b i w := by
  have length : (slice b i w).data.toList.length = w := by
    rw [length_toList, size_slice]
    omega
  have written := digits_value (slice b i w).data.toList
  rw [length] at written
  exact congrArg ofList written

theorem valueAt_lt {b : ByteArray} {i w : Nat} (h : i + w ≤ b.size) : valueAt b i w < capacity w := by
  have lt := value_lt (slice b i w).data.toList
  rwa [length_toList, size_slice, Nat.min_eq_left (by omega)] at lt

/-- A word is written as the bytes it was read from. -/
theorem le64_word64At {b : ByteArray} {i : Nat} (h : i + 8 ≤ b.size) :
    le64 (word64At b i) = slice b i 8 := by
  have lt := valueAt_lt h
  simp only [capacity] at lt
  rw [le64, word64At, UInt64.toNat_ofNat', Nat.mod_eq_of_lt (by omega), digits_valueAt h]

theorem le32_word32At {b : ByteArray} {i : Nat} (h : i + 4 ≤ b.size) :
    le32 (word32At b i) = slice b i 4 := by
  have lt := valueAt_lt h
  simp only [capacity] at lt
  rw [le32, word32At, UInt32.toNat_ofNat', Nat.mod_eq_of_lt (by omega), digits_valueAt h]

end DurableLog.Bytes
