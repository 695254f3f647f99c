import DurableLog.Bytes.Basic

/-!
# CRC-32 (IEEE 802.3)

The checksum of a record's body: reflected polynomial `0xEDB88320`, register preset to all ones,
result complemented.

`ofList` is the definition, one bit at a time. `ofBytes` computes it a byte at a time from a
table of the 256 single-byte remainders, and is the same function (`ofBytes_eq`).

## Why a table will do

A shift is linear in exclusive or (`bitStep_xor`), and one of a register whose low bit is clear
only moves it down. So eight shifts of a register are those of its low byte and, beside them, the
other bytes moved down by one place (`shifted_eight`).
-/

namespace DurableLog.Crc32

/-- The register after one bit has been shifted out. -/
def bitStep (c : UInt32) : UInt32 :=
  if c &&& 1 = 0 then c >>> 1 else (c >>> 1) ^^^ 0xEDB88320

/-- `bitStep` by the register's lowest bit. -/
theorem toBitVec_bitStep (c : UInt32) :
    (bitStep c).toBitVec
      = (c.toBitVec >>> 1) ^^^ (if c.toBitVec.getLsbD 0 then 0xEDB88320#32 else 0#32) := by
  have low : c &&& 1 = 0 ↔ c.toBitVec.getLsbD 0 = false := by
    rw [← UInt32.toBitVec_inj, UInt32.toBitVec_and]
    have one : (1 : UInt32).toBitVec = 1#32 := rfl
    rw [one, BitVec.and_one_eq_setWidth_ofBool_getLsbD]
    cases c.toBitVec.getLsbD 0 <;> decide
  unfold bitStep
  split
  · next h => rw [low.mp h]; simp
  · next h =>
    have set : c.toBitVec.getLsbD 0 = true := by
      cases hb : c.toBitVec.getLsbD 0
      · exact absurd (low.mpr hb) h
      · rfl
    rw [set]; simp

/-- A shift is linear in exclusive or. -/
theorem bitStep_xor (a b : UInt32) : bitStep (a ^^^ b) = bitStep a ^^^ bitStep b := by
  apply UInt32.toBitVec_inj.mp
  simp only [toBitVec_bitStep, UInt32.toBitVec_xor, BitVec.getLsbD_xor,
    BitVec.ushiftRight_xor_distrib]
  ext i
  cases a.toBitVec.getLsbD 0 <;> cases b.toBitVec.getLsbD 0 <;> simp <;> grind

/-- The register after `n` bits have been shifted out. -/
def shifted : Nat → UInt32 → UInt32
  | 0, c => c
  | n + 1, c => shifted n (bitStep c)

theorem shifted_xor (n : Nat) (a b : UInt32) :
    shifted n (a ^^^ b) = shifted n a ^^^ shifted n b := by
  induction n generalizing a b with
  | zero => rfl
  | succ n ih => rw [shifted, shifted, shifted, bitStep_xor, ih]

/-- The register after one byte has been taken in. -/
def byteStep (c : UInt32) (b : UInt8) : UInt32 := shifted 8 (c ^^^ b.toUInt32)

/-- The checksum of a list of bytes. -/
def ofList (bytes : List UInt8) : UInt32 := bytes.foldl byteStep 0xFFFFFFFF ^^^ 0xFFFFFFFF

/-- What eight shifts leave of each single byte. -/
def table : Vector UInt32 256 := Vector.ofFn fun i => shifted 8 (UInt32.ofNat i.val)

/-- One byte, by table. -/
def tableStep (c : UInt32) (b : UInt8) : UInt32 :=
  (c >>> 8) ^^^ table.get ⟨(c.toUInt8 ^^^ b).toNat, UInt8.toNat_lt _⟩

/-- The checksum of a byte string. -/
def ofBytes (bytes : ByteArray) : UInt32 := bytes.foldl tableStep 0xFFFFFFFF ^^^ 0xFFFFFFFF

/-! ## By table is the same -/

/-- A register whose low bits are clear only moves down. -/
theorem toBitVec_shifted_of_clear {n : Nat} {c : UInt32}
    (h : ∀ i < n, c.toBitVec.getLsbD i = false) :
    (shifted n c).toBitVec = c.toBitVec >>> n := by
  induction n generalizing c with
  | zero => simp [shifted]
  | succ n ih =>
    have step : (bitStep c).toBitVec = c.toBitVec >>> 1 := by
      rw [toBitVec_bitStep, h 0 (by omega)]; simp
    have clear : ∀ i < n, (bitStep c).toBitVec.getLsbD i = false := by
      intro i hi
      rw [step]
      simpa [Nat.add_comm] using h (i + 1) (by omega)
    rw [shifted, ih clear, step, ← BitVec.shiftRight_add, Nat.add_comm]

/-- Eight shifts of a register: those of its low byte, and the other bytes one place down. -/
theorem shifted_eight (x : UInt32) : shifted 8 x = (x >>> 8) ^^^ shifted 8 (x &&& 255) := by
  have split : x = (x &&& ~~~255) ^^^ (x &&& 255) := by
    apply UInt32.toBitVec_inj.mp
    simp only [UInt32.toBitVec_xor, UInt32.toBitVec_and, UInt32.toBitVec_not]
    ext i
    simp only [BitVec.getElem_xor, BitVec.getElem_and, BitVec.getElem_not]
    cases x.toBitVec[i] <;> cases (255 : UInt32).toBitVec[i] <;> rfl
  have bit (i : Nat) : (255 : UInt32).toBitVec.getLsbD i = decide (i < 8) := by
    have : (255 : UInt32).toBitVec = 255#32 := rfl
    rw [this, BitVec.getLsbD_ofNat, show (255 : Nat) = 2 ^ 8 - 1 from rfl,
      Nat.testBit_two_pow_sub_one]
    by_cases h : i < 8 <;> simp [h]; omega
  have high : shifted 8 (x &&& ~~~255) = x >>> 8 := by
    apply UInt32.toBitVec_inj.mp
    rw [toBitVec_shifted_of_clear]
    · apply BitVec.eq_of_getLsbD_eq
      intro i _
      rw [UInt32.toBitVec_shiftRight, UInt32.toBitVec_and, UInt32.toBitVec_not]
      have eight : (UInt32.toBitVec 8 % 32).toNat = 8 := rfl
      simp only [BitVec.getLsbD_ushiftRight, BitVec.getLsbD_and, BitVec.getLsbD_not, bit,
        BitVec.ushiftRight_eq', eight]
      by_cases h : 8 + i < 32
      · simp [h]
      · simp [BitVec.getLsbD_of_ge _ _ (by omega : 32 ≤ 8 + i)]
    · intro i hi
      simp only [UInt32.toBitVec_and, UInt32.toBitVec_not, BitVec.getLsbD_and, BitVec.getLsbD_not,
        bit]
      simp [hi]
  conv => lhs; rw [split, shifted_xor, high]

/-- The low byte of a register that a byte has been added to. -/
theorem xor_and_255 (c : UInt32) (b : UInt8) :
    (c ^^^ b.toUInt32) &&& 255 = UInt32.ofNat (c.toUInt8 ^^^ b).toNat := by
  apply UInt32.toNat_inj.mp
  have lt := (c.toUInt8 ^^^ b).toNat_lt
  have low : (255 : Nat) = 2 ^ 8 - 1 := rfl
  have hb : b.toNat % 2 ^ 8 = b.toNat := Nat.mod_eq_of_lt b.toNat_lt
  rw [UInt32.toNat_ofNat', Nat.mod_eq_of_lt (by omega), UInt8.toNat_xor, UInt32.toNat_toUInt8]
  simp only [UInt32.toNat_and, UInt32.toNat_xor, UInt8.toNat_toUInt32, UInt32.reduceToNat]
  rw [low, Nat.and_two_pow_sub_one_eq_mod, Nat.xor_mod_two_pow, hb]

theorem xor_shiftRight_8 (c : UInt32) (b : UInt8) : (c ^^^ b.toUInt32) >>> 8 = c >>> 8 := by
  have hb : b.toUInt32 >>> 8 = 0 := by
    apply UInt32.toNat_inj.mp
    have := b.toNat_lt
    simp [Nat.shiftRight_eq_div_pow]
    omega
  rw [UInt32.shiftRight_xor, hb, UInt32.xor_zero]

/-- The table gives the same register as the bits one at a time. -/
theorem tableStep_eq (c : UInt32) (b : UInt8) : tableStep c b = byteStep c b := by
  have entry (i : Fin 256) : table.get i = shifted 8 (UInt32.ofNat i.val) := by
    have get : table.get i = table[i.val] := rfl
    rw [get, table, Vector.getElem_ofFn]
  rw [tableStep, byteStep, shifted_eight, xor_shiftRight_8, xor_and_255, entry]

/-- The table computes the checksum. -/
theorem ofBytes_eq (b : ByteArray) : ofBytes b = ofList b.data.toList := by
  have steps : tableStep = byteStep := by
    funext c x
    exact tableStep_eq c x
  rw [ofBytes, ofList, steps, Bytes.foldl_eq]

end DurableLog.Crc32
