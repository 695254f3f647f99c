import DurableLog.Proofs.Roundtrip.Canonical

/-!
# Small damage is noticed

A frame that is damaged in one of three places is never accepted, whatever the damage:

* in the number in its header: the record in the body still has its own;
* in the checksum in its header: the body still has the one it was written with;
* in four bytes in a row of its body: the body then has another checksum.

## Why four bytes are always noticed

A shift of the register loses nothing, because the polynomial sets the highest bit and so tells
that it was added (`bitStep_injective`). So registers that differ go on to differ. As many bytes as
the register has are taken in like the one number they spell (`foldl_byteStep`): from one register,
two such numbers lead to registers that differ.
-/

namespace DurableLog

/-! ## The checksum -/

namespace Crc32

/-- The highest bit of the polynomial is set, so a register that is shifted to zero was zero. -/
theorem eq_zero_of_bitStep {c : UInt32} (h : bitStep c = 0) : c = 0 := by
  have bits := congrArg UInt32.toBitVec h
  rw [toBitVec_bitStep] at bits
  have low : c.toBitVec.getLsbD 0 = false := by
    cases set : c.toBitVec.getLsbD 0 with
    | false => rfl
    | true =>
      rw [set, if_pos rfl] at bits
      have top := congrArg (BitVec.getLsbD · 31) bits
      simp at top
  rw [low] at bits
  apply UInt32.toBitVec_inj.mp
  apply BitVec.eq_of_getLsbD_eq
  intro i _
  cases i with
  | zero => simpa using low
  | succ i =>
    have moved := congrArg (BitVec.getLsbD · i) bits
    simpa [Nat.add_comm] using moved

theorem bitStep_injective : Function.Injective bitStep := by
  intro a b same
  have zero : bitStep (a ^^^ b) = 0 := by rw [bitStep_xor, same, UInt32.xor_self]
  exact UInt32.xor_eq_zero_iff.mp (eq_zero_of_bitStep zero)

theorem shifted_injective (n : Nat) : Function.Injective (shifted n) := by
  induction n with
  | zero => exact fun _ _ same => same
  | succ n ih => exact fun _ _ same => bitStep_injective (ih same)

theorem shifted_add (m n : Nat) (c : UInt32) : shifted (m + n) c = shifted n (shifted m c) := by
  induction m generalizing c with
  | zero => rw [Nat.zero_add, shifted]
  | succ m ih => rw [Nat.succ_add, shifted, shifted, ih]

/-- Registers that differ go on to differ. -/
theorem foldl_byteStep_injective (bytes : List UInt8) :
    Function.Injective fun c => bytes.foldl byteStep c := by
  induction bytes with
  | nil => exact fun _ _ same => same
  | cons b rest ih =>
    intro c c' same
    have shifts : byteStep c b = byteStep c' b := ih same
    exact (UInt32.xor_left_inj _).mp (shifted_injective 8 shifts)

/-! ### As many bytes as the register has -/

/-- The number that bytes spell, the least significant first. -/
def word (bytes : List UInt8) : UInt32 := UInt32.ofNat (Bytes.value bytes)

theorem toNat_word {bytes : List UInt8} (short : bytes.length ≤ 4) :
    (word bytes).toNat = Bytes.value bytes := by
  have room : ∀ n ≤ 4, Bytes.capacity n ≤ 4294967296 := by decide
  have lt := Bytes.value_lt bytes
  have capacity := room bytes.length short
  rw [word, UInt32.toNat_ofNat', Nat.mod_eq_of_lt]
  omega

/-- Eight shifts take in the first byte and leave the others to be added. -/
theorem shifted_word_cons (c : UInt32) (b : UInt8) {rest : List UInt8} (short : rest.length ≤ 3) :
    shifted 8 (c ^^^ word (b :: rest)) = byteStep c b ^^^ word rest := by
  have byte := b.toNat_lt
  have whole : (word (b :: rest)).toNat = b.toNat + 256 * Bytes.value rest :=
    toNat_word (Nat.succ_le_succ short)
  have others : word (b :: rest) >>> 8 = word rest := by
    apply UInt32.toNat_inj.mp
    rw [UInt32.toNat_shiftRight, whole, toNat_word (by omega)]
    simp only [UInt32.reduceToNat, Nat.reduceMod, Nat.shiftRight_eq_div_pow]
    omega
  have first : word (b :: rest) &&& 255 = b.toUInt32 := by
    apply UInt32.toNat_inj.mp
    rw [UInt32.toNat_and, whole, UInt8.toNat_toUInt32]
    have low : (255 : UInt32).toNat = 2 ^ 8 - 1 := rfl
    rw [low, Nat.and_two_pow_sub_one_eq_mod]
    omega
  rw [shifted_xor, shifted_eight (word (b :: rest)), others, first, byteStep, shifted_xor,
    UInt32.xor_comm (word rest), UInt32.xor_assoc]

/-- Up to four bytes are taken in like the number that they spell. -/
theorem foldl_byteStep (c : UInt32) {bytes : List UInt8} (short : bytes.length ≤ 4) :
    bytes.foldl byteStep c = shifted (8 * bytes.length) (c ^^^ word bytes) := by
  induction bytes generalizing c with
  | nil => exact (UInt32.xor_zero).symm
  | cons b rest ih =>
    have short' : rest.length ≤ 3 := Nat.le_of_succ_le_succ short
    have eight : 8 * (b :: rest).length = 8 + 8 * rest.length := by
      rw [List.length_cons]
      omega
    rw [List.foldl_cons, ih _ (by omega), eight, shifted_add, shifted_word_cons c b short']

/-- From one register, different bytes lead to different registers. -/
theorem eq_of_foldl_byteStep {c : UInt32} {x y : List UInt8} (short : x.length ≤ 4)
    (length : y.length = x.length) (same : x.foldl byteStep c = y.foldl byteStep c) : x = y := by
  rw [foldl_byteStep c short, foldl_byteStep c (by omega), length] at same
  have words := (UInt32.xor_right_inj c).mp (shifted_injective _ same)
  have values : Bytes.value x = Bytes.value y := by
    rw [← toNat_word short, words, toNat_word (by omega)]
  rw [← Bytes.digits_value x, ← Bytes.digits_value y, values, length]

/-- Bytes that differ only among four in a row have different checksums. -/
theorem ofList_ne {l l' : List UInt8} {i : Nat} (length : l'.length = l.length) (differ : l' ≠ l)
    (outside : ∀ k, k < i ∨ i + 4 ≤ k → l'[k]? = l[k]?) : ofList l' ≠ ofList l := by
  have front : l'.take i = l.take i := by
    apply List.ext_getElem?
    intro k
    rw [List.getElem?_take, List.getElem?_take]
    split
    · next before => exact outside k (.inl before)
    · rfl
  have back : (l'.drop i).drop 4 = (l.drop i).drop 4 := by
    apply List.ext_getElem?
    intro k
    rw [List.drop_drop, List.drop_drop, List.getElem?_drop, List.getElem?_drop]
    exact outside _ (.inr (Nat.le_add_right _ _))
  have parts (l : List UInt8) : l.take i ++ ((l.drop i).take 4 ++ (l.drop i).drop 4) = l := by
    rw [List.take_append_drop, List.take_append_drop]
  intro same
  have registers := (UInt32.xor_left_inj _).mp same
  rw [← parts l', ← parts l, front, back] at registers
  simp only [List.foldl_append] at registers
  have middle := eq_of_foldl_byteStep (List.length_take_le _ _) (by simp [length])
    (foldl_byteStep_injective _ registers)
  exact differ (by rw [← parts l', ← parts l, front, middle, back])

end Crc32

/-! ## Bytes that differ in one place -/

namespace Bytes

theorem getElem?_slice (b : ByteArray) (i n k : Nat) :
    (slice b i n).data[k]? = if k < n then b.data[i + k]? else none := by
  rw [← Array.getElem?_toList, toList_slice, List.getElem?_take, List.getElem?_drop,
    Array.getElem?_toList]

/-- Two byte strings of one length that differ, and only among the `n` bytes from `i` on. -/
structure DifferWithin (b b' : ByteArray) (i n : Nat) : Prop where
  size : b'.size = b.size
  differ : b' ≠ b
  outside : ∀ k, k < i ∨ i + n ≤ k → b'.data[k]? = b.data[k]?

namespace DifferWithin

variable {b b' : ByteArray} {i n j m : Nat}

/-- What lies elsewhere is the same. -/
theorem slice_eq (h : DifferWithin b b' i n) (aside : j + m ≤ i ∨ i + n ≤ j) :
    slice b' j m = slice b j m := by
  apply ByteArray.ext
  apply Array.ext_getElem?
  intro k
  rw [getElem?_slice, getElem?_slice]
  split
  · exact h.outside _ (by omega)
  · rfl

/-- A part that holds the place differs there as well. -/
theorem part (h : DifferWithin b b' (j + i) n) (holds : j + i + n ≤ j + m ∨ b.size ≤ j + m) :
    DifferWithin (slice b j m) (slice b' j m) i n where
  size := by rw [size_slice, size_slice, h.size]
  differ same := by
    refine h.differ (ByteArray.ext (Array.ext_getElem? fun k => ?_))
    by_cases aside : k < j + i ∨ j + i + n ≤ k
    · exact h.outside k aside
    · have here : j + (k - j) = k := by omega
      have part := congrArg (fun x : ByteArray => x.data[k - j]?) same
      simp only [getElem?_slice, here] at part
      split at part
      · exact part
      · have size : b'.data.size = b.data.size := h.size
        have behind : b.data.size ≤ k := by
          have := holds.resolve_left (by omega)
          exact Nat.le_trans this (by omega)
        rw [Array.getElem?_eq_none behind, Array.getElem?_eq_none (by omega)]
  outside k aside := by
    rw [getElem?_slice, getElem?_slice]
    split
    · exact h.outside _ (by omega)
    · rfl

/-- The place itself is not the same. -/
theorem slice_ne (h : DifferWithin b b' i n) : slice b' i n ≠ slice b i n :=
  (h.part (j := i) (i := 0) (.inl (by omega))).differ

theorem word64At_eq (h : DifferWithin b b' i n) (aside : j + 8 ≤ i ∨ i + n ≤ j) :
    word64At b' j = word64At b j := by
  rw [word64At, word64At, valueAt, valueAt, h.slice_eq aside]

theorem word32At_eq (h : DifferWithin b b' i n) (aside : j + 4 ≤ i ∨ i + n ≤ j) :
    word32At b' j = word32At b j := by
  rw [word32At, word32At, valueAt, valueAt, h.slice_eq aside]

/-- A word is another one where its bytes are. -/
theorem word64At_ne (h : DifferWithin b b' i 8) (whole : i + 8 ≤ b.size) :
    word64At b' i ≠ word64At b i := by
  intro same
  have size := h.size
  apply h.slice_ne
  rw [← le64_word64At (by omega), same, le64_word64At whole]

theorem word32At_ne (h : DifferWithin b b' i 4) (whole : i + 4 ≤ b.size) :
    word32At b' i ≠ word32At b i := by
  intro same
  have size := h.size
  apply h.slice_ne
  rw [← le32_word32At (by omega), same, le32_word32At whole]

end DifferWithin

/-- Something else of the same size stands between the same front and back. -/
theorem differWithin_of_append {b b' front x y back : ByteArray} {i n : Nat}
    (whole : b = front ++ x ++ back) (changed : b' = front ++ y ++ back) (place : front.size = i)
    (size : x.size = n) (size' : y.size = n) (differ : y ≠ x) : DifferWithin b b' i n := by
  subst whole changed place size
  refine ⟨by simp only [ByteArray.size_append, size'], fun same => ?_, fun k aside => ?_⟩
  · have middle := congrArg (fun b : ByteArray => slice b front.size x.size) same
    simp only [slice_middle] at middle
    rw [← size', slice_middle] at middle
    exact differ middle
  · have sizes : y.data.size = x.data.size := size'
    have places : k < front.data.size ∨ front.data.size + x.data.size ≤ k := aside
    simp only [ByteArray.data_append, Array.getElem?_append, Array.size_append, sizes]
    rcases places with before | behind
    · simp only [if_pos before]
    · simp only [if_neg (Nat.not_lt.mpr behind)]

end Bytes

/-! ## Damaged frames -/

theorem Crc32.ofBytes_ne {b b' : ByteArray} {i : Nat} (h : Bytes.DifferWithin b b' i 4) :
    ofBytes b' ≠ ofBytes b := by
  rw [ofBytes_eq, ofBytes_eq]
  refine ofList_ne (i := i) ?_ (mt Bytes.ext_toList h.differ) fun k aside => ?_
  · rw [Bytes.length_toList, Bytes.length_toList, h.size]
  · rw [Array.getElem?_toList, Array.getElem?_toList, h.outside k aside]

namespace Record

variable {r : Record} {damaged : ByteArray} {i n : Nat}

/-- The fields of a header that is not damaged there. -/
theorem decode_frame (r : Record) : Header.decode r.frame = r.header r.encode :=
  Header.decode_append _ _

theorem word64At_frame (r : Record) : Bytes.word64At r.frame 0 = r.lsn := by
  have lsn := congrArg Header.lsn r.decode_frame
  simpa only [Header.decode, header] using lsn

theorem word32At_frame (r : Record) : Bytes.word32At r.frame 8 = Crc32.ofBytes r.encode := by
  have checksum := congrArg Header.checksum r.decode_frame
  simpa only [Header.decode, header] using checksum

/-- As long as the length in its header is whole, a damaged frame is found, and its body is read. -/
theorem ofFrame_damaged (fits : r.Fits) (h : Bytes.DifferWithin r.frame damaged i n)
    (aside : headerSize ≤ i ∨ i + n ≤ 12) :
    ofFrame damaged =
      ofBody (Header.decode damaged) (Bytes.slice damaged headerSize r.encode.size) := by
  have length : (Header.decode damaged).length = (r.header r.encode).length := by
    rw [← decode_frame]
    exact h.word32At_eq (aside.imp_left id)
  have size := h.size
  rw [size_frame] at size
  exact ofFrame_of_whole (by rw [length, length_header r fits]) (by omega) fits

theorem slice_frame (r : Record) : Bytes.slice r.frame headerSize r.encode.size = r.encode := by
  have body := Bytes.slice_middle (r.header r.encode).encode r.encode .empty
  rwa [ByteArray.append_empty, Header.size_encode] at body

/-- The body of a frame that is damaged in its header. -/
theorem body_damaged (h : Bytes.DifferWithin r.frame damaged i n) (front : i + n ≤ headerSize) :
    Bytes.slice damaged headerSize r.encode.size = r.encode := by
  rw [h.slice_eq (.inr front), r.slice_frame]

theorem ofBody_of_other_checksum {header : Header} {body : ByteArray}
    (other : Crc32.ofBytes body ≠ header.checksum) :
    ofBody header body =
      .error (.checksum header.lsn header.checksum (Crc32.ofBytes body)) := if_neg other

theorem ofBody_of_other_lsn {header : Header} (fits : r.Fits)
    (checksum : header.checksum = Crc32.ofBytes r.encode) (other : header.lsn ≠ r.lsn) :
    ofBody header r.encode = .error (.lsnMismatch header.lsn r.lsn) := by
  have decoded : decode r.encode = .ok r :=
    (decode_eq_ok_iff fits).mpr ⟨.empty, ByteArray.append_empty.symm⟩
  simp only [ofBody, checksum, decoded, if_true, if_neg (Ne.symm other)]

end Record

/-! ## The main result -/

/-- The frame of a record, damaged in any way in the number in its header, in the checksum in its
header, or in four bytes in a row of its body, is not accepted: in the first place the numbers do
not match, and in the others the checksum is not that of the body. -/
theorem small_damage_noticed {r : Record} {frame damaged : ByteArray}
    (written : r.toFrame = .ok frame) :
    (Bytes.DifferWithin frame damaged 0 8 →
      ∃ lsn, lsn ≠ r.lsn ∧ Record.ofFrame damaged = .error (.lsnMismatch lsn r.lsn)) ∧
    (Bytes.DifferWithin frame damaged 8 4 →
      ∃ checksum, checksum ≠ Crc32.ofBytes r.encode ∧
        Record.ofFrame damaged = .error (.checksum r.lsn checksum (Crc32.ofBytes r.encode))) ∧
    ∀ i, Bytes.DifferWithin frame damaged (headerSize + i) 4 →
      ∃ actual, actual ≠ Crc32.ofBytes r.encode ∧
        Record.ofFrame damaged = .error (.checksum r.lsn (Crc32.ofBytes r.encode) actual) := by
  have fits : r.Fits := by
    by_cases fits : r.Fits
    · exact fits
    · rw [Record.toFrame_of_not_fits fits] at written
      cases written
  rw [Record.toFrame_of_fits fits] at written
  cases written
  have size := r.size_frame
  have header : headerSize = 16 := rfl
  refine ⟨fun damage => ?_, fun damage => ?_, fun i damage => ?_⟩
  · have number := damage.word64At_ne (by omega)
    have checksum := damage.word32At_eq (j := 8) (.inr (by omega))
    rw [r.word64At_frame] at number
    rw [r.word32At_frame] at checksum
    refine ⟨_, number, ?_⟩
    rw [Record.ofFrame_damaged fits damage (.inr (by omega)),
      Record.body_damaged damage (by decide)]
    exact Record.ofBody_of_other_lsn fits checksum number
  · have lsn := damage.word64At_eq (j := 0) (.inl (by omega))
    have checksum := damage.word32At_ne (by omega)
    rw [r.word64At_frame] at lsn
    rw [r.word32At_frame] at checksum
    refine ⟨_, checksum, ?_⟩
    rw [Record.ofFrame_damaged fits damage (.inr (by omega)),
      Record.body_damaged damage (by decide), ← lsn]
    exact Record.ofBody_of_other_checksum checksum.symm
  · have before : headerSize ≤ headerSize + i := Nat.le_add_right _ _
    have lsn := damage.word64At_eq (j := 0) (.inl (Nat.le_trans (by decide) before))
    have checksum := damage.word32At_eq (j := 8) (.inl (Nat.le_trans (by decide) before))
    have other := Crc32.ofBytes_ne (damage.part (m := r.encode.size) (.inr (Nat.le_of_eq size)))
    rw [r.word64At_frame] at lsn
    rw [r.word32At_frame] at checksum
    rw [r.slice_frame] at other
    refine ⟨_, other, ?_⟩
    rw [Record.ofFrame_damaged fits damage (.inl before), ← lsn]
    rw [← checksum] at other ⊢
    exact Record.ofBody_of_other_checksum other

/-- A byte of the number, a byte of the checksum, and all four bytes of a field of the body. -/
theorem small_damage_noticed_commit :
    let r : Record := ⟨1, .commit 7, 0⟩
    let frame := Record.layout 1 r.encode
    let renumbered := .empty ++ Bytes.le64 257 ++ frame.extract 8 44
    let relabelled := frame.extract 0 8 ++ Bytes.le32 0 ++ frame.extract 12 44
    let changed := frame.extract 0 24 ++ Bytes.le32 0xFFFFFFFD ++ frame.extract 28 44
    r.toFrame = .ok frame ∧
      (Bytes.DifferWithin frame renumbered 0 8 ∧
        ∃ lsn, Record.ofFrame renumbered = .error (.lsnMismatch lsn 1)) ∧
      (Bytes.DifferWithin frame relabelled 8 4 ∧
        ∃ other actual, Record.ofFrame relabelled = .error (.checksum 1 other actual)) ∧
      Bytes.DifferWithin frame changed (headerSize + 8) 4 ∧
        ∃ other actual, Record.ofFrame changed = .error (.checksum 1 other actual) := by
  intro r frame renumbered relabelled changed
  have small : r.encode.size ≤ maxRecordSize := by decide +kernel
  have written : r.toFrame = .ok frame := by
    rw [Record.toFrame_of_fits small, Record.frame, ← Record.layout_eq]
  have number : Bytes.DifferWithin frame renumbered 0 8 :=
    Bytes.differWithin_of_append (x := frame.extract 0 8) (by decide +kernel) rfl rfl
      (by decide +kernel) (by decide +kernel) (by decide +kernel)
  have label : Bytes.DifferWithin frame relabelled 8 4 :=
    Bytes.differWithin_of_append (x := frame.extract 8 12) (by decide +kernel) rfl
      (by decide +kernel) (by decide +kernel) (by decide +kernel) (by decide +kernel)
  have field : Bytes.DifferWithin frame changed (headerSize + 8) 4 :=
    Bytes.differWithin_of_append (x := frame.extract 24 28) (by decide +kernel) rfl
      (by decide +kernel) (by decide +kernel) (by decide +kernel) (by decide +kernel)
  obtain ⟨lsn, -, misnumbered⟩ := (small_damage_noticed written).1 number
  obtain ⟨other, -, mislabelled⟩ := (small_damage_noticed written).2.1 label
  obtain ⟨actual, -, refused⟩ := (small_damage_noticed written).2.2 8 field
  exact ⟨written, ⟨number, lsn, misnumbered⟩, ⟨label, other, _, mislabelled⟩, field, _, actual,
    refused⟩

end DurableLog
