/-!
# Byte strings

Files, frames and payloads are `ByteArray`s. Their one view for statements is `b.data.toList`;
every operation of this module says what it does to that view.

## Cost

`repeated` doubles, so a long run of one byte is built in linear time, and `writeAt` at the very
end of a file is a plain append, which the usual writer only ever does.
-/

namespace DurableLog.Bytes

-- Byte strings are compared by this instance wherever another one is in scope too.
instance (priority := 1100) instDecidableEqBytes : DecidableEq ByteArray := ByteArray.instDecidableEq

/-- Two byte strings with the same view are equal. -/
theorem ext_toList {a b : ByteArray} (h : a.data.toList = b.data.toList) : a = b :=
  ByteArray.ext (Array.toList_inj.mp h)

theorem toList_append (a b : ByteArray) :
    (a ++ b).data.toList = a.data.toList ++ b.data.toList := by
  rw [ByteArray.data_append, Array.toList_append]

theorem length_toList (b : ByteArray) : b.data.toList.length = b.size := rfl

/-- A fold over `n` bytes from `i` on, to the end, is a fold over that part of the view. -/
theorem foldl_loop {β : Type} (f : β → UInt8 → β) (b : ByteArray) (n i : Nat) (start : β)
    (h : i + n = b.size) :
    (ByteArray.foldlM.loop (m := Id) (fun a x => pure (f a x)) b b.size (Nat.le_refl _) n i
        start).run
      = (b.data.toList.drop i).foldl f start := by
  induction n generalizing i start with
  | zero =>
    rw [ByteArray.foldlM.loop, List.drop_of_length_le (by rw [length_toList]; omega)]
    split <;> rfl
  | succ n ih =>
    have lt : i < b.size := by omega
    have next := ih (i + 1) (f start b[i]) (by omega)
    rw [ByteArray.foldlM.loop, dif_pos lt, List.drop_eq_getElem_cons (by exact lt),
      List.foldl_cons]
    exact next

theorem foldl_eq {β : Type} (f : β → UInt8 → β) (b : ByteArray) (start : β) :
    b.foldl f start = b.data.toList.foldl f start := by
  unfold ByteArray.foldl ByteArray.foldlM
  simp only [Nat.le_refl, dite_true]
  exact foldl_loop f b b.size 0 start (by omega)

/-- The byte string with the given view. -/
def ofList (l : List UInt8) : ByteArray := ⟨l.toArray⟩

@[simp] theorem toList_ofList (l : List UInt8) : (ofList l).data.toList = l := rfl

@[simp] theorem size_ofList (l : List UInt8) : (ofList l).size = l.length := by
  simp [ofList, ByteArray.size]

/-- The bytes of `b` from offset `i` on, `n` of them or as many as there are. -/
def slice (b : ByteArray) (i n : Nat) : ByteArray := b.extract i (i + n)

theorem toList_slice (b : ByteArray) (i n : Nat) :
    (slice b i n).data.toList = (b.data.toList.drop i).take n := by
  simp [slice, ByteArray.data_extract, List.take_drop]

theorem size_slice (b : ByteArray) (i n : Nat) : (slice b i n).size = min n (b.size - i) := by
  simp only [slice, ByteArray.size_extract]
  omega

theorem slice_append (b : ByteArray) (i m n : Nat) :
    slice b i m ++ slice b (i + m) n = slice b i (m + n) := by
  apply ext_toList
  rw [toList_append, toList_slice, toList_slice, toList_slice, List.take_add, List.drop_drop]

theorem slice_slice (b : ByteArray) (i m j n : Nat) (h : j + n ≤ m) :
    slice (slice b i m) j n = slice b (i + j) n := by
  apply ext_toList
  rw [toList_slice, toList_slice, toList_slice, List.drop_take, List.take_take, List.drop_drop,
    Nat.min_eq_left (by omega)]

/-- Only bytes that are there come out. -/
theorem slice_min (b : ByteArray) (i n : Nat) : slice b i n = slice b i (min n (b.size - i)) := by
  apply ext_toList
  rw [toList_slice, toList_slice, ← length_toList, ← List.length_drop]
  by_cases h : n ≤ (b.data.toList.drop i).length
  · rw [Nat.min_eq_left h]
  · rw [Nat.min_eq_right (by omega), List.take_length, List.take_of_length_le (by omega)]

@[simp] theorem slice_zero (b : ByteArray) (i : Nat) : slice b i 0 = ByteArray.empty :=
  ext_toList (by rw [toList_slice]; rfl)

@[simp] theorem empty_slice (i n : Nat) : slice ByteArray.empty i n = ByteArray.empty :=
  ext_toList (by rw [toList_slice]; simp)

/-- What stands between two others. -/
theorem slice_middle (front b rest : ByteArray) :
    slice (front ++ b ++ rest) front.size b.size = b := by
  apply ext_toList
  rw [toList_slice, toList_append, toList_append, List.append_assoc, ← length_toList front,
    ← length_toList b, List.drop_left, List.take_left]

theorem slice_append_right (front rest : ByteArray) (i n : Nat) :
    slice (front ++ rest) (front.size + i) n = slice rest i n := by
  apply ext_toList
  rw [toList_slice, toList_slice, toList_append, ← length_toList front,
    List.drop_length_add_append]

theorem slice_append_left {front : ByteArray} (rest : ByteArray) {i n : Nat}
    (h : i + n ≤ front.size) : slice (front ++ rest) i n = slice front i n := by
  apply ext_toList
  rw [toList_slice, toList_slice, toList_append, List.drop_append_of_le_length,
    List.take_append_of_le_length]
  · rw [List.length_drop, length_toList]
    omega
  · rw [length_toList]
    omega

@[simp] theorem slice_whole (b : ByteArray) : slice b 0 b.size = b := by
  apply ext_toList
  rw [toList_slice, List.drop_zero, ← length_toList, List.take_length]

/-- A byte string can be parted anywhere. -/
theorem exists_append {b : ByteArray} {n : Nat} (h : n ≤ b.size) :
    ∃ front rest, b = front ++ rest ∧ front.size = n := by
  refine ⟨b.extract 0 n, b.extract n b.size, ?_, ?_⟩
  · rw [ByteArray.extract_append_extract, Nat.zero_min, Nat.max_eq_right h,
      ByteArray.extract_zero_size]
  · rw [ByteArray.size_extract]
    omega

/-- `b` written `n` times in a row. -/
def repeated (b : ByteArray) (n : Nat) : ByteArray :=
  if n = 0 then ByteArray.empty
  else
    let half := repeated b (n / 2)
    if n % 2 = 0 then half ++ half else half ++ half ++ b
termination_by n
decreasing_by omega

theorem toList_repeated (b : ByteArray) (n : Nat) :
    (repeated b n).data.toList = (List.replicate n b.data.toList).flatten := by
  induction n using Nat.strongRecOn with
  | _ n ih =>
    rw [repeated]
    split
    · next h => subst h; rfl
    · next h =>
      have half := ih (n / 2) (by omega)
      have two : List.replicate (n / 2 + n / 2) b.data.toList
          = List.replicate (n / 2) b.data.toList ++ List.replicate (n / 2) b.data.toList := by
        rw [List.replicate_append_replicate]
      split
      · next he =>
        have hn : n = n / 2 + n / 2 := by omega
        conv => rhs; rw [hn, two, List.flatten_append]
        rw [toList_append, half]
      · next ho =>
        have hn : n = (n / 2 + n / 2) + 1 := by omega
        conv => rhs; rw [hn, List.replicate_succ', two, List.flatten_append, List.flatten_append]
        rw [toList_append, toList_append, half]
        simp

theorem size_repeated (b : ByteArray) (n : Nat) : (repeated b n).size = n * b.size := by
  rw [← length_toList, toList_repeated, List.length_flatten, List.map_replicate, length_toList,
    List.sum_replicate_nat]

/-- `n` zero bytes. -/
def zeros (n : Nat) : ByteArray := repeated (ofList [0]) n

theorem toList_zeros (n : Nat) : (zeros n).data.toList = List.replicate n 0 := by
  rw [zeros, toList_repeated, toList_ofList]
  induction n with
  | zero => rfl
  | succ n ih => rw [List.replicate_succ, List.flatten_cons, ih, List.replicate_succ]; rfl

@[simp] theorem size_zeros (n : Nat) : (zeros n).size = n := by
  simp [zeros, size_repeated]

/-- `b` cut or filled up with zero bytes to exactly `n` bytes. -/
def resize (b : ByteArray) (n : Nat) : ByteArray :=
  if n ≤ b.size then b.extract 0 n else b ++ zeros (n - b.size)

theorem toList_resize (b : ByteArray) (n : Nat) :
    (resize b n).data.toList = b.data.toList.take n ++ List.replicate (n - b.size) 0 := by
  unfold resize
  split
  · next h =>
    rw [Nat.sub_eq_zero_of_le h]
    simp [ByteArray.data_extract]
  · next h =>
    rw [toList_append, toList_zeros, List.take_of_length_le (by rw [length_toList]; omega)]

@[simp] theorem size_resize (b : ByteArray) (n : Nat) : (resize b n).size = n := by
  unfold resize
  split
  · simp only [ByteArray.size_extract]; omega
  · simp only [ByteArray.size_append, size_zeros]; omega

/-- `b` after writing `new` at offset `i`: what lay there is replaced, a gap before it is zero. -/
def writeAt (b : ByteArray) (i : Nat) (new : ByteArray) : ByteArray :=
  if i = b.size then b ++ new
  else resize b i ++ new ++ b.extract (i + new.size) b.size

/-- Writing at the end appends. -/
theorem writeAt_size (b new : ByteArray) : writeAt b b.size new = b ++ new := by
  simp [writeAt]

theorem toList_writeAt (b : ByteArray) (i : Nat) (new : ByteArray) :
    (writeAt b i new).data.toList
      = b.data.toList.take i ++ List.replicate (i - b.size) 0 ++ new.data.toList
        ++ b.data.toList.drop (i + new.size) := by
  unfold writeAt
  split
  · next h =>
    subst h
    have whole : b.data.toList.length ≤ b.size := Nat.le_of_eq (length_toList b)
    rw [toList_append, Nat.sub_self, List.take_of_length_le whole,
      List.drop_of_length_le (by omega)]
    simp
  · rw [toList_append, toList_append, toList_resize]
    congr 1
    simp [ByteArray.data_extract, List.take_of_length_le]

theorem size_writeAt (b : ByteArray) (i : Nat) (new : ByteArray) :
    (writeAt b i new).size = max b.size (i + new.size) := by
  unfold writeAt
  split
  · simp only [ByteArray.size_append]; omega
  · simp only [ByteArray.size_append, size_resize, ByteArray.size_extract]; omega

end DurableLog.Bytes
