import DurableLog.Proofs.Roundtrip.Frame

/-!
# Only what is written is read

`Roundtrip.Body` and `Roundtrip.Frame` read back what was written. This module goes the other way:
a decoder that gives a value has found the bytes of just this value (`Decoder.Finds`), field by
field. So a record has one encoding, bytes left over behind it apart, and a frame is accepted
exactly when it has the form that the encoder gives it (`Record.ofFrame_eq_ok_iff`).

## Why lengths can be trusted

A length in front of a payload comes from the file. The decoder gives a payload only if all of it is
there, so the length that was read is the length of the payload that was found.
-/

namespace DurableLog

/-! ## Bytes between two offsets -/

/-- The bytes `x` stand in `b` from `i` on, and end at `j`. -/
structure Bytes.Spells (b : ByteArray) (i j : Nat) (x : ByteArray) : Prop where
  bytes : slice b i x.size = x
  stop : j = i + x.size

theorem Bytes.spells_empty (b : ByteArray) (i : Nat) : Spells b i i .empty :=
  ⟨slice_zero b i, rfl⟩

theorem Bytes.spells_slice {b : ByteArray} {i n : Nat} (h : i + n ≤ b.size) :
    Spells b i (i + n) (slice b i n) := by
  have size : (slice b i n).size = n := by
    rw [size_slice]
    omega
  exact ⟨by rw [size], by rw [size]⟩

theorem Bytes.Spells.append {b x y : ByteArray} {i j k : Nat} (h : Spells b i j x)
    (h' : Spells b j k y) : Spells b i k (x ++ y) := by
  obtain ⟨front, rfl⟩ := h
  obtain ⟨back, rfl⟩ := h'
  refine ⟨?_, ?_⟩
  · rw [ByteArray.size_append, ← slice_append, front, back]
  · rw [ByteArray.size_append, Nat.add_assoc]

/-- What stands at the beginning is followed by the rest. -/
theorem Bytes.Spells.eq_append {b x : ByteArray} {j : Nat} (h : Spells b 0 j x) :
    ∃ rest, b = x ++ rest := by
  refine ⟨slice b x.size (b.size - x.size), ?_⟩
  have whole : slice b 0 (x.size + (b.size - x.size)) = b := by
    apply ext_toList
    rw [toList_slice, List.drop_zero, List.take_of_length_le]
    rw [length_toList]
    omega
  have parts := slice_append b 0 x.size (b.size - x.size)
  rw [h.bytes, Nat.zero_add, whole] at parts
  exact parts.symm

/-! ## Decoders -/

namespace Decoder

variable {α β : Type}

/-- Whatever the decoder gives, it has found written just there. -/
def Finds (d : Decoder α) (encode : α → ByteArray) : Prop :=
  ∀ {b : ByteArray} {i : Nat} {a : α} {j : Nat}, d b i = .ok (a, j) → Bytes.Spells b i j (encode a)

theorem bind_eq_ok {d : Decoder α} {next : α → Decoder β} {b : ByteArray} {i k : Nat} {c : β}
    (h : Decoder.bind d next b i = .ok (c, k)) :
    ∃ a j, d b i = .ok (a, j) ∧ next a b j = .ok (c, k) := by
  unfold Decoder.bind at h
  split at h
  · next a j read => exact ⟨a, j, read, h⟩
  · cases h

theorem pure_eq_ok {a c : α} {b : ByteArray} {i k : Nat}
    (h : Decoder.pure a b i = .ok (c, k)) : a = c ∧ i = k := by
  cases h
  exact ⟨rfl, rfl⟩

/-! ## Single fields -/

theorem finds_word64 : Finds word64 Bytes.le64 := by
  intro b i v j h
  unfold word64 at h
  split at h
  · next within =>
    cases h
    rw [Bytes.le64_word64At within]
    exact Bytes.spells_slice within
  · cases h

theorem finds_word32 : Finds word32 Bytes.le32 := by
  intro b i v j h
  unfold word32 at h
  split at h
  · next within =>
    cases h
    rw [Bytes.le32_word32At within]
    exact Bytes.spells_slice within
  · cases h

theorem finds_byte : Finds byte fun v => Bytes.ofList [v] := by
  intro b i v j h
  unfold byte at h
  split at h
  · next within =>
    cases h
    refine ⟨Bytes.ext_toList ?_, rfl⟩
    have here : b.data.toList.drop i = b[i] :: b.data.toList.drop (i + 1) :=
      List.drop_eq_getElem_cons (by exact within)
    rw [Bytes.toList_slice, here]
    rfl
  · cases h

/-- The bytes of a payload, and their number. -/
theorem bytes_eq_ok {n : Nat} {b x : ByteArray} {i j : Nat} (h : bytes n b i = .ok (x, j)) :
    Bytes.Spells b i j x ∧ x.size = n := by
  unfold bytes at h
  split at h
  · next within =>
    cases h
    refine ⟨Bytes.spells_slice within, ?_⟩
    rw [Bytes.size_slice]
    omega
  · cases h

/-- Only the bytes 0 and 1 are a yes or no. -/
theorem finds_flag : Finds flag Body.flag := by
  intro b i v j h
  obtain ⟨tag, k, read, onward⟩ := bind_eq_ok h
  have found := finds_byte read
  split at onward
  · obtain ⟨rfl, rfl⟩ := pure_eq_ok onward
    exact found
  · obtain ⟨rfl, rfl⟩ := pure_eq_ok onward
    exact found
  · cases onward

theorem finds_vote : Finds vote Body.encodeVote := by
  intro b i v j h
  obtain ⟨tag, k, read, onward⟩ := bind_eq_ok h
  have found := finds_byte read
  split at onward
  · obtain ⟨rfl, rfl⟩ := pure_eq_ok onward
    exact found
  · obtain ⟨id, l, readId, ended⟩ := bind_eq_ok onward
    obtain ⟨rfl, rfl⟩ := pure_eq_ok ended
    exact found.append (finds_word64 readId)
  · cases onward

/-- As many values in a row as were asked for, each in its bytes. -/
theorem many_eq_ok {d : Decoder α} {encode : α → ByteArray} (h : d.Finds encode) {n : Nat}
    {b : ByteArray} {i j : Nat} {values : List α} (read : many d n b i = .ok (values, j)) :
    Bytes.Spells b i j (values.foldr (encode · ++ ·) .empty) ∧ values.length = n := by
  induction n generalizing i values with
  | zero =>
    obtain ⟨rfl, rfl⟩ := pure_eq_ok read
    exact ⟨Bytes.spells_empty b i, rfl⟩
  | succ n ih =>
    obtain ⟨a, k, first, onward⟩ := bind_eq_ok read
    obtain ⟨rest, l, others, ended⟩ := bind_eq_ok onward
    obtain ⟨rfl, rfl⟩ := pure_eq_ok ended
    obtain ⟨found, length⟩ := ih others
    exact ⟨(h first).append found, by rw [List.length_cons, length]⟩

/-! ## Entries, changes and records -/

theorem finds_storedEntry : Finds storedEntry Body.encodeEntry := by
  intro b i e j h
  obtain ⟨term, i₁, readTerm, h⟩ := bind_eq_ok h
  obtain ⟨secs, i₂, readSecs, h⟩ := bind_eq_ok h
  obtain ⟨nanos, i₃, readNanos, h⟩ := bind_eq_ok h
  obtain ⟨size, i₄, readSize, h⟩ := bind_eq_ok h
  obtain ⟨payload, i₅, readPayload, h⟩ := bind_eq_ok h
  obtain ⟨isSnapshot, i₆, readFlag, h⟩ := bind_eq_ok h
  obtain ⟨rfl, rfl⟩ := pure_eq_ok h
  obtain ⟨found, size_eq⟩ := bytes_eq_ok readPayload
  have announced : UInt64.ofNat payload.size = size := by rw [size_eq, UInt64.ofNat_toNat]
  have secs_eq : secs.toInt64.toUInt64 = secs := rfl
  simp only [Body.encodeEntry, announced, secs_eq]
  exact ((((finds_word64 readTerm).append (finds_word64 readSecs)).append
    (finds_word32 readNanos)).append (finds_word64 readSize)).append found |>.append
    (finds_flag readFlag)

theorem finds_change : Finds change Body.fields := by
  intro b i c j h
  obtain ⟨kind, i₁, readKind, h⟩ := bind_eq_ok h
  have found := finds_word32 readKind
  split at h
  · obtain ⟨term, i₂, readTerm, h⟩ := bind_eq_ok h
    obtain ⟨vote, i₃, readVote, h⟩ := bind_eq_ok h
    obtain ⟨rfl, rfl⟩ := pure_eq_ok h
    exact found.append ((finds_word64 readTerm).append (finds_vote readVote))
  · obtain ⟨start, i₂, readStart, h⟩ := bind_eq_ok h
    obtain ⟨count, i₃, readCount, h⟩ := bind_eq_ok h
    obtain ⟨entries, i₄, readEntries, h⟩ := bind_eq_ok h
    obtain ⟨rfl, rfl⟩ := pure_eq_ok h
    obtain ⟨each, length⟩ := many_eq_ok finds_storedEntry readEntries
    have announced : UInt64.ofNat entries.length = count := by rw [length, UInt64.ofNat_toNat]
    refine found.append ((finds_word64 readStart).append ?_)
    rw [announced]
    exact (finds_word64 readCount).append each
  · obtain ⟨index, i₂, readIndex, h⟩ := bind_eq_ok h
    obtain ⟨rfl, rfl⟩ := pure_eq_ok h
    exact found.append (finds_word64 readIndex)
  · cases h

theorem finds_record : Finds record Record.encode := by
  intro b i r j h
  obtain ⟨lsn, i₁, readLsn, h⟩ := bind_eq_ok h
  obtain ⟨change, i₂, readChange, h⟩ := bind_eq_ok h
  obtain ⟨timestamp, i₃, readTimestamp, h⟩ := bind_eq_ok h
  obtain ⟨rfl, rfl⟩ := pure_eq_ok h
  rw [Record.encode_eq]
  exact (finds_word64 readLsn).append
    ((finds_change readChange).append (finds_word64 readTimestamp))

end Decoder

namespace Record

variable {r : Record} {b body : ByteArray}

/-- A body that is not too long for a frame is decoded to just the record that it begins with. -/
theorem decode_eq_ok_iff (short : body.size ≤ maxRecordSize) :
    decode body = .ok r ↔ ∃ left, body = r.encode ++ left := by
  constructor
  · intro h
    unfold decode at h
    cases read : Decoder.record body 0 with
    | error fault =>
      rw [read] at h
      cases h
    | ok value =>
      rw [read] at h
      cases h
      exact (Decoder.finds_record read).eq_append
  · rintro ⟨left, rfl⟩
    rw [ByteArray.size_append] at short
    have fits : r.Fits := by
      unfold Fits
      omega
    exact decode_encode fits.countable left

/-! ## Frames -/

/-- The frame of a body: a number, the checksum and the length of the body, and the body. -/
def layout (lsn : UInt64) (body : ByteArray) : ByteArray :=
  Bytes.le64 lsn ++ Bytes.le32 (Crc32.ofList body.data.toList) ++ Bytes.le32 (.ofNat body.size)
    ++ body

/-- A frame of the record stands at the beginning of `b`. The encoded record stands at the beginning
of its body. -/
def Leads (r : Record) (b : ByteArray) : Prop :=
  ∃ body left rest, body = r.encode ++ left ∧ body.size ≤ maxRecordSize ∧
    b = layout r.lsn body ++ rest

theorem layout_eq (r : Record) (body : ByteArray) :
    layout r.lsn body = (r.header body).encode ++ body := by
  rw [layout, header, Header.encode, Crc32.ofBytes_eq]

theorem ofBody_eq_ok_iff {header : Header} (short : body.size ≤ maxRecordSize) :
    ofBody header body = .ok r ↔
      Crc32.ofBytes body = header.checksum ∧ r.lsn = header.lsn ∧
        ∃ left, body = r.encode ++ left := by
  rw [← decode_eq_ok_iff short]
  unfold ofBody
  simp only
  constructor
  · intro h
    split at h
    · next same =>
      split at h
      · cases h
      · next record decoded =>
        split at h
        · next number =>
          cases h
          exact ⟨same, number, decoded⟩
        · cases h
    · cases h
  · rintro ⟨same, number, decoded⟩
    rw [if_pos same, decoded]
    exact if_pos number

end Record

theorem Header.encode_decode (whole : headerSize ≤ b.size) :
    (Header.decode b).encode = Bytes.slice b 0 headerSize := by
  unfold headerSize at whole ⊢
  unfold encode decode
  rw [Bytes.le64_word64At (by omega), Bytes.le32_word32At (by omega),
    Bytes.le32_word32At (by omega)]
  have first : Bytes.slice b 0 8 ++ Bytes.slice b 8 4 = Bytes.slice b 0 12 :=
    Bytes.slice_append b 0 8 4
  have both : Bytes.slice b 0 12 ++ Bytes.slice b 12 4 = Bytes.slice b 0 16 :=
    Bytes.slice_append b 0 12 4
  rw [first, both]

namespace Record

/-- What is accepted has been found whole: a header, and behind it the body that it announces. -/
theorem ofFrame_eq_ok (h : ofFrame b = .ok r) :
    headerSize + (Header.decode b).length.toNat ≤ b.size ∧
      (Header.decode b).length.toNat ≤ maxRecordSize ∧
      ofBody (Header.decode b) (Bytes.slice b headerSize (Header.decode b).length.toNat) =
        .ok r := by
  unfold ofFrame at h
  simp only at h
  split at h
  · cases h
  · split at h
    · cases h
    · split at h
      · cases h
      · exact ⟨by omega, by omega, h⟩

theorem ofFrame_of_whole {length : Nat} (announced : (Header.decode b).length.toNat = length)
    (whole : headerSize + length ≤ b.size) (short : length ≤ maxRecordSize) :
    ofFrame b = ofBody (Header.decode b) (Bytes.slice b headerSize length) := by
  subst announced
  unfold ofFrame
  rw [if_neg (by omega)]
  simp only
  rw [if_neg (by omega), if_neg (by omega)]

theorem size_layout (lsn : UInt64) (body : ByteArray) :
    (layout lsn body).size = headerSize + body.size := by
  simp only [layout, ByteArray.size_append, Bytes.size_le64, Bytes.size_le32, headerSize]

theorem decode_layout (r : Record) (body rest : ByteArray) :
    Header.decode (layout r.lsn body ++ rest) = r.header body := by
  rw [layout_eq, ByteArray.append_assoc, Header.decode_append]

/-- The length in the header is that of the body. -/
theorem length_header (r : Record) (short : body.size ≤ maxRecordSize) :
    (r.header body).length.toNat = body.size := by
  unfold maxRecordSize at short
  rw [header, UInt32.toNat_ofNat', Nat.mod_eq_of_lt]
  omega

/-- Bytes that begin with a frame are accepted, whatever follows it. -/
theorem ofFrame_layout {left : ByteArray} (begins : body = r.encode ++ left)
    (short : body.size ≤ maxRecordSize) (rest : ByteArray) :
    ofFrame (layout r.lsn body ++ rest) = .ok r := by
  have announced : (Header.decode (layout r.lsn body ++ rest)).length.toNat = body.size := by
    rw [decode_layout, length_header r short]
  have found : Bytes.slice (layout r.lsn body ++ rest) headerSize body.size = body := by
    have middle := Bytes.slice_middle (r.header body).encode body rest
    rwa [Header.size_encode, ← layout_eq] at middle
  have whole : headerSize + body.size ≤ (layout r.lsn body ++ rest).size := by
    rw [ByteArray.size_append, size_layout]
    omega
  rw [ofFrame_of_whole announced whole short, decode_layout, found]
  exact (ofBody_eq_ok_iff short).mpr ⟨rfl, rfl, left, begins⟩

/-- What is accepted begins with a frame. -/
theorem leads_of_ofFrame (h : ofFrame b = .ok r) : r.Leads b := by
  obtain ⟨whole, short, body_ok⟩ := ofFrame_eq_ok h
  have header_found := Header.encode_decode (b := b) (by omega)
  have header_stands : Bytes.Spells b 0 headerSize (Header.decode b).encode := by
    have stands := Bytes.spells_slice (b := b) (i := 0) (n := headerSize) (by omega)
    rwa [← header_found, Nat.zero_add] at stands
  have body_stands := Bytes.spells_slice (b := b) (i := headerSize) whole
  have size : (Bytes.slice b headerSize (Header.decode b).length.toNat).size =
      (Header.decode b).length.toNat := by
    rw [Bytes.size_slice]
    omega
  generalize Bytes.slice b headerSize (Header.decode b).length.toNat = body at *
  rw [← size] at short
  obtain ⟨same, number, left, begins⟩ := (ofBody_eq_ok_iff short).mp body_ok
  have header_eq : r.header body = Header.decode b := by
    rw [header, same, number, size, UInt32.ofNat_toNat]
  rw [← header_eq] at header_stands
  obtain ⟨rest, split⟩ := (header_stands.append body_stands).eq_append
  exact ⟨body, left, rest, begins, short, by rw [layout_eq, split]⟩

/-- A frame is accepted exactly when it has the form in which frames are written. -/
theorem ofFrame_eq_ok_iff : ofFrame b = .ok r ↔ r.Leads b := by
  constructor
  · exact leads_of_ofFrame
  · rintro ⟨body, left, rest, begins, short, rfl⟩
    exact ofFrame_layout begins short rest

end Record

/-! ## The main result -/

/-- A frame is accepted exactly when it has the form in which frames are written, bytes behind it
and bytes left over in its body apart, and everything else is told as a corruption. A record is
written exactly when its encoding is not too long, and is then read back, whatever follows. -/
theorem frame_format_exact (b : ByteArray) (r : Record) :
    (Record.ofFrame b = .ok r ↔ r.Leads b) ∧
      ((∃ cause, Record.ofFrame b = .error cause) ↔ ¬ ∃ r : Record, r.Leads b) ∧
      ((∃ frame, r.toFrame = .ok frame) ↔ r.encode.size ≤ maxRecordSize) ∧
      ∀ frame, r.toFrame = .ok frame → ∀ rest, Record.ofFrame (frame ++ rest) = .ok r := by
  refine ⟨Record.ofFrame_eq_ok_iff, ?_, ?_, ?_⟩
  · constructor
    · rintro ⟨cause, failed⟩ ⟨record, leads⟩
      rw [Record.ofFrame_eq_ok_iff.mpr leads] at failed
      cases failed
    · intro none
      cases read : Record.ofFrame b with
      | ok record => exact absurd ⟨record, Record.ofFrame_eq_ok_iff.mp read⟩ none
      | error cause => exact ⟨cause, rfl⟩
  · constructor
    · rintro ⟨frame, written⟩
      by_cases fits : r.Fits
      · exact fits
      · rw [Record.toFrame_of_not_fits fits] at written
        cases written
    · intro fits
      exact ⟨r.frame, Record.toFrame_of_fits fits⟩
  · intro frame written rest
    by_cases fits : r.Fits
    · rw [Record.toFrame_of_fits fits] at written
      cases written
      rw [Record.frame, ← Record.layout_eq]
      exact Record.ofFrame_layout ByteArray.append_empty.symm fits rest
    · rw [Record.toFrame_of_not_fits fits] at written
      cases written

end DurableLog
