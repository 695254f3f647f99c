import DurableLog.Journal.Reader
import DurableLog.Proofs.Roundtrip.Canonical

/-!
# Reading a file of any content

`Record.Laid` says that bytes are whole frames one behind another, `Reader.Stands` where in a file a
reader stands. What such a reader does next depends on the bytes in front of it alone, and on them
just as `Record.ofFrame` does:

* they begin with the frame of a record: it is given, and the reader stands behind it and counts it
  (`next_record`);
* they end inside a frame: nothing is given (`next_torn`);
* they begin with something else: that is told as a corruption, and the reader stands behind it
  without counting it (`next_error`).

The reader looks at a header before it knows that the body is there, so the three are told apart by
the length that the header announces (`Header.announced`). `Reader.Reads` is the three in one.
-/

namespace DurableLog

/-- The length of the body that the header at the beginning of `b` announces. -/
def Header.announced (b : ByteArray) : Nat := (Header.decode b).length.toNat

/-! ## Whole frames -/

namespace Record

variable {r : Record} {b frame rest : ByteArray}

/-- The bytes are one whole frame, in which the record is found. -/
structure IsFrame (r : Record) (frame : ByteArray) : Prop where
  found : ofFrame frame = .ok r
  whole : frame.size = headerSize + Header.announced frame

theorem isFrame_iff : r.IsFrame frame ↔
    ∃ body left, body = r.encode ++ left ∧ body.size ≤ maxRecordSize ∧
      frame = layout r.lsn body := by
  constructor
  · rintro ⟨found, whole⟩
    obtain ⟨body, left, more, begins, short, rfl⟩ := ofFrame_eq_ok_iff.mp found
    rw [Header.announced, decode_layout, length_header r short, ByteArray.size_append,
      size_layout] at whole
    have none : more = .empty := ByteArray.size_eq_zero_iff.mp (by omega)
    exact ⟨body, left, begins, short, by rw [none, ByteArray.append_empty]⟩
  · rintro ⟨body, left, begins, short, rfl⟩
    have found := ofFrame_layout begins short .empty
    have announced := decode_layout r body .empty
    rw [ByteArray.append_empty] at found announced
    exact ⟨found, by rw [Header.announced, announced, length_header r short, size_layout]⟩

/-- A record is accepted exactly when its frame stands at the beginning. -/
theorem ofFrame_eq_ok_iff_isFrame :
    ofFrame b = .ok r ↔ ∃ frame rest, b = frame ++ rest ∧ r.IsFrame frame := by
  rw [ofFrame_eq_ok_iff]
  constructor
  · rintro ⟨body, left, rest, begins, short, rfl⟩
    exact ⟨_, rest, rfl, isFrame_iff.mpr ⟨body, left, begins, short, rfl⟩⟩
  · rintro ⟨frame, rest, rfl, isFrame⟩
    obtain ⟨body, left, begins, short, rfl⟩ := isFrame_iff.mp isFrame
    exact ⟨body, left, rest, begins, short, rfl⟩

/-- Behind a frame the header announces what it announces without the bytes behind it. -/
theorem IsFrame.size (h : r.IsFrame frame) (rest : ByteArray) :
    frame.size = headerSize + Header.announced (frame ++ rest) := by
  obtain ⟨body, left, -, short, rfl⟩ := isFrame_iff.mp h
  rw [Header.announced, decode_layout, length_header r short, size_layout]

/-- The frame that is written for a record is one. -/
theorem isFrame_frame (fits : r.Fits) : r.IsFrame r.frame :=
  isFrame_iff.mpr ⟨r.encode, .empty, ByteArray.append_empty.symm, fits, (layout_eq ..).symm⟩

/-! ## Frames in a row -/

/-- The bytes are the frames of these records, one behind another. -/
inductive Laid : List Record → ByteArray → Prop
  | nil : Laid [] .empty
  | cons {r : Record} {records : List Record} {frame rest : ByteArray} (first : r.IsFrame frame)
      (onward : Laid records rest) : Laid (r :: records) (frame ++ rest)

theorem Laid.append {records records' : List Record} {b b' : ByteArray} (h : Laid records b)
    (h' : Laid records' b') : Laid (records ++ records') (b ++ b') := by
  induction h with
  | nil => rwa [ByteArray.empty_append]
  | cons first _ ih =>
    rw [List.cons_append, ByteArray.append_assoc]
    exact .cons first ih

/-- The frames written for records are theirs. -/
theorem laid_frames {records : List Record} (fits : ∀ r ∈ records, r.Fits) :
    Laid records (frames records) := by
  induction records with
  | nil => exact .nil
  | cons r rest ih =>
    obtain ⟨first, others⟩ := List.forall_mem_cons.mp fits
    exact .cons (isFrame_frame first) (ih others)

/-- A record takes more than a header. -/
theorem Laid.length_le {records : List Record} {b : ByteArray} (h : Laid records b) :
    records.length ≤ b.size := by
  induction h with
  | nil => exact Nat.zero_le _
  | cons first _ ih =>
    have size := first.whole
    rw [List.length_cons, ByteArray.size_append]
    unfold headerSize at size
    omega

end Record

/-! ## What a reader gives next -/

/-- The header needs no more than its own bytes. -/
theorem Header.decode_slice {b : ByteArray} (whole : headerSize ≤ b.size) :
    decode (Bytes.slice b 0 headerSize) = decode b := by
  have decoded := (decode b).decode_append .empty
  rwa [ByteArray.append_empty, encode_decode whole] at decoded

namespace Reader

/-- The frames given out are `position` bytes, the reader goes on at `place`, and it is not torn. -/
structure Stands (b : ByteArray) (r : Reader) (position place : Nat) : Prop where
  agrees : r.ahead.Agrees b
  position : r.position = position
  place : r.ahead.place = place
  whole : r.torn = false

theorem stands_start (b : ByteArray) : Stands b .start 0 0 :=
  ⟨ReadAhead.agrees_start b, rfl, rfl, rfl⟩

variable {front rest behind : ByteArray} {r : Reader} {record : Record} {position : Nat}

/-- A header is read. -/
theorem next_header (stands : r.Stands (front ++ rest) position front.size)
    (header : headerSize ≤ rest.size) :
    ∃ r' : Reader,
      r.next (.regular (front ++ rest)) =
        nextBody (.regular (front ++ rest)) r' (Header.decode rest) ∧
      r'.Stands (front ++ rest) position (front.size + headerSize) := by
  obtain ⟨agrees, position, place, whole⟩ := stands
  obtain ⟨ahead, taken, agrees', place'⟩ := ReadAhead.take_regular agrees headerSize
  have found := Bytes.slice_append_right front rest 0 headerSize
  have size : (Bytes.slice rest 0 headerSize).size = headerSize := by
    rw [Bytes.size_slice]
    omega
  rw [Nat.add_zero] at found
  rw [place, found] at taken place'
  rw [size] at place'
  refine ⟨{ r with ahead }, ?_, agrees', position, place', whole⟩
  have filled : ¬ headerSize = 0 := by decide
  simp only [next, whole, Bool.false_eq_true, if_false, taken, size, filled, Nat.lt_irrefl,
    Header.decode_slice header]

/-- The bytes end inside a header, or there are none. -/
theorem next_short (stands : r.Stands (front ++ rest) position front.size)
    (short : rest.size < headerSize) :
    ∃ r', r.next (.regular (front ++ rest)) = (.ok none, r') ∧ r'.position = position ∧
      (r'.torn = false → rest = .empty ∧ r'.Stands (front ++ rest) position front.size) := by
  obtain ⟨agrees, position, place, whole⟩ := stands
  obtain ⟨ahead, taken, agrees', place'⟩ := ReadAhead.take_regular agrees headerSize
  have found := Bytes.slice_append_right front rest 0 headerSize
  have size : (Bytes.slice rest 0 headerSize).size = rest.size := by
    rw [Bytes.size_slice]
    omega
  rw [Nat.add_zero] at found
  rw [place, found] at taken place'
  rw [size] at place'
  simp only [next, whole, Bool.false_eq_true, if_false, taken, size, short, if_true]
  by_cases none : rest.size = 0
  · rw [none, Nat.add_zero] at place'
    refine ⟨_, if_pos none, position, fun _ => ?_⟩
    exact ⟨ByteArray.size_eq_zero_iff.mp none, agrees', position, place', rfl⟩
  · exact ⟨_, if_neg none, position, nofun⟩

/-- A body that is there is read behind its header. -/
theorem take_body (stands : r.Stands (front ++ rest) position (front.size + headerSize))
    (n : Nat) :
    ∃ ahead,
      r.ahead.take (.regular (front ++ rest)) n = .ok (Bytes.slice rest headerSize n, ahead) ∧
      ahead.Agrees (front ++ rest) ∧
      ahead.place = front.size + headerSize + (Bytes.slice rest headerSize n).size := by
  obtain ⟨ahead, taken, agrees, place⟩ := ReadAhead.take_regular stands.agrees n
  rw [stands.place, Bytes.slice_append_right] at taken place
  exact ⟨ahead, taken, agrees, place⟩

/-- The bytes end inside a frame. -/
theorem next_torn (stands : r.Stands (front ++ rest) position front.size)
    (torn : rest.size < headerSize + Header.announced rest)
    (short : headerSize ≤ rest.size → Header.announced rest ≤ maxRecordSize) :
    ∃ r', r.next (.regular (front ++ rest)) = (.ok none, r') ∧ r'.position = position ∧
      (r'.torn = false → rest = .empty ∧ r'.Stands (front ++ rest) position front.size) := by
  by_cases header : headerSize ≤ rest.size
  · obtain ⟨r', read, stands'⟩ := next_header stands header
    obtain ⟨ahead, taken, -, -⟩ := take_body stands' (Header.announced rest)
    have missing : (Bytes.slice rest headerSize (Header.announced rest)).size <
        Header.announced rest := by
      rw [Bytes.size_slice]
      omega
    refine ⟨{ r' with ahead, torn := true }, ?_, stands'.position, nofun⟩
    rw [read]
    unfold Header.announced at *
    simp only [nextBody, if_neg (Nat.not_lt.mpr (short header)), taken, if_pos missing]
  · exact next_short stands (by omega)

/-- A length that no frame has is told; the reader stands behind the header. -/
theorem next_long (stands : r.Stands (front ++ rest) position front.size)
    (header : headerSize ≤ rest.size) (long : maxRecordSize < Header.announced rest) :
    ∃ cause r', r.next (.regular (front ++ rest)) = (.error (.corruption cause), r') ∧
      r'.Stands (front ++ rest) position (front.size + headerSize) := by
  obtain ⟨r', read, stands'⟩ := next_header stands header
  refine ⟨.longRecordAt (Header.decode rest).length.toNat r'.position, r', ?_, stands'⟩
  rw [read]
  exact if_pos long

/-- A frame that is whole is looked at, and told as `Record.ofFrame` tells it. The reader stands
behind it either way, but only a record is counted. -/
theorem next_whole (stands : r.Stands (front ++ rest) position front.size)
    (whole : headerSize + Header.announced rest ≤ rest.size)
    (short : Header.announced rest ≤ maxRecordSize) :
    match Record.ofFrame rest with
    | .ok record => ∃ r', r.next (.regular (front ++ rest)) = (.ok (some record), r') ∧
      r'.Stands (front ++ rest) (position + headerSize + Header.announced rest)
        (front.size + headerSize + Header.announced rest)
    | .error cause =>
      ∃ r', r.next (.regular (front ++ rest)) = (.error (.corruption cause), r') ∧
        r'.Stands (front ++ rest) position (front.size + headerSize + Header.announced rest) := by
  obtain ⟨r', read, stands'⟩ := next_header stands (by omega)
  obtain ⟨ahead, taken, agrees, place⟩ := take_body stands' (Header.announced rest)
  have size : (Bytes.slice rest headerSize (Header.announced rest)).size =
      Header.announced rest := by
    rw [Bytes.size_slice]
    omega
  have filled : ¬ (Bytes.slice rest headerSize (Header.announced rest)).size <
      Header.announced rest := by omega
  rw [Record.ofFrame_of_whole rfl whole short, read]
  rw [size] at place
  unfold Header.announced at *
  simp only [nextBody, if_neg (Nat.not_lt.mpr short), taken, if_neg filled]
  cases Record.ofBody (Header.decode rest)
      (Bytes.slice rest headerSize (Header.decode rest).length.toNat) with
  | ok record =>
    refine ⟨_, rfl, agrees, ?_, place, stands'.whole⟩
    rw [stands'.position]
  | error cause => exact ⟨_, rfl, agrees, stands'.position, place, stands'.whole⟩

/-- The reader gives the record of the frame in front of it. -/
theorem next_record {frame : ByteArray} (stands : r.Stands (front ++ rest) position front.size)
    (begins : rest = frame ++ behind) (isFrame : record.IsFrame frame) :
    ∃ r', r.next (.regular (front ++ rest)) = (.ok (some record), r') ∧
      r'.Stands (front ++ rest) (position + frame.size) (front ++ frame).size := by
  have accepted := Record.ofFrame_eq_ok_iff_isFrame.mpr ⟨frame, behind, begins, isFrame⟩
  obtain ⟨whole, short, -⟩ := Record.ofFrame_eq_ok accepted
  have next := next_whole stands whole short
  have size := isFrame.size behind
  rw [← begins] at size
  rw [accepted] at next
  rwa [ByteArray.size_append, size, ← Nat.add_assoc, ← Nat.add_assoc]

/-- If it has counted all that is behind it, it has counted all behind the record, too. -/
theorem next_ok {frame : ByteArray} (stands : r.Stands (front ++ rest) front.size front.size)
    (begins : rest = frame ++ behind) (isFrame : record.IsFrame frame) :
    ∃ r', r.next (.regular (front ++ rest)) = (.ok (some record), r') ∧
      r'.Stands (front ++ rest) (front ++ frame).size (front ++ frame).size := by
  obtain ⟨r', read, stands'⟩ := next_record stands begins isFrame
  rw [← ByteArray.size_append] at stands'
  exact ⟨r', read, stands'⟩

/-- What is whole but not a frame, or too long for one, is told as a corruption. The reader stands
behind what it has looked at, and has not counted it. -/
theorem next_error (stands : r.Stands (front ++ rest) position front.size)
    (header : headerSize ≤ rest.size)
    (looked : maxRecordSize < Header.announced rest ∨
      headerSize + Header.announced rest ≤ rest.size)
    (wrong : ∀ record, Record.ofFrame rest ≠ .ok record) :
    ∃ cause r', r.next (.regular (front ++ rest)) = (.error (.corruption cause), r') ∧
      ∃ n, headerSize ≤ n ∧ n ≤ rest.size ∧
        r'.Stands (front ++ rest) position (front.size + n) := by
  by_cases short : Header.announced rest ≤ maxRecordSize
  · have whole : headerSize + Header.announced rest ≤ rest.size := by omega
    have next := next_whole stands whole short
    cases read : Record.ofFrame rest with
    | ok record => exact absurd read (wrong record)
    | error cause =>
      rw [read] at next
      obtain ⟨r', told, stands'⟩ := next
      rw [Nat.add_assoc] at stands'
      exact ⟨cause, r', told, _, Nat.le_add_right .., whole, stands'⟩
  · obtain ⟨cause, r', told, stands'⟩ := next_long stands header (Nat.not_le.mp short)
    exact ⟨cause, r', told, _, Nat.le_refl _, header, stands'⟩

/-! ## One call -/

/-- What a call comes to when `rest` is in front of a reader that has counted `position` bytes. -/
inductive Reads (position : Nat) (front rest : ByteArray) :
    Except Fault (Option Record) → Reader → Prop
  /-- The record of the frame in front is given, and counted. -/
  | record {frame behind : ByteArray} {r' : Reader} {record : Record}
      (begins : rest = frame ++ behind) (isFrame : record.IsFrame frame)
      (stands : r'.Stands (front ++ rest) (position + frame.size) (front ++ frame).size) :
      Reads position front rest (.ok (some record)) r'
  /-- What is in front is passed over, and not counted. -/
  | passed {looked behind : ByteArray} {r' : Reader} {cause : Corruption}
      (begins : rest = looked ++ behind) (header : headerSize ≤ looked.size)
      (stands : r'.Stands (front ++ rest) position (front ++ looked).size) :
      Reads position front rest (.error (.corruption cause)) r'
  /-- There is nothing in front. -/
  | ended {r' : Reader} (nothing : rest = .empty)
      (stands : r'.Stands (front ++ rest) position front.size) :
      Reads position front rest (.ok none) r'
  /-- There is less than a frame in front. -/
  | torn {r' : Reader} (torn : r'.torn = true) (counted : r'.position = position) :
      Reads position front rest (.ok none) r'

theorem reads_of_next {result : Except Fault (Option Record)} {r' : Reader}
    (stands : r.Stands (front ++ rest) position front.size)
    (called : r.next (.regular (front ++ rest)) = (result, r')) :
    Reads position front rest result r' := by
  by_cases looked : headerSize ≤ rest.size ∧ (maxRecordSize < Header.announced rest ∨
      headerSize + Header.announced rest ≤ rest.size)
  · by_cases accepted : ∃ record, Record.ofFrame rest = .ok record
    · obtain ⟨record, found⟩ := accepted
      obtain ⟨frame, behind, begins, isFrame⟩ := Record.ofFrame_eq_ok_iff_isFrame.mp found
      obtain ⟨r', read, stands'⟩ := next_record stands begins isFrame
      cases read.symm.trans called
      exact .record begins isFrame stands'
    · rw [not_exists] at accepted
      obtain ⟨cause, r', read, n, header, within, stands'⟩ :=
        next_error stands looked.1 looked.2 accepted
      obtain ⟨passed, behind, begins, size⟩ := Bytes.exists_append within
      rw [← size, ← ByteArray.size_append] at stands'
      cases read.symm.trans called
      exact .passed begins (by omega) stands'
  · obtain ⟨r', read, counted, whole⟩ := next_torn stands
      (Nat.not_le.mp fun whole => looked ⟨by omega, .inr whole⟩)
      (fun header => Nat.not_lt.mp fun long => looked ⟨header, .inl long⟩)
    cases read.symm.trans called
    cases torn : r'.torn with
    | true => exact .torn torn counted
    | false => exact .ended (whole torn).1 (whole torn).2

end Reader

end DurableLog
