import DurableLog.Journal.Survey
import DurableLog.Proofs.Numbering
import DurableLog.Proofs.Reading

/-!
# What a survey finds

A survey of a file goes past whole frames as long as their records are numbered 1, 2, 3 …, and
stops in front of the first bytes that are not the next one (`Survey.Finds`). This module first
follows the scan past frames (`Scan.run_laid`), then has it stop (`Scan.run_end`), and then shows
that every file is frames followed by something to stop at (`exists_finds`).

## What is told of the bytes behind

A survey stops silently where the file ends, inside a frame or not. It tells a corruption where it
has seen what is wrong (`Survey.Corrupt`): a length that no frame has, or a whole frame that is not
that of the next record.
-/

namespace DurableLog

namespace Survey

variable {b front rest : ByteArray} {reader : Reader} {scan : Scan} {records : List Record}
  {lsn : UInt64} {s : Survey}

/-! ## Past whole frames -/

/-- The scan once it has gone past the frames of these records, `size` bytes in all. -/
def Scan.past (scan : Scan) (records : List Record) (size : Nat) : Scan where
  records := scan.records ++ records.toArray
  lastLsn := scan.lastLsn + UInt64.ofNat records.length
  validBytes := scan.validBytes + size
  corrupted := scan.corrupted

theorem Scan.past_nil (scan : Scan) : scan.past [] 0 = scan := by
  simp [past]

/-- The scan once it has gone past one more frame. -/
theorem Scan.past_cons (scan : Scan) (r : Record) (rest : List Record) (first size : Nat)
    (numbered : r.lsn = scan.lastLsn + 1) :
    scan.past (r :: rest) (first + size) =
      ({ scan with
        records := scan.records.push r
        lastLsn := r.lsn
        validBytes := scan.validBytes + first } : Scan).past rest size := by
  simp only [past, numbered, List.length_cons, Record.ofNat_length_cons, Nat.add_assoc]
  congr 1
  simp

/-- A scan goes past the frames in front of it. -/
theorem Scan.run_laid {frames : ByteArray} (laid : Record.Laid records frames)
    (stands : reader.Stands (front ++ (frames ++ rest)) front.size front.size)
    (reached : scan.validBytes = front.size)
    (consecutive : Record.Consecutive (scan.lastLsn + 1) records) :
    ∃ reader' : Reader,
      Scan.run (.regular (front ++ (frames ++ rest))) reader scan =
        Scan.run (.regular (front ++ (frames ++ rest))) reader'
          (scan.past records frames.size) ∧
      reader'.Stands (front ++ (frames ++ rest)) (front ++ frames).size
        (front ++ frames).size := by
  induction laid generalizing front reader scan with
  | nil =>
    rw [ByteArray.append_empty]
    exact ⟨reader, by rw [ByteArray.size_empty, past_nil], stands⟩
  | @cons r records frame frames first onward ih =>
    obtain ⟨numbered, following⟩ := consecutive
    have whole : front ++ (frame ++ frames ++ rest) = front ++ frame ++ (frames ++ rest) := by
      simp only [ByteArray.append_assoc]
    obtain ⟨reader', read, stands'⟩ := Reader.next_ok stands (ByteArray.append_assoc ..) first
    rw [whole] at read stands' ⊢
    let next : Scan := { scan with
      records := scan.records.push r
      lastLsn := r.lsn
      validBytes := scan.validBytes + frame.size }
    have step : Scan.run (.regular (front ++ frame ++ (frames ++ rest))) reader scan =
        Scan.run (.regular (front ++ frame ++ (frames ++ rest))) reader' next := by
      have forward : reader.position < reader'.position ∧
          reader'.position ≤ (Content.regular (front ++ frame ++ (frames ++ rest))).size := by
        have size := first.whole
        rw [stands.position, stands'.position, Content.size,
          ByteArray.size_append (a := front ++ frame), ByteArray.size_append]
        unfold headerSize at size
        omega
      rw [Scan.run, read]
      simp only
      rw [if_pos numbered, if_pos forward, stands'.position, ByteArray.size_append, ← reached]
    have reached' : next.validBytes = (front ++ frame).size := by
      rw [ByteArray.size_append, ← reached]
    have following' : Record.Consecutive (next.lastLsn + 1) records := by
      rwa [← numbered] at following
    obtain ⟨last, run, stands''⟩ := ih stands' reached' following'
    refine ⟨last, ?_, ?_⟩
    · rw [step, run, ByteArray.size_append, scan.past_cons r records _ _ numbered]
    · have behind : front ++ frame ++ frames = front ++ (frame ++ frames) :=
        ByteArray.append_assoc
      rwa [behind] at stands''

/-! ## Where a scan stops -/

/-- No frame of a record of this number stands at the beginning. -/
def Refused (lsn : UInt64) (b : ByteArray) : Prop :=
  ∀ r : Record, Record.ofFrame b = .ok r → r.lsn ≠ lsn

/-- A full header stands at the beginning, and it can be seen that the frame is not that of the
record of this number: the length is too long for a frame, or the body is all there, and either
fails to be decoded or belongs to a record of another number. -/
def Corrupt (lsn : UInt64) (b : ByteArray) : Prop :=
  headerSize ≤ b.size ∧
    (maxRecordSize < Header.announced b ∨
      headerSize + Header.announced b ≤ b.size ∧
        ((∃ cause, Record.ofFrame b = .error cause) ∨
          ∃ r, Record.ofFrame b = .ok r ∧ r.lsn ≠ lsn))

/-- A scan stops in front of what is not the next record, and tells it if it is corrupt. -/
theorem Scan.run_end (stands : reader.Stands (front ++ rest) front.size front.size)
    (refused : Refused (scan.lastLsn + 1) rest) :
    (Corrupt (scan.lastLsn + 1) rest → Scan.run (.regular (front ++ rest)) reader scan =
      .ok { scan with corrupted := scan.corrupted + 1 }) ∧
    (¬ Corrupt (scan.lastLsn + 1) rest → Scan.run (.regular (front ++ rest)) reader scan =
      .ok scan) := by
  rw [Scan.run]
  cases read : Record.ofFrame rest with
  | ok r =>
    -- a frame of another number
    have other := refused r read
    obtain ⟨frame, behind, begins, isFrame⟩ := Record.ofFrame_eq_ok_iff_isFrame.mp read
    obtain ⟨whole, -, -⟩ := Record.ofFrame_eq_ok read
    have corrupt : Corrupt (scan.lastLsn + 1) rest :=
      ⟨by omega, .inr ⟨whole, .inr ⟨r, read, other⟩⟩⟩
    obtain ⟨reader', next, -⟩ := Reader.next_ok stands begins isFrame
    rw [next]
    exact ⟨fun _ => if_neg other, fun intact => absurd corrupt intact⟩
  | error cause =>
    have wrong : ∀ r, Record.ofFrame rest ≠ .ok r := by
      intro r
      rw [read]
      exact nofun
    constructor
    · rintro ⟨header, looked⟩
      obtain ⟨cause, reader', next, -⟩ :=
        Reader.next_error stands header (looked.imp_right And.left) wrong
      rw [next]
    · intro intact
      obtain ⟨reader', next, -⟩ := Reader.next_torn stands
        (Nat.not_le.mp fun whole => intact ⟨by omega, .inr ⟨whole, .inl ⟨cause, read⟩⟩⟩)
        (fun header => Nat.not_lt.mp fun long => intact ⟨header, .inl long⟩)
      rw [next]

/-! ## The valid prefix -/

/-- The records and the survey are those of the longest valid prefix of a file, and of what follows
it. -/
structure Finds (b : ByteArray) (records : List Record) (s : Survey) : Prop where
  within : s.validBytes ≤ b.size
  laid : Record.Laid records (b.extract 0 s.validBytes)
  numbered : Record.Consecutive 1 records
  maximal : Refused (UInt64.ofNat (records.length + 1)) (b.extract s.validBytes b.size)
  recovered : s.recovered = records.length
  lastLsn : s.lastLsn = UInt64.ofNat records.length
  truncated : s.truncated = true ↔ s.validBytes < b.size
  corrupted : s.corrupted = 1 ↔
    Corrupt (UInt64.ofNat (records.length + 1)) (b.extract s.validBytes b.size)
  intact : s.corrupted = 0 ↔
    ¬ Corrupt (UInt64.ofNat (records.length + 1)) (b.extract s.validBytes b.size)

/-- A survey tells what the file is found to be. -/
theorem Finds.ofContent (h : Finds b records s) :
    ofContent (.regular b) = .ok (records, s) := by
  obtain ⟨front, rest, rfl, reached⟩ := Bytes.exists_append h.within
  obtain ⟨recovered, corrupted, lastLsn, truncated, validBytes⟩ := s
  obtain ⟨-, laid, numbered, maximal, rfl, rfl, cut, corrupt, intact⟩ := h
  dsimp only at reached laid maximal cut corrupt intact
  subst reached
  rw [ByteArray.extract_append_eq_left rfl] at laid
  rw [ByteArray.extract_append_eq_right rfl ByteArray.size_append] at maximal corrupt intact
  let start : Scan := ⟨#[], 0, 0, 0⟩
  have begun : Reader.start.Stands (.empty ++ (front ++ rest)) ByteArray.empty.size
    ByteArray.empty.size := Reader.stands_start _
  have reached : start.validBytes = ByteArray.empty.size := rfl
  obtain ⟨reader, run, stands⟩ := Scan.run_laid laid begun reached numbered
  rw [ByteArray.empty_append] at run
  rw [ByteArray.empty_append, ByteArray.empty_append] at stands
  have next : (start.past records front.size).lastLsn + 1 = UInt64.ofNat (records.length + 1) := by
    rw [← Record.one_add_ofNat, UInt64.add_comm]
    simp [Scan.past, start]
  rw [← next] at maximal corrupt intact
  obtain ⟨told, silent⟩ := Scan.run_end stands maximal
  have whole : decide (front.size < (front ++ rest).size) = truncated := by
    rw [← Bool.coe_iff_coe, decide_eq_true_iff, cut]
  rw [Survey.ofContent, run]
  by_cases seen : Corrupt ((start.past records front.size).lastLsn + 1) rest
  · have one := corrupt.mpr seen
    subst one
    rw [told seen]
    simp only [Except.map, Scan.past, Content.size, start, Nat.zero_add, whole]
    simp
  · have none := intact.mpr seen
    subst none
    rw [silent seen]
    simp only [Except.map, Scan.past, Content.size, start, Nat.zero_add, whole]
    simp

/-! ## Every file has a valid prefix -/

/-- Every file is frames of consecutive records, and then no frame of the next one. -/
theorem exists_laid (b : ByteArray) (lsn : UInt64) :
    ∃ records front rest, b = front ++ rest ∧ Record.Laid records front ∧
      Record.Consecutive lsn records ∧ Refused (lsn + UInt64.ofNat records.length) rest := by
  induction size : b.size using Nat.strongRecOn generalizing b lsn with
  | _ n ih =>
    by_cases next : ∃ r, Record.ofFrame b = .ok r ∧ r.lsn = lsn
    · obtain ⟨r, read, numbered⟩ := next
      obtain ⟨frame, behind, rfl, isFrame⟩ := Record.ofFrame_eq_ok_iff_isFrame.mp read
      have shorter : behind.size < n := by
        have whole := isFrame.whole
        rw [← size, ByteArray.size_append]
        unfold headerSize at whole
        omega
      obtain ⟨records, front, rest, rfl, laid, following, refused⟩ :=
        ih behind.size shorter behind (lsn + 1) rfl
      refine ⟨r :: records, frame ++ front, rest, ByteArray.append_assoc.symm, .cons isFrame laid,
        ⟨numbered, following⟩, ?_⟩
      rwa [List.length_cons, ← Record.ofNat_length_cons]
    · refine ⟨[], .empty, b, ByteArray.empty_append.symm, .nil, trivial, ?_⟩
      intro r read numbered
      exact next ⟨r, read, by simpa using numbered⟩

/-- The valid prefix of a file, and what a survey has to tell of it. -/
theorem exists_finds (b : ByteArray) : ∃ records s, Finds b records s := by
  obtain ⟨records, front, rest, rfl, laid, numbered, refused⟩ := exists_laid b 1
  rw [Record.one_add_ofNat] at refused
  have front_eq : (front ++ rest).extract 0 front.size = front :=
    ByteArray.extract_append_eq_left rfl
  have rest_eq : (front ++ rest).extract front.size (front ++ rest).size = rest :=
    ByteArray.extract_append_eq_right rfl ByteArray.size_append
  classical
  let corrupted := if Corrupt (UInt64.ofNat (records.length + 1)) rest then 1 else 0
  refine ⟨records, ⟨records.length, corrupted, UInt64.ofNat records.length,
    decide (front.size < (front ++ rest).size), front.size⟩, ?_, ?_, numbered, ?_, rfl, rfl,
    decide_eq_true_iff, ?_, ?_⟩
  · rw [ByteArray.size_append]
    exact Nat.le_add_right ..
  · rwa [front_eq]
  · rwa [rest_eq]
  · rw [rest_eq]
    simp [corrupted]
  · rw [rest_eq]
    simp [corrupted]

/-- The bytes end before a frame does that they may begin with. -/
structure Torn (b : ByteArray) : Prop where
  missing : b.size < headerSize + Header.announced b
  possible : headerSize ≤ b.size → Header.announced b ≤ maxRecordSize

theorem torn_empty : Torn .empty where
  missing := by decide
  possible h := absurd h (by decide)

/-- What is torn is never taken for a record. -/
theorem Torn.refused (h : Torn b) (lsn : UInt64) : Refused lsn b := by
  intro r read
  have whole := (Record.ofFrame_eq_ok read).1
  have missing := h.missing
  unfold Header.announced at missing
  omega

/-- Nor for a corruption. -/
theorem Torn.intact (h : Torn b) (lsn : UInt64) : ¬ Corrupt lsn b := by
  rintro ⟨header, long | ⟨whole, -⟩⟩
  · exact absurd (h.possible header) (Nat.not_le.mpr long)
  · exact absurd h.missing (Nat.not_lt.mpr whole)

/-- A file that is whole frames and a torn one is found to be the whole ones. -/
theorem finds_torn (laid : Record.Laid records front) (numbered : Record.Consecutive 1 records)
    (torn : Torn rest) :
    Finds (front ++ rest) records
      ⟨records.length, 0, UInt64.ofNat records.length, decide (0 < rest.size), front.size⟩ := by
  have front_eq : (front ++ rest).extract 0 front.size = front :=
    ByteArray.extract_append_eq_left rfl
  have rest_eq : (front ++ rest).extract front.size (front ++ rest).size = rest :=
    ByteArray.extract_append_eq_right rfl ByteArray.size_append
  refine ⟨?_, ?_, numbered, ?_, rfl, rfl, ?_, ?_, ?_⟩
  · rw [ByteArray.size_append]
    exact Nat.le_add_right ..
  · rwa [front_eq]
  · rw [rest_eq]
    exact torn.refused _
  · simp [ByteArray.size_append]
  · rw [rest_eq]
    exact ⟨nofun, fun seen => absurd seen (torn.intact _)⟩
  · rw [rest_eq]
    exact ⟨fun _ => torn.intact _, fun _ => rfl⟩

/-- A file that is whole frames and nothing else is found to be just these. -/
theorem finds_laid (laid : Record.Laid records b) (numbered : Record.Consecutive 1 records) :
    Finds b records ⟨records.length, 0, UInt64.ofNat records.length, false, b.size⟩ := by
  have finds := finds_torn laid numbered torn_empty
  rwa [ByteArray.append_empty] at finds

end Survey

/-- A survey of any file gives its longest prefix of whole, consecutively numbered frames: each
record in it is the one found in its frame, and behind it no frame of the next record stands. No
number wraps around on a file of a possible length. -/
theorem survey_finds_valid_prefix (b : ByteArray) :
    ∃ records s, Survey.ofContent (.regular b) = .ok (records, s) ∧ Survey.Finds b records s ∧
      (b.size ≤ maxFileSize → s.lastLsn.toNat = records.length ∧
        ∀ (i : Nat) (h : i < records.length), records[i].lsn.toNat = i + 1) := by
  obtain ⟨records, s, finds⟩ := Survey.exists_finds b
  refine ⟨records, s, finds.ofContent, finds, ?_⟩
  intro small
  have few : records.length < UInt64.size := by
    have length := finds.laid.length_le
    rw [ByteArray.size_extract] at length
    have possible : maxFileSize < UInt64.size := by decide
    omega
  have word {n : Nat} (h : n ≤ records.length) : (UInt64.ofNat n).toNat = n :=
    UInt64.toNat_ofNat_of_lt (by omega)
  constructor
  · rw [finds.lastLsn, word (Nat.le_refl _)]
  · intro i h
    rw [finds.numbered.getElem i h, Record.one_add_ofNat, word h]

end DurableLog
