import DurableLog.Proofs.Recovery
import DurableLog.Proofs.Room

/-!
# A file cut at any byte

A crash may leave any beginning of a log file. What is left is whole frames and a part of the next
one, or nothing of it (`Record.exists_cut`), and such a part is never taken for a record or for
damage (`Record.torn_extract`). So a survey of what is left gives the records whose frames are
whole; a journal that is opened on it goes on behind them; and whoever appends the missing changes
again, in calls of any kind, has all of them back (`cut_file_resumes`).

Where the first frames end is told by `Record.endOf`.
-/

namespace DurableLog

namespace Record

/-! ## Where frames end -/

/-- Where the first `i` frames of the file end. -/
def endOf (records : List Record) (i : Nat) : Nat := (frames (records.take i)).size

variable {r : Record} {records rest : List Record} {i j k m : Nat}

@[simp] theorem endOf_zero (records : List Record) : endOf records 0 = 0 := rfl

@[simp] theorem endOf_cons (r : Record) (rest : List Record) (i : Nat) :
    endOf (r :: rest) (i + 1) = r.frame.size + endOf rest i := by
  rw [endOf, List.take_succ_cons, frames_cons, ByteArray.size_append, endOf]

theorem endOf_le (records : List Record) (le : i ≤ j) : endOf records i ≤ endOf records j := by
  obtain ⟨more, whole⟩ := List.take_prefix_take_left (l := records) le
  rw [endOf, endOf, ← whole, frames_append, ByteArray.size_append]
  exact Nat.le_add_right ..

/-! ## What a cut leaves -/

/-- A beginning of a frame that is not all of it is torn. -/
theorem torn_extract (fits : r.Fits) (short : k < r.frame.size) :
    Survey.Torn (r.frame.extract 0 k) := by
  have whole := (isFrame_frame fits).whole
  have size : (r.frame.extract 0 k).size = k := by
    rw [ByteArray.size_extract]
    omega
  -- as soon as the header is there it announces what it announces in the whole frame
  have announced (header : headerSize ≤ k) :
      Header.announced (r.frame.extract 0 k) = Header.announced r.frame := by
    have front : Bytes.slice (r.frame.extract 0 k) 0 headerSize =
        Bytes.slice r.frame 0 headerSize := by
      have slice : r.frame.extract 0 k = Bytes.slice r.frame 0 k := by
        rw [Bytes.slice, Nat.zero_add]
      rw [slice, Bytes.slice_slice _ _ _ _ _ (by omega), Nat.add_zero]
    rw [Header.announced, Header.announced, ← Header.decode_slice (by rwa [size]), front,
      Header.decode_slice (by omega)]
  constructor
  · rw [size]
    by_cases header : headerSize ≤ k
    · rw [announced header]
      omega
    · omega
  · rw [size]
    intro header
    rw [announced header]
    rw [size_frame] at whole
    unfold Fits at fits
    omega

/-- The first `k` bytes of frames are the first `m` frames and a torn one. -/
structure Cut (records : List Record) (k m : Nat) (torn : ByteArray) : Prop where
  le : m ≤ records.length
  bytes : (frames records).extract 0 k = frames (records.take m) ++ torn
  ends : Survey.Torn torn
  place : k = endOf records m + torn.size
  next : m < records.length → k < endOf records (m + 1)

theorem exists_cut (fits : ∀ r ∈ records, r.Fits) (within : k ≤ (frames records).size) :
    ∃ m torn, Cut records k m torn := by
  induction records generalizing k with
  | nil =>
    have nothing : k = 0 := Nat.le_zero.mp within
    subst nothing
    exact ⟨0, .empty, Nat.le_refl _, rfl, Survey.torn_empty, rfl, fun lt => absurd lt (by simp)⟩
  | cons r rest ih =>
    obtain ⟨first, others⟩ := List.forall_mem_cons.mp fits
    rw [frames_cons, ByteArray.size_append] at within
    have parts : (frames (r :: rest)).extract 0 k =
        r.frame.extract 0 k ++ (frames rest).extract 0 (k - r.frame.size) := by
      rw [frames_cons, ByteArray.extract_append, Nat.zero_sub]
    by_cases short : k < r.frame.size
    · have none : (frames rest).extract 0 (k - r.frame.size) = .empty := by
        rw [Nat.sub_eq_zero_of_le (Nat.le_of_lt short), ByteArray.extract_same]
      refine ⟨0, r.frame.extract 0 k, Nat.zero_le _, ?_, torn_extract first short, ?_, ?_⟩
      · rw [parts, none, ByteArray.append_empty]
        exact ByteArray.empty_append.symm
      · rw [endOf_zero, ByteArray.size_extract]
        omega
      · rintro -
        rwa [endOf_cons, endOf_zero]
    · have whole : r.frame.extract 0 k = r.frame := by
        have all : r.frame.data.size ≤ k := Nat.not_lt.mp short
        ext1
        rw [ByteArray.data_extract, Array.extract_eq_self_of_le all]
      obtain ⟨m, torn, cut⟩ := ih others (k := k - r.frame.size) (by omega)
      have place := cut.place
      refine ⟨m + 1, torn, Nat.succ_le_succ cut.le, ?_, cut.ends, ?_, ?_⟩
      · rw [parts, whole, cut.bytes, List.take_succ_cons, frames_cons, ByteArray.append_assoc]
      · rw [endOf_cons]
        omega
      · intro lt
        have onward := cut.next (Nat.lt_of_succ_lt_succ lt)
        rw [endOf_cons]
        omega

variable {torn : ByteArray}

/-- The frames that are left whole are those that end within the first `k` bytes. -/
theorem Cut.lt_iff (h : Cut records k m torn) (lt : i < records.length) :
    i < m ↔ endOf records (i + 1) ≤ k := by
  have place := h.place
  constructor
  · intro before
    have le : endOf records (i + 1) ≤ endOf records m := endOf_le records before
    omega
  · intro within
    refine Nat.lt_of_not_le fun behind => ?_
    have next := h.next (Nat.lt_of_le_of_lt behind lt)
    have le : endOf records (m + 1) ≤ endOf records (i + 1) :=
      endOf_le records (Nat.succ_le_succ behind)
    omega

/-- Something is torn exactly when the cut is not where a frame ends. -/
theorem Cut.torn_iff (h : Cut records k m torn) :
    0 < torn.size ↔ ∀ i ≤ records.length, k ≠ endOf records i := by
  have place := h.place
  constructor
  · intro some i le same
    rcases Nat.lt_or_ge m i with behind | before
    · have next := h.next (Nat.lt_of_lt_of_le behind le)
      have le : endOf records (m + 1) ≤ endOf records i := endOf_le records behind
      omega
    · have le := endOf_le records before
      omega
  · intro inside
    have other := inside m h.le
    omega

/-- A survey of what is left. -/
theorem Cut.finds (h : Cut records k m torn) (fits : ∀ r ∈ records, r.Fits)
    (numbered : Consecutive 1 records) :
    Survey.Finds ((frames records).extract 0 k) (records.take m)
      ⟨m, 0, UInt64.ofNat m, decide (0 < torn.size), endOf records m⟩ := by
  have length : (records.take m).length = m := List.length_take_of_le h.le
  have front : Consecutive 1 (records.take m) := by
    rw [← List.take_append_drop m records] at numbered
    exact (consecutive_append.mp numbered).1
  have laid : Laid (records.take m) (frames (records.take m)) :=
    laid_frames fun r mem => fits r (List.mem_of_mem_take mem)
  have finds := Survey.finds_torn laid front h.ends
  rwa [length, ← h.bytes] at finds

end Record

/-! ## Appending behind what is left -/

/-- Calls on a journal that was opened on a file of any content: they all succeed if there is room
for their records, and if they all succeed their changes are found behind those that were there. -/
theorem Disk.Stores.performAll {d : Disk} {file : Nat} {b : ByteArray} {records : List Record}
    {s : Survey} (h : d.Stores file b) (finds : Survey.Finds b records s) (policy : SyncPolicy)
    (calls : List WriterCall) :
    ∃ j d' answers w f, Journal.openAt d policy = (.ok j, d') ∧
      WriterCall.performAll j.writer (⟨d', j.file, j.place⟩ : OpenFile) calls = (answers, w, f) ∧
      ((∀ c ∈ calls.flatMap WriterCall.changes, c.Fits) →
        s.validBytes + Change.framesSize (calls.flatMap WriterCall.changes) ≤ d.limit →
          ∀ answer ∈ answers, ∃ told, answer = .ok told) ∧
      ((∀ answer ∈ answers, ∃ told, answer = .ok told) →
        ∃ more s', f.disk.survey = .ok (records ++ more, s') ∧
          more.map Record.change = calls.flatMap WriterCall.changes ∧
          Record.Consecutive 1 (records ++ more) ∧ s'.corrupted = 0 ∧ s'.truncated = false) := by
  obtain ⟨j, opened, ends⟩ := h.openAt finds policy
  have room := OpenFile.roomy ends.disk.valid
  have start := ends.disk.atEnd ends.place
  have added := Writer.added_nil start ends.offset
  have size : (b.extract 0 s.validBytes).size = s.validBytes := by
    have within := finds.within
    rw [ByteArray.size_extract]
    omega
  refine ⟨j, _, _, _, _, opened, rfl, ?_, ?_⟩
  · intro fits below
    refine added.performAll_ok room ends.enabled fits ?_
    rw [size, List.nil_append]
    exact below
  · intro ok
    obtain ⟨-, after⟩ := added.performAll_of_ok ends.enabled ok
    obtain ⟨more, changes, consecutive, fits, atEnd⟩ := after.file
    obtain ⟨stores, -, -⟩ := ends.disk.of_atEnd atEnd
    have numbered : Record.Consecutive 1 (records ++ more) := by
      refine Record.consecutive_append.mpr ⟨finds.numbered, ?_⟩
      rw [ends.nextLsn, finds.lastLsn, UInt64.add_comm] at consecutive
      exact consecutive
    have laid := finds.laid.append (Record.laid_frames fits)
    exact ⟨more, _, stores.survey (Survey.finds_laid laid numbered), changes, numbered, rfl, rfl⟩

/-! ## The main result -/

/-- A survey of the first `k` bytes of the frames of records numbered from 1 on gives exactly the
records whose frames lie within these bytes, no corruption, and that something was cut off unless
the cut is where a frame ends. A journal that is opened on these bytes takes the missing changes
again, however they are put into calls, if the disk has room for the whole file; and once it has
taken them, the changes are found that were there before, in order. -/
theorem cut_file_resumes {records : List Record} (numbered : Record.Consecutive 1 records)
    (serialized : ∀ r ∈ records, r.toFrame = .ok r.frame) {k : Nat}
    (within : k ≤ (Record.frames records).size) :
    ∃ m s, m ≤ records.length ∧
      (∀ i < records.length, i < m ↔ Record.endOf records (i + 1) ≤ k) ∧
      Survey.ofContent (.regular ((Record.frames records).extract 0 k)) =
        .ok (records.take m, s) ∧
      s.corrupted = 0 ∧ s.validBytes = Record.endOf records m ∧
      (s.truncated = true ↔ ∀ i ≤ records.length, k ≠ Record.endOf records i) ∧
      ∀ (d : Disk) (file : Nat) (policy : SyncPolicy) (calls : List WriterCall),
        d.Stores file ((Record.frames records).extract 0 k) →
        calls.flatMap WriterCall.changes = (records.drop m).map Record.change →
        ∃ j d' answers w f, Journal.openAt d policy = (.ok j, d') ∧
          WriterCall.performAll j.writer (⟨d', j.file, j.place⟩ : OpenFile) calls =
            (answers, w, f) ∧
          ((Record.frames records).size ≤ d.limit →
            ∀ answer ∈ answers, ∃ told, answer = .ok told) ∧
          ((∀ answer ∈ answers, ∃ told, answer = .ok told) →
            ∃ records' s', f.disk.survey = .ok (records', s') ∧
              records'.map Record.change = records.map Record.change ∧
              Record.Consecutive 1 records' ∧ s'.corrupted = 0 ∧ s'.truncated = false) := by
  have fits : ∀ r ∈ records, r.Fits := by
    intro r mem
    refine Classical.byContradiction fun long => ?_
    have refused := serialized r mem
    rw [Record.toFrame_of_not_fits long] at refused
    cases refused
  obtain ⟨m, torn, cut⟩ := Record.exists_cut fits within
  have finds := cut.finds fits numbered
  refine ⟨m, _, cut.le, fun i lt => cut.lt_iff lt, finds.ofContent, rfl, rfl, ?_, ?_⟩
  · rw [decide_eq_true_iff, cut.torn_iff]
  · intro d file policy calls stores again
    obtain ⟨j, d', answers, w, f, opened, made, room, found⟩ :=
      stores.performAll finds policy calls
    have parts : (Record.frames records).size =
        Record.endOf records m + Change.framesSize ((records.drop m).map Record.change) := by
      rw [← Record.size_frames, Record.endOf, ← ByteArray.size_append, ← Record.frames_append,
        List.take_append_drop]
    rw [again] at room found
    refine ⟨j, d', answers, w, f, opened, made, ?_, ?_⟩
    · intro below
      refine room ?_ (by rwa [← parts])
      intro c mem
      obtain ⟨r, missing, rfl⟩ := List.mem_map.mp mem
      exact r.fits_iff.mp (fits r (List.mem_of_mem_drop missing))
    · intro ok
      obtain ⟨more, s', survey, changes, consecutive, sound⟩ := found ok
      refine ⟨_, s', survey, ?_, consecutive, sound⟩
      rw [List.map_append, changes, ← List.map_append, List.take_append_drop]

/-- A file that is cut inside the body of its second frame. -/
theorem cut_file_resumes_inside :
    let first : Record := ⟨1, .commit 0, 7⟩
    let second : Record := ⟨2, .term 3 none, 9⟩
    let left := (Record.frames [first, second]).extract 0 70
    let disk : Disk :=
      ({ Disk.blank "data" with place := .aDirectory } : Disk).addLog (.regular left)
    (∃ s, Survey.ofContent (.regular left) = .ok ([first], s) ∧ s.corrupted = 0 ∧
      s.validBytes = 44 ∧ s.truncated = true) ∧
    ∃ j d' answers w f, Journal.openAt disk .everyWrite = (.ok j, d') ∧
      WriterCall.performAll j.writer (⟨d', j.file, j.place⟩ : OpenFile)
        [.sync, .append (fun _ => 11) second.change] = (answers, w, f) ∧
      (∀ answer ∈ answers, ∃ told, answer = .ok told) ∧
      ∃ records s, f.disk.survey = .ok (records, s) ∧
        records.map Record.change = [first.change, second.change] := by
  intro first second left disk
  let records := [first, second]
  have numbered : Record.Consecutive 1 records := ⟨rfl, rfl, trivial⟩
  have serialized : ∀ r ∈ records, r.toFrame = .ok r.frame := by
    have fits : ∀ r ∈ records, r.encode.size ≤ maxRecordSize := by decide +kernel
    exact fun r mem => Record.toFrame_of_fits (fits r mem)
  have length : records.length = 2 := rfl
  have one_ends : Record.endOf records 1 = 44 := by decide +kernel
  have two_end : Record.endOf records 2 = 89 := by decide +kernel
  have size : (Record.frames records).size = 89 := two_end
  obtain ⟨m, s, le, lies, surveyed, sound, valid, cut, reopened⟩ :=
    cut_file_resumes numbered serialized (k := 70) (by omega)
  have one : m = 1 := by
    have here : 0 < m ↔ Record.endOf records 1 ≤ 70 := lies 0 (by omega)
    have behind : 1 < m ↔ Record.endOf records 2 ≤ 70 := lies 1 (by omega)
    omega
  subst one
  have inside : ∀ i ≤ 2, 70 ≠ Record.endOf records i := by
    intro i bound
    obtain rfl | rfl | rfl : i = 0 ∨ i = 1 ∨ i = 2 := by omega
    · exact nofun
    · omega
    · omega
  have stores : disk.Stores 0 left := ⟨rfl, rfl, Nat.zero_lt_one, rfl⟩
  obtain ⟨j, d', answers, w, f, opened, made, room, found⟩ := reopened disk 0 .everyWrite
    [.sync, .append (fun _ => 11) second.change] stores rfl
  have taken := room (by rw [size]; decide)
  obtain ⟨after, s', told, changes, -⟩ := found taken
  exact ⟨⟨s, surveyed, sound, valid.trans one_ends, cut.mpr inside⟩, j, d', answers, w, f, opened,
    made, taken, after, s', told, changes⟩

end DurableLog
