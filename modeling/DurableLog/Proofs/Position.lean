import DurableLog.Proofs.Reading

/-!
# The position of a reader

A reader goes on behind a corruption, as often as it is asked. Its position is the length of the
frames that it has given out (`Reader.Called.counted`), while it stands behind all that it has
looked at. The two are the same as long as nothing was passed over (`Reader.Called.stands`), so that
is when the position is where the last record ends (`position_names_record_iff`). At least a header
is passed over with a corruption, and nothing makes up for it later.
-/

namespace DurableLog

namespace Reader

/-- What `n` calls give, and the reader behind them. -/
def calls (c : Content) (r : Reader) : Nat → List (Except Fault (Option Record)) × Reader
  | 0 => ([], r)
  | n + 1 =>
    let (results, r') := r.calls c n
    let (result, r'') := r'.next c
    (results ++ [result], r'')

/-- The records among what calls give. -/
def given (results : List (Except Fault (Option Record))) : List Record :=
  results.filterMap fun result => result.toOption.join

/-- None of the calls has told a fault. -/
def Clean (results : List (Except Fault (Option Record))) : Prop :=
  ∀ fault, .error fault ∉ results

variable {b front rest : ByteArray} {r : Reader} {record : Record}
  {results : List (Except Fault (Option Record))}

theorem given_concat_record :
    given (results ++ [.ok (some record)]) = given results ++ [record] := by
  simp [given, Except.toOption]

theorem given_concat_ended : given (results ++ [.ok none]) = given results := by
  simp [given, Except.toOption]

theorem given_concat_error {fault : Fault} :
    given (results ++ [.error fault]) = given results := by
  simp [given, Except.toOption]

theorem clean_concat_ok {found : Option Record} :
    Clean (results ++ [.ok found]) ↔ Clean results := by
  simp [Clean]

theorem not_clean_concat_error {fault : Fault} : ¬ Clean (results ++ [.error fault]) :=
  fun clean => clean fault (by simp)

/-! ## A torn reader -/

/-- A torn reader gives nothing, and stays as it is. -/
theorem next_of_torn (c : Content) (torn : r.torn = true) : r.next c = (.ok none, r) := by
  rw [next, if_pos torn]

theorem calls_of_torn (c : Content) (torn : r.torn = true) (k : Nat) :
    r.calls c k = (List.replicate k (.ok none), r) := by
  induction k with
  | zero => rfl
  | succ k ih =>
    rw [calls, ih]
    simp only [next_of_torn c torn, List.replicate_succ']

/-! ## Any number of calls -/

/-- What holds of a reader of a file once its calls have given these results. -/
structure Called (b : ByteArray) (results : List (Except Fault (Option Record))) (r : Reader) :
    Prop where
  /-- The position is the length of the frames that were given out. -/
  counted : ∃ frames, Record.Laid (given results) frames ∧ r.position = frames.size
  /-- Unless it is torn, the reader stands at its position or behind it, and at its position as long
  as no fault was told. -/
  stands : r.torn = false → ∃ front rest, b = front ++ rest ∧
    r.Stands b r.position front.size ∧ r.position ≤ front.size ∧
    (r.position = front.size ↔ Clean results)

theorem called_start (b : ByteArray) : Called b [] .start where
  counted := ⟨.empty, .nil, rfl⟩
  stands _ := ⟨.empty, b, ByteArray.empty_append.symm, stands_start b, Nat.le_refl _,
    iff_of_true rfl fun _ => List.not_mem_nil⟩

theorem Called.next {result : Except Fault (Option Record)} {r' : Reader}
    (h : Called b results r) (called : r.next (.regular b) = (result, r')) :
    Called b (results ++ [result]) r' := by
  obtain ⟨⟨frames, laid, counted⟩, standing⟩ := h
  cases torn : r.torn with
  | true =>
    cases (next_of_torn _ torn).symm.trans called
    refine ⟨⟨frames, ?_, counted⟩, fun whole => ?_⟩
    · rwa [given_concat_ended]
    · cases torn.symm.trans whole
  | false =>
    obtain ⟨front, rest, rfl, stands, behind, iff_clean⟩ := standing torn
    cases reads_of_next stands called with
    | @record frame after _ record begins isFrame stands' =>
      refine ⟨⟨frames ++ (frame ++ .empty), ?_, ?_⟩, fun _ => ⟨front ++ frame, after, ?_, ?_⟩⟩
      · rw [given_concat_record]
        exact laid.append (.cons isFrame .nil)
      · rw [stands'.position, counted, ByteArray.append_empty, ByteArray.size_append]
      · rw [begins, ← ByteArray.append_assoc]
      · rw [stands'.position, ByteArray.size_append, Nat.add_right_cancel_iff, clean_concat_ok]
        rw [ByteArray.size_append] at stands'
        exact ⟨stands', Nat.add_le_add_right behind _, iff_clean⟩
    | @passed looked after _ cause begins header stands' =>
      have more : 0 < headerSize := by decide
      refine ⟨⟨frames, ?_, ?_⟩, fun _ => ⟨front ++ looked, after, ?_, ?_⟩⟩
      · rwa [given_concat_error]
      · rw [stands'.position, counted]
      · rw [begins, ← ByteArray.append_assoc]
      · rw [stands'.position, ByteArray.size_append]
        rw [ByteArray.size_append] at stands'
        exact ⟨stands', by omega, iff_of_false (by omega) not_clean_concat_error⟩
    | ended nothing stands' =>
      refine ⟨⟨frames, ?_, ?_⟩, fun _ => ⟨front, rest, rfl, ?_⟩⟩
      · rwa [given_concat_ended]
      · rw [stands'.position, counted]
      · rw [stands'.position, clean_concat_ok]
        exact ⟨stands', behind, iff_clean⟩
    | torn torn' counted' =>
      refine ⟨⟨frames, ?_, ?_⟩, fun whole => ?_⟩
      · rwa [given_concat_ended]
      · rw [counted', counted]
      · cases torn'.symm.trans whole

theorem called_calls (b : ByteArray) (n : Nat) :
    Called b (start.calls (.regular b) n).1 (start.calls (.regular b) n).2 := by
  induction n with
  | zero => exact called_start b
  | succ n ih => exact ih.next rfl

end Reader

/-- A reader of any file is called any number of times. Its position is the length of the frames of
the records that it has given. If the next call gives a record, it is that of the frame in front of
the reader, which stands behind this frame then; and its position is the end of the frame exactly if
no call before has told a fault, and lies in front of it otherwise. Once the reader is torn, all
calls give nothing and leave it as it is. -/
theorem position_names_record_iff (b : ByteArray) (n : Nat) :
    ∃ results reader, Reader.start.calls (.regular b) n = (results, reader) ∧
      (∃ frames, Record.Laid (Reader.given results) frames ∧ reader.position = frames.size) ∧
      (∀ record after, reader.next (.regular b) = (.ok (some record), after) →
        ∃ front frame rest, b = front ++ (frame ++ rest) ∧ record.IsFrame frame ∧
          reader.ahead.place = front.size ∧ after.ahead.place = (front ++ frame).size ∧
          after.position ≤ (front ++ frame).size ∧
          (after.position = (front ++ frame).size ↔ Reader.Clean results)) ∧
      (reader.torn = true → ∀ k,
        reader.calls (.regular b) k = (List.replicate k (.ok none), reader)) := by
  have called := Reader.called_calls b n
  generalize Reader.start.calls (.regular b) n = calls at called
  obtain ⟨results, reader⟩ := calls
  refine ⟨results, reader, rfl, called.counted, fun record after gives => ?_,
    fun torn => Reader.calls_of_torn _ torn⟩
  cases torn : reader.torn with
  | true =>
    rw [Reader.next_of_torn _ torn] at gives
    cases gives
  | false =>
    obtain ⟨front, rest, rfl, stands, behind, iff_clean⟩ := called.stands torn
    cases Reader.reads_of_next stands gives with
    | record begins isFrame stands' =>
      refine ⟨front, _, _, by rw [← begins], isFrame, stands.place, stands'.place, ?_⟩
      rw [stands'.position, ByteArray.size_append, Nat.add_right_cancel_iff]
      exact ⟨Nat.add_le_add_right behind _, iff_clean⟩

/-- The frames of two commits. A byte in the body of the first one has been inverted. -/
def flippedCommits : ByteArray :=
  let first := Record.frame ⟨1, .commit 1, 0⟩
  first.set! 16 (first.get! 16 ^^^ 255) ++ Record.frame ⟨2, .commit 2, 0⟩

theorem toOption_ofFrame_flippedCommits : (Record.ofFrame flippedCommits).toOption = none := by
  decide +kernel

/-- The first commit is told as a corruption, and the second one is given all the same. The position
is 44 then, in the middle of the 88 bytes, and no frame of the second commit ends there. -/
theorem position_short_of_record :
    ∃ results reader, Reader.start.calls (.regular flippedCommits) 2 = (results, reader) ∧
      results.map Except.toOption = [none, some (some ⟨2, .commit 2, 0⟩)] ∧
      reader.position = 44 ∧ reader.ahead.place = 88 ∧
      ¬ ∃ front frame rest, flippedCommits = front ++ (frame ++ rest) ∧
        Record.IsFrame ⟨2, .commit 2, 0⟩ frame ∧ reader.position = (front ++ frame).size := by
  have called : (Reader.start.calls (.regular flippedCommits) 2).1.map Except.toOption =
        [none, some (some ⟨2, .commit 2, 0⟩)] ∧
      (Reader.start.calls (.regular flippedCommits) 2).2.position = 44 ∧
      (Reader.start.calls (.regular flippedCommits) 2).2.ahead.place = 88 := by
    decide +kernel
  refine ⟨_, _, (Prod.eta _).symm, called.1, called.2.1, called.2.2, ?_⟩
  rw [called.2.1]
  rintro ⟨front, frame, rest, split, isFrame, ends⟩
  -- so long is a frame of the second commit that nothing stands in front of it
  obtain ⟨body, left, begins, -, rfl⟩ := Record.isFrame_iff.mp isFrame
  have long : (Record.encode ⟨2, .commit 2, 0⟩).size = 28 := by
    simp [Record.size_encode, Body.fields]
  rw [ByteArray.size_append, Record.size_layout, begins, ByteArray.size_append, long] at ends
  unfold headerSize at ends
  have nothing : front = .empty := ByteArray.size_eq_zero_iff.mp (by omega)
  rw [nothing, ByteArray.empty_append] at split
  have found := Record.ofFrame_eq_ok_iff_isFrame.mpr ⟨_, rest, split, isFrame⟩
  cases (congrArg Except.toOption found).symm.trans toOption_ofFrame_flippedCommits

end DurableLog
