import DurableLog.Proofs.Reopening

/-!
# What a failed opening leaves on the disk

Opening a log cuts the damage behind the valid records off before it looks at what they say, so a
log that does not open for what they say has still had its file repaired. Nothing else is changed
(`failed_open_keeps_valid_records`):

* with wrong settings the disk is not touched;
* otherwise it is the valid records that lead to no state, and just these are left;
* either way the fault is the same the next time, and the disk is left alone from then on.
-/

namespace DurableLog

namespace Disk

variable {d d' : Disk} {file : Nat} {b : ByteArray} {records : List Record} {s : Survey}
  {config : Config} {fault : Fault}

/-- Wrong settings are told before anything is done. -/
theorem openLog_of_not_valid (wrong : ¬ config.Valid) :
    ∃ cause, d.openLog config = (.error (.settings cause), d) := by
  rw [← config.fault?_eq_none_iff] at wrong
  obtain ⟨cause, told⟩ := Option.ne_none_iff_exists'.mp wrong
  exact ⟨cause, by rw [openLog, told]⟩

/-- With valid settings opening fails for what the valid records say. The damage behind them has
been cut off by then. -/
theorem Stores.of_openLog_error (h : d.Stores file b) (finds : Survey.Finds b records s)
    (valid : config.Valid) (fails : d.openLog config = (.error fault, d')) :
    config.dataDir.isSome ∧ Replica.ofRecords records = .error fault ∧
      d' = d.repaired file b s := by
  have durable : config.dataDir.isSome := by
    rw [Option.isSome_iff_ne_none]
    intro none
    simp [Disk.openLog, config.fault?_eq_none_iff.mpr valid, none] at fails
  rcases h.openLog_cases finds valid durable with ⟨_, _, -, opens⟩ | ⟨_, leads, opens⟩
  · cases opens.symm.trans fails
  · cases opens.symm.trans fails
    exact ⟨durable, leads, rfl⟩

/-- The repair leaves the bytes alone exactly if nothing is damaged. -/
theorem extract_validBytes_eq_iff (finds : Survey.Finds b records s) :
    b.extract 0 s.validBytes = b ↔ s.truncated = false := by
  constructor
  · intro same
    have size := congrArg ByteArray.size same
    rw [ByteArray.size_extract] at size
    exact Bool.eq_false_iff.mpr fun cut => by
      have behind := finds.truncated.mp cut
      omega
  · intro whole
    exact finds.extract_of_not_truncated (by simp [whole])

end Disk

/-- A log does not open on a log file of any bytes. If the settings are wrong the bytes are the same
as before. Otherwise the valid records in front lead to no state, and they are what is left of the
bytes, so that the bytes are the same exactly if nothing stands behind these records. Nothing else
on the disk is changed, and the next opening fails in the same way and changes nothing. -/
theorem failed_open_keeps_valid_records {d d' : Disk} {file : Nat} {b : ByteArray}
    (stores : d.Stores file b) {config : Config} {fault : Fault}
    (fails : d.openLog config = (.error fault, d')) :
    ∃ records s b', Survey.Finds b records s ∧
      d' = d.setContent file (.regular b') ∧ d'.Stores file b' ∧
      (¬ config.Valid → b' = b) ∧
      (config.Valid →
        Replica.ofRecords records = .error fault ∧ b' = b.extract 0 s.validBytes) ∧
      (b' = b ↔ ¬ config.Valid ∨ s.truncated = false) ∧
      d'.openLog config = (.error fault, d') := by
  obtain ⟨records, s, finds⟩ := Survey.exists_finds b
  by_cases valid : config.Valid
  · obtain ⟨durable, leads, rfl⟩ := stores.of_openLog_error finds valid fails
    have left : (d.repaired file b s).Stores file (b.extract 0 s.validBytes) :=
      stores.setContent _
    refine ⟨records, s, _, finds, rfl, left, absurd valid, fun _ => ⟨leads, rfl⟩, ?_, ?_⟩
    · rw [Disk.extract_validBytes_eq_iff finds, or_iff_right (not_not_intro valid)]
    · have again := left.openLog_error finds.cut leads valid durable
      rwa [left.repaired_eq finds.cut rfl] at again
  · obtain ⟨cause, told⟩ := d.openLog_of_not_valid valid
    cases told.symm.trans fails
    refine ⟨records, s, b, finds, stores.setContent_self.symm, stores, fun _ => rfl,
      fun sound => absurd sound valid, iff_of_true rfl (.inl valid), told⟩

/-- An append that leaves a gap. -/
def Record.gapped : Record := ⟨1, .append 5 [], 0⟩

/-- A log file of its frame and one byte of the next one. -/
def Disk.gapped : Disk :=
  ({ blank "data" with place := .aDirectory } : Disk).addLog
    (.regular (Record.gapped.frame ++ ⟨#[9]⟩))

theorem Disk.stores_gapped : gapped.Stores 0 (Record.gapped.frame ++ ⟨#[9]⟩) :=
  ⟨rfl, rfl, Nat.zero_lt_one, rfl⟩

theorem Disk.finds_gapped : Survey.Finds (Record.gapped.frame ++ ⟨#[9]⟩) [Record.gapped]
    ⟨1, 0, 1, true, Record.gapped.frame.size⟩ := by
  have fits : Record.gapped.Fits := by
    simp [Record.gapped, Record.Fits, Record.size_encode, Body.fields, Body.entries, maxRecordSize]
  have laid := Record.Laid.cons (Record.isFrame_frame fits) .nil
  rw [ByteArray.append_empty] at laid
  exact Survey.finds_torn laid ⟨rfl, trivial⟩ ⟨by decide, by decide⟩

/-- The log does not open for the gap. -/
theorem Disk.openLog_gapped : gapped.openLog .inData =
    (.error (.corruption (.misplacedAppend 1 5 1)),
      gapped.repaired 0 (Record.gapped.frame ++ ⟨#[9]⟩)
        ⟨1, 0, 1, true, Record.gapped.frame.size⟩) :=
  stores_gapped.openLog_error finds_gapped rfl Config.valid_inData rfl

/-- An opening that finds the append with a gap keeps it, and fails again. -/
theorem failed_open_keeps_valid_records_gapped :
    ∃ d', Disk.gapped.openLog .inData = (.error (.corruption (.misplacedAppend 1 5 1)), d') ∧
      d'.Stores 0 Record.gapped.frame ∧
      d'.openLog .inData = (.error (.corruption (.misplacedAppend 1 5 1)), d') := by
  obtain ⟨records, s, b', finds, -, stores, -, kept, -, again⟩ :=
    failed_open_keeps_valid_records Disk.stores_gapped Disk.openLog_gapped
  refine ⟨_, Disk.openLog_gapped, ?_, again⟩
  cases finds.ofContent.symm.trans Disk.finds_gapped.ofContent
  obtain ⟨-, rfl⟩ := kept Config.valid_inData
  rwa [ByteArray.extract_append_eq_left rfl] at stores

/-- The byte behind the frame is gone after that. -/
theorem failed_open_cuts_file :
    Disk.gapped.content 0 = .regular (Record.gapped.frame ++ ⟨#[9]⟩) ∧
      (Disk.gapped.openLog .inData).1 = .error (.corruption (.misplacedAppend 1 5 1)) ∧
      (Disk.gapped.openLog .inData).2.content 0 = .regular Record.gapped.frame ∧
      (Disk.gapped.openLog .inData).2.content 0 ≠ Disk.gapped.content 0 := by
  have after : (Disk.gapped.openLog .inData).2.content 0 = .regular Record.gapped.frame := by
    rw [Disk.openLog_gapped, Disk.repaired, Disk.content_setContent Disk.stores_gapped.valid,
      ByteArray.extract_append_eq_left rfl]
  refine ⟨rfl, by rw [Disk.openLog_gapped], after, ?_⟩
  rw [after, Disk.stores_gapped.content]
  intro same
  have size := congrArg ByteArray.size (Content.regular.inj same)
  rw [ByteArray.size_append] at size
  exact absurd size (by decide)

end DurableLog
