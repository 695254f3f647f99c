import DurableLog.Journal.Store
import DurableLog.Proofs.DiskFile
import DurableLog.Proofs.Survey

/-!
# Recovering a log file of any content

Three ways lead past damage in a log file: a survey stops in front of it, a recovery cuts it off,
and a journal that is opened cuts it off and writes there. They agree on the place, for all three
rest on one survey (`Survey.Finds`), and what is left is whole frames, in which nothing is damaged
any more (`Survey.Finds.cut`).

`Disk.Stores` says what the bytes of the log file are, `Journal.Ends` that a journal stands at their
end. A call of the journal adds the frames of its changes to whatever bytes there are, or leaves
them as they are (`Journal.Ends.appendAll`).
-/

namespace DurableLog

/-- The log file of the disk is a regular file of these bytes. -/
structure Disk.Stores (d : Disk) (file : Nat) (b : ByteArray) : Prop where
  place : d.place = .aDirectory
  named : d.named = some file
  valid : file < d.files.size
  content : d.content file = .regular b

/-- The journal stands at the end of the log file, and goes on with this number. -/
structure Journal.Ends (j : Journal) (d : Disk) (b : ByteArray) (lsn : UInt64) : Prop where
  disk : d.Stores j.file b
  enabled : j.writer.disabled = false
  offset : j.writer.offset = b.size
  place : j.place = b.size
  nextLsn : j.writer.nextLsn = lsn

/-- The journal behind the valid bytes of a file. -/
def Journal.behind (d : Disk) (file : Nat) (s : Survey) (policy : SyncPolicy) : Journal :=
  ⟨⟨d.walPath, s.validBytes, s.lastLsn + 1, policy, 0, false⟩, file, s.validBytes⟩

namespace Survey

/-- What a survey tells once the damage is cut off. -/
def cut (s : Survey) : Survey := { s with corrupted := 0, truncated := false }

variable {b : ByteArray} {records : List Record} {s : Survey}

/-- The valid prefix of a file is all valid. -/
theorem Finds.cut (h : Finds b records s) : Finds (b.extract 0 s.validBytes) records s.cut := by
  have size : (b.extract 0 s.validBytes).size = s.validBytes := by
    have within := h.within
    rw [ByteArray.size_extract]
    omega
  have finds := finds_laid h.laid h.numbered
  rwa [size, ← h.lastLsn, ← h.recovered] at finds

theorem Finds.extract_of_not_truncated (h : Finds b records s) (whole : ¬ s.truncated = true) :
    b.extract 0 s.validBytes = b := by
  have all : s.validBytes = b.size := by
    have within := h.within
    have behind := mt h.truncated.mpr whole
    omega
  rw [all, ByteArray.extract_zero_size]

end Survey

namespace Disk

variable {d : Disk} {file : Nat} {b : ByteArray} {records : List Record} {s : Survey}

/-! ## Cutting damage off -/

theorem Stores.find (h : d.Stores file b) : d.find = .ok file := by
  simp only [Disk.find, h.place, h.named]

theorem Stores.hasLog (h : d.Stores file b) : d.hasLog = true := by
  rw [Disk.hasLog, h.find]

theorem Stores.setContent (h : d.Stores file b) (b' : ByteArray) :
    (d.setContent file (.regular b')).Stores file b' := by
  refine ⟨h.place, h.named, ?_, content_setContent h.valid _⟩
  rw [Disk.setContent, Array.size_setIfInBounds]
  exact h.valid

theorem Stores.setContent_self (h : d.Stores file b) : d.setContent file (.regular b) = d := by
  rw [← h.content, setContent_content h.valid]

/-- Cutting at the end of the valid prefix. -/
theorem Stores.setLength (h : d.Stores file b) (finds : Survey.Finds b records s) :
    d.setLength file s.validBytes =
      (.ok (), d.setContent file (.regular (b.extract 0 s.validBytes))) := by
  rw [Disk.setLength, h.content, Content.setLength_within _ finds.within]

theorem Stores.survey (h : d.Stores file b) (finds : Survey.Finds b records s) :
    d.survey = .ok (records, s) := by
  simp only [Disk.survey, h.find, h.content]
  exact finds.ofContent

/-- A recovery leaves the valid prefix. -/
theorem Stores.recover (h : d.Stores file b) (finds : Survey.Finds b records s) :
    d.recover =
      (.ok (records, s), d.setContent file (.regular (b.extract 0 s.validBytes))) := by
  simp only [Disk.recover, h.find, h.content, finds.ofContent]
  by_cases damaged : s.truncated = true
  · rw [if_pos damaged, h.setLength finds]
  · rw [if_neg damaged, finds.extract_of_not_truncated damaged, h.setContent_self]

theorem Stores.openAt_eq (h : d.Stores file b) (finds : Survey.Finds b records s)
    (policy : SyncPolicy) :
    Journal.openAt d policy =
      (.ok (.behind d file s policy),
        d.setContent file (.regular (b.extract 0 s.validBytes))) := by
  have opened : d.openOrCreate = .ok (file, d) := by
    simp only [Disk.openOrCreate, h.find, h.content]
  simp only [Journal.openAt, h.hasLog, if_true, h.survey finds, Except.map, opened, h.content,
    Content.size, Journal.behind]
  by_cases damaged : s.validBytes < b.size
  · rw [if_pos damaged, h.setLength finds]
  · rw [if_neg damaged, finds.extract_of_not_truncated (mt finds.truncated.mp damaged),
      h.setContent_self]

theorem Stores.ends (h : d.Stores file b) (finds : Survey.Finds b records s)
    (policy : SyncPolicy) :
    (Journal.behind d file s policy).Ends (d.setContent file (.regular (b.extract 0 s.validBytes)))
      (b.extract 0 s.validBytes) (s.lastLsn + 1) := by
  have size : s.validBytes = (b.extract 0 s.validBytes).size := by
    have within := finds.within
    rw [ByteArray.size_extract]
    omega
  exact ⟨h.setContent _, rfl, size, size, rfl⟩

/-- A journal that is opened leaves the valid prefix and stands at its end. -/
theorem Stores.openAt (h : d.Stores file b) (finds : Survey.Finds b records s)
    (policy : SyncPolicy) :
    ∃ j, Journal.openAt d policy =
        (.ok j, d.setContent file (.regular (b.extract 0 s.validBytes))) ∧
      j.Ends (d.setContent file (.regular (b.extract 0 s.validBytes)))
        (b.extract 0 s.validBytes) (s.lastLsn + 1) :=
  ⟨_, h.openAt_eq finds policy, h.ends finds policy⟩

/-! ## Going on behind what is there -/

/-- A writer of the log file finds the bytes in it. -/
theorem Stores.atEnd (h : d.Stores file b) {place : Nat} (behind : place = b.size) :
    (OpenFile.view d file h.valid).AtEnd ⟨d, file, place⟩ b := by
  have held : OpenFile.Of d file ⟨d, file, place⟩ b := by
    refine ⟨rfl, h.setContent_self.symm, ?_⟩
    rw [h.content]
    exact Nat.le_max_right _ _
  exact ⟨⟨_, held⟩, held.bytes h.valid, behind⟩

/-- What the writer leaves in the file is on the disk. -/
theorem Stores.of_atEnd (h : d.Stores file b) {f : OpenFile} {b' : ByteArray}
    (atEnd : (OpenFile.view d file h.valid).AtEnd f b') :
    f.disk.Stores f.file b' ∧ f.place = b'.size ∧ b'.size ≤ max maxFileSize b.size := by
  obtain ⟨⟨held, of⟩, bytes, behind⟩ := atEnd
  have whole : held = b' := (of.bytes h.valid).symm.trans bytes
  subst whole
  have small := of.small
  rw [h.content] at small
  refine ⟨?_, behind, small⟩
  rw [of.disk, of.number]
  exact h.setContent _

end Disk

namespace Journal

variable {j : Journal} {d : Disk} {b : ByteArray} {lsn : UInt64}

/-- The frames of the changes are added, numbered as the journal stands, or nothing is written. -/
theorem Ends.appendAll (h : j.Ends d b lsn) (stamps : UInt64 → UInt64) (changes : List Change) :
    match j.appendAll stamps d changes with
    | (.ok _, j', d') =>
      j'.Ends d' (b ++ Record.frames (Record.numbered stamps lsn changes))
          (lsn + UInt64.ofNat changes.length) ∧
        (∀ r ∈ Record.numbered stamps lsn changes, r.Fits) ∧
        (b ++ Record.frames (Record.numbered stamps lsn changes)).size ≤ max maxFileSize b.size
    | (.error _, j', d') => j'.Ends d' b lsn := by
  have appended := Writer.appendAll_spec (w := j.writer) stamps (h.disk.atEnd h.place) h.offset
    h.enabled changes
  rw [h.nextLsn] at appended
  simp only [Journal.appendAll, withFile]
  cases ended : j.writer.appendAll stamps (⟨d, j.file, j.place⟩ : OpenFile) changes with
  | mk result rest =>
    obtain ⟨writer, f⟩ := rest
    rw [ended] at appended
    cases result with
    | ok last =>
      obtain ⟨atEnd, fits, written⟩ := appended
      obtain ⟨disk, place, small⟩ := h.disk.of_atEnd atEnd
      refine ⟨⟨disk, ?_, ?_, place, ?_⟩, fits, small⟩ <;> rw [written]
      · exact h.enabled
      · rw [h.offset, ByteArray.size_append]
    | error fault =>
      -- the file was cut back, as a regular file always can be
      rcases appended with ⟨rfl, atEnd⟩ | ⟨stuck, -⟩
      · obtain ⟨disk, place, -⟩ := h.disk.of_atEnd atEnd
        exact ⟨disk, h.enabled, h.offset, place, h.nextLsn⟩
      · exact absurd stuck (OpenFile.not_stuck h.disk.valid _)

/-- The journal goes on behind these records: their frames are all that is in the log file, whoever
wrote them. -/
structure Continues (j : Journal) (d : Disk) (records : List Record) : Prop where
  ends : ∃ b, j.Ends d b (UInt64.ofNat (records.length + 1)) ∧ Record.Laid records b
  numbered : Record.Consecutive 1 records

variable {records : List Record}

/-- The records of the changes follow those there are, or nothing is written. -/
theorem Continues.appendAll (h : j.Continues d records) (stamps : UInt64 → UInt64)
    (changes : List Change) :
    match j.appendAll stamps d changes with
    | (.ok _, j', d') =>
      j'.Continues d' (records ++
        Record.numbered stamps (UInt64.ofNat (records.length + 1)) changes)
    | (.error _, j', d') => j'.Continues d' records := by
  obtain ⟨⟨b, ends, laid⟩, numbered⟩ := h
  have appended := ends.appendAll stamps changes
  cases ended : j.appendAll stamps d changes with
  | mk result rest =>
    obtain ⟨j', d'⟩ := rest
    rw [ended] at appended
    cases result with
    | ok last =>
      obtain ⟨ends', fits, -⟩ := appended
      have next : UInt64.ofNat (records.length + 1) + UInt64.ofNat changes.length =
          UInt64.ofNat ((records ++ Record.numbered stamps (.ofNat (records.length + 1))
            changes).length + 1) := by
        rw [List.length_append, Record.length_numbered, Nat.add_right_comm, ← UInt64.ofNat_add]
      rw [next] at ends'
      refine ⟨⟨_, ends', laid.append (Record.laid_frames fits)⟩, ?_⟩
      · rw [Record.consecutive_append, Record.one_add_ofNat]
        exact ⟨numbered, Record.consecutive_numbered ..⟩
    | error fault => exact ⟨⟨b, appended, laid⟩, numbered⟩

/-- Behind a journal there is no damage. -/
theorem Continues.survey (h : j.Continues d records) :
    ∃ s, d.survey = .ok (records, s) ∧ s.corrupted = 0 ∧ s.truncated = false := by
  obtain ⟨⟨b, ends, laid⟩, numbered⟩ := h
  exact ⟨_, ends.disk.survey (Survey.finds_laid laid numbered), rfl, rfl⟩

end Journal

/-! ## The main result -/

/-- A recovery of a log file of any content leaves its valid prefix, in which every later survey and
recovery finds the same records and no damage. A journal that is opened on the file leaves the same
bytes and goes on with the next number. Whatever changes it then accepts are found behind the old
records, numbered on from them, and there is no damage. -/
theorem recovery_resumes {d : Disk} {file : Nat} {b : ByteArray} (stores : d.Stores file b)
    (policy : SyncPolicy) (stamps : UInt64 → UInt64) :
    ∃ records s recovered j,
      d.survey = .ok (records, s) ∧ s.validBytes ≤ b.size ∧
      recovered = d.setContent file (.regular (b.extract 0 s.validBytes)) ∧
      d.recover = (.ok (records, s), recovered) ∧
      recovered.survey = .ok (records, s.cut) ∧
      recovered.recover = (.ok (records, s.cut), recovered) ∧
      Journal.openAt d policy = (.ok j, recovered) ∧
      j.writer.nextLsn = s.lastLsn + 1 ∧
      ∀ changes last j' d', j.appendAll stamps recovered changes = (.ok last, j', d') →
        ∃ s', d'.survey =
            .ok (records ++ Record.numbered stamps (s.lastLsn + 1) changes, s') ∧
          s'.corrupted = 0 ∧ s'.truncated = false := by
  obtain ⟨records, s, finds⟩ := Survey.exists_finds b
  obtain ⟨j, opened, ends⟩ := stores.openAt finds policy
  have cut := stores.setContent (b.extract 0 s.validBytes)
  have next : s.lastLsn + 1 = UInt64.ofNat (records.length + 1) := by
    rw [finds.lastLsn, UInt64.add_comm, Record.one_add_ofNat]
  have recover_cut := cut.recover finds.cut
  have all : (b.extract 0 s.validBytes).extract 0 s.cut.validBytes =
      b.extract 0 s.validBytes := by
    rw [ByteArray.extract_extract]
    simp [Survey.cut]
  rw [all, cut.setContent_self] at recover_cut
  refine ⟨records, s, _, j, stores.survey finds, finds.within, rfl, stores.recover finds,
    cut.survey finds.cut, recover_cut, opened, ends.nextLsn, ?_⟩
  intro changes last j' d' accepted
  rw [next] at ends ⊢
  have continues : j.Continues _ records := ⟨⟨_, ends, finds.laid⟩, finds.numbered⟩
  have appended := continues.appendAll stamps changes
  rw [accepted] at appended
  exact appended.survey

/-- A file that ends inside its second frame. -/
theorem recovery_resumes_torn :
    let commit : Record := ⟨1, .commit 0, 7⟩
    let torn := commit.frame ++ Bytes.ofList [2, 0, 0]
    let disk (b : ByteArray) : Disk :=
      ({ Disk.blank "data" with place := .aDirectory } : Disk).addLog (.regular b)
    (disk torn).Stores 0 torn ∧
      (disk torn).recover = (.ok ([commit], ⟨1, 0, 1, true, 44⟩), disk commit.frame) ∧
      ∃ j, Journal.openAt (disk torn) .everyWrite = (.ok j, disk commit.frame) ∧
        j.writer.nextLsn = 2 ∧
        ∀ changes last j' d',
          j.appendAll id (disk commit.frame) changes = (.ok last, j', d') →
            ∃ s', d'.survey = .ok (commit :: Record.numbered id 2 changes, s') ∧
              s'.corrupted = 0 ∧ s'.truncated = false := by
  intro commit torn disk
  have stores : (disk torn).Stores 0 torn := ⟨rfl, rfl, Nat.zero_lt_one, rfl⟩
  obtain ⟨records, s, recovered, j, surveyed, -, cut, recover, -, -, opened, next, appended⟩ :=
    recovery_resumes stores .everyWrite id
  have read : (match (disk torn).survey with
      | .ok (records, s) => decide (records = [commit] ∧ s = ⟨1, 0, 1, true, 44⟩)
      | .error _ => false) = true := by decide +kernel
  rw [surveyed] at read
  obtain ⟨rfl, rfl⟩ := of_decide_eq_true read
  have front : torn.extract 0 44 = commit.frame :=
    ByteArray.extract_append_eq_left (by rw [Record.size_frame]; rfl)
  have left : recovered = disk commit.frame := by
    rw [cut, front]
    rfl
  subst left
  exact ⟨stores, recover, j, opened, next, appended⟩

end DurableLog
