import DurableLog.Proofs.AllOrNothing

/-!
# Files of a disk

A regular file of a disk does what a writer needs of its file (`OpenFile.view`): a write at the end
takes as much as the limit allows or fails, and leaves what was there. A file can always be cut
back (`OpenFile.not_stuck`), so a writer on it is never disabled.
-/

namespace DurableLog

namespace Disk

@[simp] theorem content_setContent {d : Disk} {file : Nat} (valid : file < d.files.size)
    (c : Content) : (d.setContent file c).content file = c := by
  simp [content, setContent, valid]

@[simp] theorem setContent_setContent (d : Disk) (file : Nat) (c c' : Content) :
    (d.setContent file c).setContent file c' = d.setContent file c' := by
  simp [setContent]

@[simp] theorem setContent_content {d : Disk} {file : Nat} (valid : file < d.files.size) :
    d.setContent file (d.content file) = d := by
  have same : d.files.setIfInBounds file (d.content file) = d.files := by
    rw [content, Array.getD_eq_getD_getElem?, Array.getElem?_eq_getElem valid, Option.getD_some,
      Array.setIfInBounds_def, dif_pos valid, Array.set_getElem_self]
  rw [setContent, same]

end Disk

/-- A write at the end takes a part of the bytes, from their beginning, or fails. -/
theorem Content.write_at_end (limit : Nat) (b new : ByteArray) :
    (∃ n ≤ new.size, (b.size + n ≤ limit ∨ n = 0) ∧
      (Content.regular b).write limit b.size new = (.ok n, .regular (b ++ new.extract 0 n))) ∨
    ∃ fault, (Content.regular b).write limit b.size new = (.error fault, .regular b) := by
  by_cases empty : new.size = 0
  · refine .inl ⟨0, Nat.zero_le _, .inr rfl, ?_⟩
    rw [ByteArray.extract_same, ByteArray.append_empty]
    exact if_pos empty
  · by_cases full : limit ≤ b.size
    · exact .inr ⟨.system .fileTooLarge, by simp [Content.write, empty, full]⟩
    · by_cases fits : b.size + new.size ≤ limit
      · refine .inl ⟨new.size, Nat.le_refl _, .inl fits, ?_⟩
        simp [Content.write, empty, full, fits, Bytes.writeAt_size]
      · refine .inl ⟨limit - b.size, by omega, .inl (by omega), ?_⟩
        simp [Content.write, empty, full, fits, Bytes.writeAt_size, Bytes.slice]

/-- A file can always be cut. -/
theorem Content.setLength_within (limit : Nat) {b : ByteArray} {n : Nat} (within : n ≤ b.size) :
    (Content.regular b).setLength limit n = (.ok (), .regular (b.extract 0 n)) := by
  have cuts : ¬ (b.size < n ∧ limit < n) := by omega
  simp [Content.setLength, cuts, Bytes.resize, within]

namespace OpenFile

/-- The file is a regular one of this disk, and nothing else of the disk has changed. -/
structure Of (d : Disk) (file : Nat) (f : OpenFile) (b : ByteArray) : Prop where
  number : f.file = file
  disk : f.disk = d.setContent file (.regular b)
  /-- The file has not grown past what is possible. -/
  small : b.size ≤ max maxFileSize (d.content file).size

/-- What a file of a disk holds. -/
def bytes (f : OpenFile) : ByteArray :=
  match f.disk.content f.file with
  | .regular b => b
  | _ => .empty

variable {d : Disk} {file : Nat} {f f' : OpenFile} {b : ByteArray}

theorem Of.content (h : f.Of d file b) (valid : file < d.files.size) :
    f.disk.content f.file = .regular b := by
  rw [h.number, h.disk, Disk.content_setContent valid]

theorem Of.bytes (h : f.Of d file b) (valid : file < d.files.size) : f.bytes = b := by
  rw [OpenFile.bytes, h.content valid]

theorem Of.setContent (h : f.Of d file b) (c : Content) :
    f.disk.setContent f.file c = d.setContent file c := by
  rw [h.number, h.disk, Disk.setContent_setContent]

theorem Of.write (h : f.Of d file b) (valid : file < d.files.size) (atEnd : f.place = b.size)
    (new : ByteArray) :
    (∃ f' n, LogFile.write f new = (.ok n, f') ∧ n ≤ new.size ∧
      f'.Of d file (b ++ new.extract 0 n) ∧ f'.place = f.place + n) ∨
    ∃ f' fault, LogFile.write f new = (.error fault, f') ∧ f'.Of d file b := by
  have limited : f.disk.limit ≤ maxFileSize := f.disk.limit_le
  have small := h.small
  rcases Content.write_at_end f.disk.limit b new with ⟨n, le, within, written⟩ | ⟨fault, failed⟩
  · refine .inl ⟨⟨d.setContent file (.regular (b ++ new.extract 0 n)), f.file, f.place + n⟩, n,
      ?_, le, ⟨h.number, rfl, ?_⟩, rfl⟩
    · simp only [LogFile.write, OpenFile.write, h.content valid, atEnd, written, h.setContent]
    · rw [ByteArray.size_append, ByteArray.size_extract]
      omega
  · refine .inr ⟨⟨d.setContent file (.regular b), f.file, f.place⟩, fault, ?_,
      ⟨h.number, rfl, small⟩⟩
    simp only [LogFile.write, OpenFile.write, h.content valid, atEnd, failed, h.setContent]

theorem Of.setLength (h : f.Of d file b) (valid : file < d.files.size) {n : Nat}
    (within : n ≤ b.size) :
    ∃ f', LogFile.setLength f n = (.ok (), f') ∧ f'.Of d file (b.extract 0 n) := by
  refine ⟨{ f with disk := d.setContent file (.regular (b.extract 0 n)) }, ?_, ⟨h.number, rfl, ?_⟩⟩
  · simp only [LogFile.setLength, OpenFile.setLength, Disk.setLength, h.content valid,
      Content.setLength_within _ within, h.setContent]
  · have held := h.small
    rw [ByteArray.size_extract]
    omega

/-- Regular files of a disk do what they tell. -/
def view (d : Disk) (file : Nat) (valid : file < d.files.size) : FileView OpenFile where
  Sound f := ∃ b, f.Of d file b
  bytes := OpenFile.bytes
  place := OpenFile.place
  write := by
    rintro f f' new n ⟨b, held⟩ atEnd h
    rw [held.bytes valid] at atEnd ⊢
    rcases held.write valid atEnd new with ⟨f₁, n₁, written, le, held', place⟩ |
      ⟨f₁, fault, failed, -⟩
    · rw [written] at h
      cases h
      exact ⟨⟨_, held'⟩, le, held'.bytes valid, place⟩
    · rw [failed] at h
      cases h
  write_error := by
    rintro f f' new fault ⟨b, held⟩ atEnd h
    rw [held.bytes valid] at atEnd ⊢
    rcases held.write valid atEnd new with ⟨f₁, n₁, written, -⟩ | ⟨f₁, fault₁, failed, held'⟩
    · rw [written] at h
      cases h
    · rw [failed] at h
      cases h
      exact ⟨⟨b, held'⟩, .empty, by rw [held'.bytes valid, ByteArray.append_empty]⟩
  cut := by
    rintro f f' n ⟨b, held⟩ within h
    rw [held.bytes valid] at within ⊢
    obtain ⟨f₁, cut, held'⟩ := held.setLength valid within
    rw [cut] at h
    cases h
    exact ⟨⟨_, held'⟩, held'.bytes valid⟩
  seek := by
    rintro f f' n ⟨b, held⟩ h
    cases h
    exact ⟨⟨b, held.number, held.disk, held.small⟩, rfl, rfl⟩
  flush := by
    rintro f ⟨b, held⟩
    exact ⟨⟨b, held⟩, rfl, rfl⟩
  sync := by
    rintro f ⟨b, held⟩
    exact ⟨⟨b, held⟩, rfl, rfl⟩

/-- A file of a disk can be cut back to what it begins with. -/
theorem not_stuck (valid : file < d.files.size) (b : ByteArray) :
    ¬ (view d file valid).Stuck b := by
  rintro ⟨f, ⟨⟨held, of⟩, more, begins⟩, stuck⟩
  have whole : held = b ++ more := (of.bytes valid).symm.trans begins
  have within : b.size ≤ held.size := by
    rw [whole, ByteArray.size_append]
    omega
  obtain ⟨f', cut, -⟩ := of.setLength valid within
  rcases stuck with stuck | stuck
  · exact stuck (by rw [cut])
  · exact stuck rfl

end OpenFile

end DurableLog
