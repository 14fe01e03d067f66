import Mathlib.Data.List.ReduceOption
import WinBlaze.Scanner.DirectoryMetadata

/-!
# Chains of directory metadata

Whatever the bytes of a buffer are, a batch stays inside it and ends. When they
hold a chain of records, the batch is the entries of the chain.
-/

namespace WinBlaze

open Attempts ByteCodec

/-! ## Fields -/

theorem field_drop (bytes : List UInt8) (start place width : ℕ) :
    field (bytes.drop start) place width = field bytes (start + place) width := by
  simp only [field, List.drop_drop]

/-- A field inside a prefix. -/
theorem field_take {bytes : List UInt8} {place width count : ℕ} (h : place + width ≤ count) :
    field (bytes.take count) place width = field bytes place width := by
  have hmin : min width (count - place) = width := by omega
  simp only [field, List.drop_take, List.take_take, hmin]

theorem readNumber_eq {record : List UInt8} {place width : ℕ} (h : place + width ≤ record.length) :
    readNumber record place width = .ok (field record place width) :=
  if_pos h

namespace DirectoryMetadataIterator

variable {iterator advanced : DirectoryMetadataIterator} {entry : Option DirectoryEntry}

/-! ## A record -/

/-- The iterator is at a place where a record may start. -/
def Aligned (iterator : DirectoryMetadataIterator) : Prop := 8 ∣ iterator.offset

/-- The error for a bad record, and no other failure. -/
abbrev Safe {α : Type} (x : Except RecordFailure α) : Prop := FailsOnly (· = .invalidRecord) x

theorem recordBytes_eq_ok {record : List UInt8} (h : iterator.recordBytes = .ok record) :
    record = iterator.buffer.bytes.drop iterator.offset ∧
      iterator.offset + 88 ≤ iterator.buffer.bytes.length ∧ 88 ≤ record.length := by
  unfold recordBytes at h
  split at h
  case isTrue hroom =>
    cases h
    refine ⟨rfl, by omega, ?_⟩
    rw [List.length_drop]
    exact hroom.2
  case isFalse => cases h

theorem nameBytes_eq_ok {record name : List UInt8} {next length : ℕ}
    (h : nameBytes record next length = .ok name) :
    name.length = length ∧ (next = 0 ∨ 88 ≤ next ∧ 8 ∣ next) := by
  unfold nameBytes at h
  split at h
  case isTrue hname =>
    cases h
    refine ⟨?_, hname.2.2.imp id fun hnext ↦ ⟨by omega, hnext.2⟩⟩
    rw [List.length_take, List.length_drop]
    omega
  case isFalse => cases h

/-- A record of at least 88 bytes has all the fields of an entry. -/
theorem exists_directoryEntry {record : List UInt8} (h : 88 ≤ record.length) (volume : UInt64)
    (units : List UInt16) :
    directoryEntry volume record units = .ok
      { name := .fromWide units
        attributes := .ofNat (field record 56 4)
        sizeBytes := clampSize (.ofNat (field record 40 8))
        allocationBytes := clampSize (.ofNat (field record 48 8))
        identity := (volume, .ofNat 128 (field record 72 16))
        createdUtc := .ofNat (field record 8 8)
        modifiedUtc := .ofNat (field record 24 8)
        accessedUtc := .ofNat (field record 16 8) } := by
  unfold directoryEntry
  simp only [readNumber_eq (show 56 + 4 ≤ record.length by omega),
    readNumber_eq (show 40 + 8 ≤ record.length by omega),
    readNumber_eq (show 48 + 8 ≤ record.length by omega),
    readNumber_eq (show 72 + 16 ≤ record.length by omega),
    readNumber_eq (show 8 + 8 ≤ record.length by omega),
    readNumber_eq (show 16 + 8 ≤ record.length by omega),
    readNumber_eq (show 24 + 8 ≤ record.length by omega)]
  rfl

theorem entryOf_safe {record : List UInt8} (h : 88 ≤ record.length) (volume : UInt64)
    (units : List UInt16) : Safe (entryOf volume record units) := by
  unfold entryOf
  split
  · exact failsOnly_pure _
  · rw [exists_directoryEntry h]
    exact failsOnly_ok _

theorem advance_safe (iterator : DirectoryMetadataIterator) (next : ℕ) :
    Safe (iterator.advance next) := by
  unfold advance
  split
  · exact failsOnly_ok _
  · split
    · exact failsOnly_ok _
    · exact failsOnly_error rfl

/-- A record is read from inside the buffer. -/
theorem record_safe (h : iterator.Aligned) : Safe iterator.record := by
  unfold record
  refine FailsOnly.bind ?_ fun record hrecord ↦ ?_
  · unfold recordBytes
    split
    · exact failsOnly_ok _
    · exact failsOnly_error rfl
  · obtain ⟨-, -, hlength⟩ := recordBytes_eq_ok hrecord
    rw [readNumber_eq (show 0 + 4 ≤ record.length by omega),
      readNumber_eq (show 60 + 4 ≤ record.length by omega)]
    refine FailsOnly.bind (failsOnly_ok _) fun next _ ↦ FailsOnly.bind (failsOnly_ok _) fun length _ ↦
      FailsOnly.bind ?_ fun name hname ↦ ?_
    · unfold nameBytes
      split
      · exact failsOnly_ok _
      · exact failsOnly_error rfl
    · obtain ⟨hname, -⟩ := nameBytes_eq_ok hname
      have hunits : 2 ∣ iterator.offset + 88 ∧ 2 * (length / 2) ≤ name.length := by
        unfold Aligned at h
        omega
      refine FailsOnly.bind ?_ fun units _ ↦
        FailsOnly.bind (entryOf_safe hlength _ _) fun entry _ ↦
          FailsOnly.bind (advance_safe _ _) fun advanced _ ↦ failsOnly_pure _
      unfold readUnits
      rw [if_pos hunits]
      exact failsOnly_ok _

/-- Where the iterator is after a record: at the end of the batch or at least 88
bytes further, in the same buffer. -/
theorem record_eq_ok (h : iterator.record = .ok (entry, advanced)) :
    iterator.offset + 88 ≤ iterator.buffer.bytes.length ∧ advanced.buffer = iterator.buffer ∧
      advanced.volume = iterator.volume ∧
      (advanced.refill = true ∧ advanced.offset = iterator.offset ∨
        advanced.refill = iterator.refill ∧ iterator.offset + 88 ≤ advanced.offset ∧
          8 ∣ advanced.offset - iterator.offset ∧
            advanced.offset < iterator.buffer.bytes.length) := by
  obtain ⟨record, hrecord, h⟩ := bind_eq_ok_iff.mp h
  obtain ⟨-, hroom, -⟩ := recordBytes_eq_ok hrecord
  obtain ⟨next, -, h⟩ := bind_eq_ok_iff.mp h
  obtain ⟨length, -, h⟩ := bind_eq_ok_iff.mp h
  obtain ⟨name, hname, h⟩ := bind_eq_ok_iff.mp h
  obtain ⟨-, hnext⟩ := nameBytes_eq_ok hname
  obtain ⟨units, -, h⟩ := bind_eq_ok_iff.mp h
  obtain ⟨found, -, h⟩ := bind_eq_ok_iff.mp h
  obtain ⟨moved, hmoved, h⟩ := bind_eq_ok_iff.mp h
  obtain ⟨-, rfl⟩ := Prod.mk.inj (Except.ok.inj h)
  refine ⟨hroom, ?_⟩
  unfold advance at hmoved
  split at hmoved
  case isTrue =>
    cases hmoved
    exact ⟨rfl, rfl, Or.inl ⟨rfl, rfl⟩⟩
  case isFalse hsome =>
    obtain ⟨hle, hdvd⟩ := hnext.resolve_left hsome
    split at hmoved
    case isTrue hin =>
      cases hmoved
      refine ⟨rfl, rfl, Or.inr ⟨rfl, Nat.add_le_add_left hle _, ?_, hin.2⟩⟩
      simpa using hdvd
    case isFalse => cases hmoved

/-! ## A batch -/

/-- The loop of `next`, called again and again, from a record to the end of the
batch. A record without an entry is `none`. -/
def batch (iterator : DirectoryMetadataIterator) : List (Option DirectoryEntry) × BatchEnd :=
  match _hrecord : iterator.record with
  | .error failure => ([], .failed failure)
  | .ok (entry, advanced) =>
      if advanced.refill then ([entry], .refill)
      else (entry :: advanced.batch.1, advanced.batch.2)
termination_by iterator.buffer.bytes.length - iterator.offset
decreasing_by
  all_goals
    obtain ⟨hroom, hbuffer, -, hend | ⟨-, hfurther, -, hin⟩⟩ := record_eq_ok _hrecord
    · exact absurd hend.1 ‹_›
    · rw [hbuffer]
      omega

theorem batch_of_error {failure : RecordFailure} (h : iterator.record = .error failure) :
    iterator.batch = ([], .failed failure) := by
  rw [batch]
  split
  case h_1 other hother =>
    rw [h] at hother
    cases hother
    rfl
  case h_2 hother =>
    rw [h] at hother
    cases hother

theorem batch_of_ok (h : iterator.record = .ok (entry, advanced)) :
    iterator.batch =
      if advanced.refill then ([entry], .refill)
      else (entry :: advanced.batch.1, advanced.batch.2) := by
  rw [batch]
  split
  case h_1 hother =>
    rw [h] at hother
    cases hother
  case h_2 hother =>
    rw [h] at hother
    cases hother
    rfl

/-- A batch stays inside the buffer, and has one record for 88 bytes at most. -/
theorem batch_bounded (h : iterator.Aligned) :
    iterator.batch.2 ≠ .failed .outside ∧
      88 * iterator.batch.1.length ≤ iterator.buffer.bytes.length - iterator.offset := by
  induction hleft : iterator.buffer.bytes.length - iterator.offset using Nat.strong_induction_on
    generalizing iterator with
  | _ left ih =>
      cases hrecord : iterator.record with
      | error failure =>
          rw [batch_of_error hrecord]
          obtain rfl := record_safe h failure hrecord
          exact ⟨fun hfailed ↦ (by cases hfailed), Nat.zero_le _⟩
      | ok read =>
          obtain ⟨entry, advanced⟩ := read
          obtain ⟨hroom, hbuffer, -, hend⟩ := record_eq_ok hrecord
          rw [batch_of_ok hrecord]
          split
          case isTrue =>
            refine ⟨fun hfailed ↦ (by cases hfailed), ?_⟩
            simp only [List.length_singleton]
            omega
          case isFalse hgoes =>
            obtain ⟨-, hfurther, hdvd, hin⟩ := hend.resolve_left fun hend ↦ hgoes hend.1
            have haligned : advanced.Aligned := by
              unfold Aligned at h ⊢
              omega
            obtain ⟨hsafe, hcount⟩ := ih _ (by rw [hbuffer]; omega) haligned rfl
            refine ⟨hsafe, ?_⟩
            rw [hbuffer] at hcount
            simp only [List.length_cons]
            omega

end DirectoryMetadataIterator

/-! ## Well-formed chains -/

/-- `FILE_ID_EXTD_DIR_INFO`, without what is not read. -/
structure DirectoryInfo where
  nextEntryOffset : ℕ
  creationTime : UInt64
  lastAccessTime : UInt64
  lastWriteTime : UInt64
  endOfFile : UInt64
  allocationSize : UInt64
  fileAttributes : UInt32
  fileId : BitVec 128
  fileName : List UInt16

/-- The bytes hold a record at a place, with its name inside of them. -/
structure HoldsInfo (bytes : List UInt8) (place : ℕ) (info : DirectoryInfo) : Prop where
  within : place + 88 + 2 * info.fileName.length ≤ bytes.length
  nextEntryOffset : field bytes place 4 = info.nextEntryOffset
  creationTime : field bytes (place + 8) 8 = info.creationTime.toNat
  lastAccessTime : field bytes (place + 16) 8 = info.lastAccessTime.toNat
  lastWriteTime : field bytes (place + 24) 8 = info.lastWriteTime.toNat
  endOfFile : field bytes (place + 40) 8 = info.endOfFile.toNat
  allocationSize : field bytes (place + 48) 8 = info.allocationSize.toNat
  fileAttributes : field bytes (place + 56) 4 = info.fileAttributes.toNat
  nameLength : field bytes (place + 60) 4 = 2 * info.fileName.length
  fileId : field bytes (place + 72) 16 = info.fileId.toNat
  fileName : ∀ i (hi : i < info.fileName.length),
    field bytes (place + 88 + 2 * i) 2 = info.fileName[i].toNat

/-- The bytes hold a chain of records from a place on. Each but the last one has
the next one behind its name, at a multiple of eight bytes. -/
inductive HoldsChain (bytes : List UInt8) : ℕ → List DirectoryInfo → Prop
  | last {place : ℕ} {info : DirectoryInfo} (hinfo : HoldsInfo bytes place info)
      (hnext : info.nextEntryOffset = 0) : HoldsChain bytes place [info]
  | next {place : ℕ} {info : DirectoryInfo} {rest : List DirectoryInfo}
      (hinfo : HoldsInfo bytes place info)
      (hname : 88 + 2 * info.fileName.length ≤ info.nextEntryOffset)
      (haligned : 8 ∣ info.nextEntryOffset)
      (hrest : HoldsChain bytes (place + info.nextEntryOffset) rest) :
      HoldsChain bytes place (info :: rest)

namespace DirectoryInfo

/-- A size, of a negative one 0. -/
def clamped (size : UInt64) : UInt64 := if size.toNat < 2 ^ 63 then size else 0

/-- What is to become of a record. -/
def entry (volume : UInt64) (info : DirectoryInfo) : DirectoryEntry where
  name := .fromWide info.fileName
  attributes := info.fileAttributes
  sizeBytes := clamped info.endOfFile
  allocationBytes := clamped info.allocationSize
  identity := (volume, info.fileId)
  createdUtc := info.creationTime
  modifiedUtc := info.lastWriteTime
  accessedUtc := info.lastAccessTime

/-- The record is no entry of the directory. -/
def isDot (info : DirectoryInfo) : Bool := info.fileName = [46] ∨ info.fileName = [46, 46]

end DirectoryInfo

namespace DirectoryMetadataIterator

variable {iterator advanced : DirectoryMetadataIterator} {info : DirectoryInfo}

theorem clampSize_eq (size : UInt64) : clampSize size = DirectoryInfo.clamped size := by
  have hsigned : size.toInt64.toInt =
      if size.toNat < 2 ^ 63 then (size.toNat : ℤ) else size.toNat - 2 ^ 64 := by
    have hlt := size.toNat_lt
    rw [← Int64.toInt_toBitVec, UInt64.toBitVec_toInt64, BitVec.toInt_eq_toNat_cond,
      UInt64.toNat_toBitVec]
    split <;> split <;> omega
  have hmax : max size.toInt64 0 = if size.toInt64 ≤ 0 then 0 else size.toInt64 := rfl
  unfold clampSize DirectoryInfo.clamped
  rw [hmax]
  by_cases h : size.toNat < 2 ^ 63
  · rw [if_pos h] at hsigned ⊢
    split
    case isTrue hle =>
      rw [Int64.le_iff_toInt_le, hsigned] at hle
      have hzero : size.toNat = 0 := by simpa using hle
      exact (UInt64.toNat_inj.mp hzero).symm
    case isFalse => exact UInt64.toUInt64_toInt64 size
  · rw [if_neg h] at hsigned ⊢
    have hnegative : size.toInt64 ≤ 0 := by
      have hlt := size.toNat_lt
      rw [Int64.le_iff_toInt_le, hsigned, Int64.toInt_zero]
      omega
    rw [if_pos hnegative]
    rfl

theorem isStructural_eq (info : DirectoryInfo) : isStructural info.fileName = info.isDot := by
  rw [Bool.eq_iff_iff]
  simp [isStructural, DirectoryInfo.isDot]

/-- The units of a name are those that the bytes hold. -/
theorem readUnits_eq (hinfo : HoldsInfo iterator.buffer.bytes iterator.offset info)
    (haligned : iterator.Aligned) :
    readUnits (((iterator.buffer.bytes.drop iterator.offset).drop 88).take
        (2 * info.fileName.length)) (iterator.offset + 88) (2 * info.fileName.length / 2) =
      .ok info.fileName := by
  have hwithin := hinfo.within
  have hcount : 2 * info.fileName.length / 2 = info.fileName.length := by omega
  have hready : 2 ∣ iterator.offset + 88 ∧ 2 * info.fileName.length ≤
      (((iterator.buffer.bytes.drop iterator.offset).drop 88).take
        (2 * info.fileName.length)).length := by
    unfold Aligned at haligned
    rw [List.length_take, List.length_drop, List.length_drop]
    omega
  rw [hcount, readUnits, if_pos hready]
  refine congrArg Except.ok (List.ext_getElem (by simp) fun i hi hi' ↦ ?_)
  rw [List.getElem_map, List.getElem_range, field_take (by omega), field_drop, field_drop,
    ← Nat.add_assoc, hinfo.fileName i hi', UInt16.ofNat_toNat]

/-- A record of a chain is read as what it holds. -/
theorem record_eq (hinfo : HoldsInfo iterator.buffer.bytes iterator.offset info)
    (haligned : iterator.Aligned)
    (hnext : info.nextEntryOffset = 0 ∨
      88 + 2 * info.fileName.length ≤ info.nextEntryOffset ∧ 8 ∣ info.nextEntryOffset)
    (hadvance : advance
      { iterator with
        compactNames := iterator.compactNames && EntryName.isCompact info.fileName }
      info.nextEntryOffset = .ok advanced) :
    iterator.record =
      .ok (if info.isDot then none else some (info.entry iterator.volume), advanced) := by
  have hwithin := hinfo.within
  have hbytes : iterator.recordBytes = .ok (iterator.buffer.bytes.drop iterator.offset) :=
    if_pos (by omega)
  have hlength : 88 ≤ (iterator.buffer.bytes.drop iterator.offset).length := by
    rw [List.length_drop]
    omega
  have hname : nameBytes (iterator.buffer.bytes.drop iterator.offset) info.nextEntryOffset
      (2 * info.fileName.length) = .ok (((iterator.buffer.bytes.drop iterator.offset).drop 88).take
        (2 * info.fileName.length)) := by
    refine if_pos ⟨?_, Nat.dvd_mul_right _ _, hnext⟩
    rw [List.length_drop]
    omega
  have hentry : entryOf iterator.volume (iterator.buffer.bytes.drop iterator.offset)
      info.fileName = .ok (if info.isDot then none else some (info.entry iterator.volume)) := by
    unfold entryOf
    rw [isStructural_eq]
    split
    case isTrue => rfl
    case isFalse =>
      rw [exists_directoryEntry hlength]
      simp only [field_drop, hinfo.fileAttributes, hinfo.endOfFile, hinfo.allocationSize,
        hinfo.fileId, hinfo.creationTime, hinfo.lastWriteTime, hinfo.lastAccessTime,
        UInt32.ofNat_toNat, UInt64.ofNat_toNat, BitVec.ofNat_toNat, BitVec.setWidth_eq,
        clampSize_eq]
      rfl
  unfold record
  rw [hbytes]
  simp only [readNumber_eq (show 0 + 4 ≤ (iterator.buffer.bytes.drop iterator.offset).length by omega),
    readNumber_eq (show 60 + 4 ≤ (iterator.buffer.bytes.drop iterator.offset).length by omega),
    field_drop, Nat.add_zero, hinfo.nextEntryOffset, hinfo.nameLength, bind, Except.bind, hname,
    readUnits_eq hinfo haligned, hentry, hadvance, pure, Except.pure]

end DirectoryMetadataIterator

/-- The first record of a chain is inside the bytes. -/
theorem HoldsChain.lt_length {bytes : List UInt8} {place : ℕ} {chain : List DirectoryInfo}
    (h : HoldsChain bytes place chain) : place < bytes.length := by
  cases h with
  | last hinfo hnext =>
      have hwithin := hinfo.within
      omega
  | next hinfo hname haligned hrest =>
      have hwithin := hinfo.within
      omega

/-- The records of a chain, none for those that are no entries. -/
def chainRecords (volume : UInt64) (chain : List DirectoryInfo) : List (Option DirectoryEntry) :=
  chain.map (fun info ↦ if info.isDot then none else some (info.entry volume))

theorem reduceOption_chainRecords (volume : UInt64) (chain : List DirectoryInfo) :
    (chainRecords volume chain).reduceOption =
      (chain.filter (fun info ↦ !info.isDot)).map (DirectoryInfo.entry volume) := by
  induction chain with
  | nil => rfl
  | cons info rest ih =>
      unfold chainRecords at ih ⊢
      cases hdot : info.isDot with
      | true => simpa [hdot, List.reduceOption_cons_of_none] using ih
      | false => simpa [hdot, List.reduceOption_cons_of_some] using ih

namespace DirectoryMetadataIterator

/-- A batch that starts a chain is the chain. -/
theorem batch_eq {iterator : DirectoryMetadataIterator} {chain : List DirectoryInfo}
    (h : HoldsChain iterator.buffer.bytes iterator.offset chain) (haligned : iterator.Aligned)
    (hrefill : iterator.refill = false) :
    iterator.batch = (chainRecords iterator.volume chain, .refill) := by
  have hfits : iterator.buffer.bytes.length < 2 ^ 63 :=
    iterator.buffer.length_bytes.trans_lt iterator.buffer.fits
  induction chain generalizing iterator with
  | nil => cases h
  | cons info rest ih =>
      cases h with
      | last hinfo hnext =>
          have hrecord := record_eq hinfo haligned (Or.inl hnext) (if_pos hnext)
          rw [batch_of_ok hrecord]
          rfl
      | next hinfo hname hdvd hrest =>
          have hin := hrest.lt_length
          have hsome : info.nextEntryOffset ≠ 0 := by omega
          have hadvance : ∀ compact, advance { iterator with compactNames := compact }
              info.nextEntryOffset = .ok
                { iterator with
                  compactNames := compact
                  offset := iterator.offset + info.nextEntryOffset } := by
            intro compact
            unfold advance
            rw [if_neg hsome]
            refine if_pos ⟨?_, hin⟩
            simp only
            omega
          have hrecord := record_eq hinfo haligned (Or.inr ⟨hname, hdvd⟩) (hadvance _)
          have hgoes : ¬iterator.refill = true := Bool.eq_false_iff.mp hrefill
          have hbatch := @ih
            { iterator with
              compactNames := iterator.compactNames && EntryName.isCompact info.fileName
              offset := iterator.offset + info.nextEntryOffset }
            hrest (Nat.dvd_add haligned hdvd) hrefill hfits
          rw [batch_of_ok hrecord, if_neg hgoes, hbatch]
          rfl

end DirectoryMetadataIterator

/-- Whatever a buffer was filled with, a batch reads inside of it only and ends,
after no more records than have room in it. If the buffer holds a chain of
records, the batch asks for the next one after exactly the entries of the chain
other than `.` and `..`, in their order. -/
theorem metadata_batch (iterator : DirectoryMetadataIterator) (buffer : MetadataBuffer) :
    (iterator.filled buffer).batch.2 ≠ .failed .outside ∧
    88 * (iterator.filled buffer).batch.1.length ≤ 8 * buffer.words.length ∧
    ∀ chain, HoldsChain buffer.bytes 0 chain →
      (iterator.filled buffer).batch.1.reduceOption =
        (chain.filter (fun info ↦ !info.isDot)).map (DirectoryInfo.entry iterator.volume) ∧
      (iterator.filled buffer).batch.2 = .refill := by
  have haligned : (iterator.filled buffer).Aligned := Nat.dvd_zero 8
  obtain ⟨hsafe, hcount⟩ := DirectoryMetadataIterator.batch_bounded haligned
  refine ⟨hsafe, ?_, fun chain hchain ↦ ?_⟩
  · rw [← buffer.length_bytes]
    exact hcount
  · have hbatch := @DirectoryMetadataIterator.batch_eq (iterator.filled buffer) chain hchain
      haligned rfl
    rw [hbatch]
    exact ⟨reduceOption_chainRecords _ _, rfl⟩

/-! ## A batch of two records -/

/-- The directory itself and a file `a`, whose allocation is negative. -/
def sampleBuffer : MetadataBuffer where
  words := [96, 0, 0, 0, 0, 0, 0, 0x200000010, 0, 5, 0, 46,
    0, 1, 2, 3, 4, 10, 0x8000000000000000, 0x200000020, 0, 7, 0, 97]
  fits := by decide

def sampleChain : List DirectoryInfo :=
  [{ nextEntryOffset := 96, creationTime := 0, lastAccessTime := 0, lastWriteTime := 0,
     endOfFile := 0, allocationSize := 0, fileAttributes := 0x10, fileId := 5, fileName := [46] },
   { nextEntryOffset := 0, creationTime := 1, lastAccessTime := 2, lastWriteTime := 3,
     endOfFile := 10, allocationSize := 0x8000000000000000, fileAttributes := 0x20, fileId := 7,
     fileName := [97] }]

theorem sampleBuffer_holds : HoldsChain sampleBuffer.bytes 0 sampleChain := by
  refine .next ⟨?_, ?_, ?_, ?_, ?_, ?_, ?_, ?_, ?_, ?_, ?_⟩ ?_ ?_
    (.last ⟨?_, ?_, ?_, ?_, ?_, ?_, ?_, ?_, ?_, ?_, ?_⟩ rfl)
  all_goals decide +kernel

def sampleIterator : DirectoryMetadataIterator where
  buffer := sampleBuffer
  offset := 96
  volume := 9
  refill := true
  compactNames := true

theorem metadata_batch_sample :
    (sampleIterator.filled sampleBuffer).batch.1.reduceOption =
      [{ name := .fromWide [97], attributes := 0x20, sizeBytes := 10, allocationBytes := 0,
         identity := (9, 7), createdUtc := 1, modifiedUtc := 3, accessedUtc := 2 }] := by
  obtain ⟨-, -, hchain⟩ := metadata_batch sampleIterator sampleBuffer
  exact (hchain sampleChain sampleBuffer_holds).1

end WinBlaze
