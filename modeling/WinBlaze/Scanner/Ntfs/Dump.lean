import WinBlaze.Scanner.Ntfs.Batch

/-!
# Reading a dump of raw file records

A dump holds file records as they lie on disk, with the last two bytes of each
sector replaced by an update sequence number. Records declare their own size;
slots of zeros take the size of the record before them.
-/

namespace WinBlaze

namespace Ntfs

/-! ## Fixups -/

/-- Restores the last two bytes of sector `index`. -/
def fixupSector (bytesPerSector usaOffset : ℕ) (usn record : List UInt8) (index : ℕ) :
    Option (List UInt8) :=
  let sectorEnd := index * bytesPerSector
  if sectorEnd > record.length then none
  else if (record.drop (sectorEnd - 2)).take 2 ≠ usn then none
  else
    some ((record.set (sectorEnd - 2) (u8At record (usaOffset + index * 2))).set (sectorEnd - 1)
      (u8At record (usaOffset + index * 2 + 1)))

/-- The record with its sector ends restored, unless the check bytes disagree. -/
def applyRecordFixups (record : List UInt8) (bytesPerSector : ℕ) : Option (List UInt8) :=
  if record.length < 8 ∨ bytesPerSector < 2 then none
  else
    let usaOffset := (u16At record 4).toNat
    let usaCount := (u16At record 6).toNat
    if usaCount < 2 ∨ usaOffset + usaCount * 2 > record.length then none
    else
      (List.range' 1 (usaCount - 1)).foldlM
        (fixupSector bytesPerSector usaOffset [u8At record usaOffset, u8At record (usaOffset + 1)])
        record

/-! ## The reader -/

/-- The bytes a reader delivers, and the error it then reports instead of the
end of the input. -/
structure DumpInput where
  bytes : List UInt8
  fault : Option String := none

/-- `read_exact` of `count` bytes, with the error at the end of the input. -/
def DumpInput.readExact (input : DumpInput) (count : ℕ) (atEnd : ParseFailure) :
    Parse (List UInt8 × DumpInput) :=
  if count ≤ input.bytes.length then
    .ok (input.bytes.take count, { input with bytes := input.bytes.drop count })
  else
    match input.fault with
    | some message => .error (.error (.io message))
    | none => .error atEnd

def truncated : ParseFailure := .error (.invalidRecord "Truncated MFT record")

def isZero (bytes : List UInt8) : Bool := bytes.all (· = 0)

def isPowerOfTwo (n : ℕ) : Bool := n ≠ 0 && 2 ^ n.log2 = n

/-- Bytes per sector, when the update sequence array divides the record into
sectors of a usable size. -/
def sectorSize (record : List UInt8) : Option ℕ :=
  let sectors := (u16At record 6).toNat - 1
  if sectors = 0 ∨ record.length % sectors ≠ 0 ∨ record.length / sectors < 512 ∨
      isPowerOfTwo (record.length / sectors) = false then none
  else some (record.length / sectors)

/-- The size a slot declares; a slot of zeros takes the last known size. -/
def slotSize (knownSize : ℕ) (header : List UInt8) : Parse ℕ :=
  if isZero header then .ok knownSize else (leU32 header 0x1c).map UInt32.toNat

/-- The outcome of one slot, the size it leaves known, and the input behind it. -/
structure DumpSlot where
  outcome : ParsedRecordOutcome
  knownSize : ℕ
  rest : DumpInput

/-- The slot whose first 48 bytes are `header`. -/
def readDumpSlot (knownSize : ℕ) (header : List UInt8) (input : DumpInput) : Parse DumpSlot := do
  let zeroSlot := isZero header
  let size ← slotSize knownSize header
  if size < 1024 ∨ 65536 < size ∨ isPowerOfTwo size = false then
    invalidRecord "Unsupported MFT record size"
  else if zeroSlot = false ∧ header.take 4 ≠ fileRecordSignature then
    invalidRecord "Invalid raw MFT signature"
  else
    let body ← input.readExact (size - 48) truncated
    let record := header ++ body.1
    if zeroSlot then
      if isZero record then pure ⟨.none, knownSize, body.2⟩
      else invalidRecord "Invalid unallocated MFT slot"
    else
      match (sectorSize record).bind (applyRecordFixups record) with
      | none => invalidRecord "Invalid or torn MFT fixups"
      | some record =>
          let outcome ← parseRecord record
          pure ⟨outcome, size, body.2⟩

theorem DumpInput.readExact_length {input rest : DumpInput} {count : ℕ} {atEnd : ParseFailure}
    {bytes : List UInt8} (h : input.readExact count atEnd = .ok (bytes, rest)) :
    rest.bytes.length + count = input.bytes.length := by
  rw [DumpInput.readExact] at h
  split at h
  case isTrue hle =>
    cases h
    rw [List.length_drop]
    omega
  case isFalse =>
    split at h <;> cases h

/-- A slot leaves no more input than there was behind its header. -/
theorem readDumpSlot_length {knownSize : ℕ} {header : List UInt8} {input : DumpInput}
    {slot : DumpSlot} (h : readDumpSlot knownSize header input = .ok slot) :
    slot.rest.bytes.length ≤ input.bytes.length := by
  rw [readDumpSlot] at h
  obtain ⟨size, -, h⟩ := Parse.bind_eq_ok_iff.mp h
  split at h
  case isTrue => cases h
  case isFalse =>
    split at h
    case isTrue => cases h
    case isFalse =>
      obtain ⟨body, hbody, h⟩ := Parse.bind_eq_ok_iff.mp h
      have hlength := DumpInput.readExact_length hbody
      dsimp only at h
      have hrest : slot.rest = body.2 := by
        split at h
        case isTrue =>
          split at h
          case isTrue =>
            cases h
            rfl
          case isFalse => cases h
        case isFalse =>
          split at h
          case h_1 => cases h
          case h_2 =>
            obtain ⟨outcome, -, h⟩ := Parse.bind_eq_ok_iff.mp h
            cases h
            rfl
      rw [hrest]
      omega

/-- The slot at the front of an input that has bytes left. -/
def readNextSlot (knownSize : ℕ) (input : DumpInput) : Parse DumpSlot := do
  let first ← input.readExact 1 truncated
  let header ← first.2.readExact 47 truncated
  readDumpSlot knownSize (first.1 ++ header.1) header.2

theorem readNextSlot_length {knownSize : ℕ} {input : DumpInput} {slot : DumpSlot}
    (h : readNextSlot knownSize input = .ok slot) :
    slot.rest.bytes.length < input.bytes.length := by
  rw [readNextSlot] at h
  obtain ⟨first, hfirst, h⟩ := Parse.bind_eq_ok_iff.mp h
  obtain ⟨header, hheader, h⟩ := Parse.bind_eq_ok_iff.mp h
  have h₁ := DumpInput.readExact_length hfirst
  have h₂ := DumpInput.readExact_length hheader
  have h₃ := readDumpSlot_length h
  omega

/-- The loop over the slots. The end of the input ends it only in front of a slot. -/
def readDumpSlots (collected : CollectedRecords) (knownSize : ℕ) (input : DumpInput) :
    Parse CollectedRecords :=
  if input.bytes.isEmpty then
    match input.fault with
    | some message => .error (.error (.io message))
    | none => .ok collected
  else
    match _hslot : readNextSlot knownSize input with
    | .error failure => .error failure
    | .ok slot => readDumpSlots (collected.add slot.outcome) slot.knownSize slot.rest
termination_by input.bytes.length
decreasing_by exact readNextSlot_length _hslot

def collectMftDump (input : DumpInput) : Parse CollectedRecords := do
  let collected ← readDumpSlots {} ntfsRecordSize input
  if collected.entries.records.isEmpty then invalidRecord "No live MFT entries"
  else pure collected

/-- `read_mft_dump`, with the number of steps an ancestor walk may take. -/
def readMftDump (fuel : ℕ) (rootText : String) (input : DumpInput) :
    Option (Parse NtfsEnumeration) :=
  enumerateCollected fuel rootText (collectMftDump input)

end Ntfs

end WinBlaze
