import WinBlaze.Core.Model
import WinBlaze.Lib.ByteCodec

/-!
# One MFT file record

A file record is a header followed by a chain of attributes. The parser reads
the header and the chain at offsets the record itself supplies, partly through
reads that panic past the end and partly through reads that report an error.
-/

namespace WinBlaze

namespace Ntfs

open ByteCodec

def fileRecordSignature : List UInt8 := [0x46, 0x49, 0x4C, 0x45]

def ntfsRecordSize : ℕ := 1024

def attributeList : UInt32 := 0x20

def attributeFileName : UInt32 := 0x30

def attributeData : UInt32 := 0x80

def fileRecordFlagInUse : UInt16 := 0x0001

def fileRecordFlagDirectory : UInt16 := 0x0002

/-- The low 48 bits of a file reference; the others count slot reuse. -/
def referenceMask : UInt64 := 0x0000FFFFFFFFFFFF

inductive NtfsEnumerationError
  | io (message : String)
  | invalidRecord (message : String)
  deriving DecidableEq, Repr

/-- How a parse can end without a result: an index past the end of a slice
panics, a checked read returns an error. -/
inductive ParseFailure
  | panic
  | error (error : NtfsEnumerationError)
  deriving DecidableEq, Repr

abbrev Parse (α : Type) := Except ParseFailure α

@[simp] theorem Parse.ok_bind {α β : Type} (a : α) (f : α → Parse β) :
    ((.ok a : Parse α) >>= f) = f a := rfl

@[simp] theorem Parse.error_bind {α β : Type} (failure : ParseFailure) (f : α → Parse β) :
    ((.error failure : Parse α) >>= f) = .error failure := rfl

theorem Parse.bind_eq_ok_iff {α β : Type} {parse : Parse α} {f : α → Parse β} {b : β} :
    (parse >>= f) = .ok b ↔ ∃ a, parse = .ok a ∧ f a = .ok b := by
  cases parse with
  | error failure => simp
  | ok a => simp

def invalidRecord {α : Type} (message : String) : Parse α := .error (.error (.invalidRecord message))

structure ParsedNtfsEntry where
  fileId : FileId
  parentDirectoryId : Option UInt64
  name : String
  isDirectory : Bool
  hasAttributeList : Bool
  sizeBytes : UInt64
  allocationBytes : UInt64
  attributes : FileAttributes
  createdUtc : Option Int64
  modifiedUtc : Option Int64
  accessedUtc : Option Int64
  deriving DecidableEq, Repr

/-- Sizes found in an extension record, for its base record. -/
structure ExtensionSizes where
  baseRecord : UInt64
  sizeBytes : UInt64
  allocationBytes : UInt64
  deriving DecidableEq, Repr

inductive ParsedRecordOutcome
  | none
  | entry (entry : ParsedNtfsEntry)
  | extension (extension : ExtensionSizes)
  deriving DecidableEq, Repr

/-! ## Reads -/

/-- The number in `width` bytes from `offset` on. -/
def numberAt (width : ℕ) (bytes : List UInt8) (offset : ℕ) : ℕ :=
  ofLeBytes ((bytes.drop offset).take width)

def u8At (bytes : List UInt8) (offset : ℕ) : UInt8 := bytes.getD offset 0

def u16At (bytes : List UInt8) (offset : ℕ) : UInt16 := .ofNat (numberAt 2 bytes offset)

def u32At (bytes : List UInt8) (offset : ℕ) : UInt32 := .ofNat (numberAt 4 bytes offset)

def u64At (bytes : List UInt8) (offset : ℕ) : UInt64 := .ofNat (numberAt 8 bytes offset)

/-- An unchecked read of `width` bytes. -/
def unchecked {α : Type} (width : ℕ) (value : List UInt8 → ℕ → α) (bytes : List UInt8) (offset : ℕ) :
    Parse α :=
  if offset + width ≤ bytes.length then .ok (value bytes offset) else .error .panic

/-- A read of `width` bytes that reports an offset past the end. -/
def checked {α : Type} (width : ℕ) (value : List UInt8 → ℕ → α) (message : String)
    (bytes : List UInt8) (offset : ℕ) : Parse α :=
  if offset + width > bytes.length then invalidRecord message else .ok (value bytes offset)

def indexByte : List UInt8 → ℕ → Parse UInt8 := unchecked 1 u8At

def leU16 : List UInt8 → ℕ → Parse UInt16 := unchecked 2 u16At

def leU32 : List UInt8 → ℕ → Parse UInt32 := unchecked 4 u32At

def leU64 : List UInt8 → ℕ → Parse UInt64 := unchecked 8 u64At

def leI64 : List UInt8 → ℕ → Parse Int64 :=
  unchecked 8 (fun bytes offset ↦ (u64At bytes offset).toInt64)

def readU16 : List UInt8 → ℕ → Parse UInt16 := checked 2 u16At "u16 out of bounds"

def readU32 : List UInt8 → ℕ → Parse UInt32 := checked 4 u32At "u32 out of bounds"

def readU64 : List UInt8 → ℕ → Parse UInt64 := checked 8 u64At "u64 out of bounds"

/-! ## File names -/

/-- The 16-bit units of a byte string; an odd last byte is dropped. -/
def utf16Units : List UInt8 → List UInt16
  | low :: high :: rest => .ofNat (low.toNat + 256 * high.toNat) :: utf16Units rest
  | _ => []

/-- Decodes UTF-16, refusing unpaired surrogates. -/
def decodeUtf16 : List UInt16 → Option (List Char)
  | [] => some []
  | unit :: rest =>
      if unit.toNat < 0xD800 ∨ 0xE000 ≤ unit.toNat then
        (decodeUtf16 rest).map (Char.ofNat unit.toNat :: ·)
      else if 0xDC00 ≤ unit.toNat then none
      else
        match rest with
        | [] => none
        | low :: rest =>
            if 0xDC00 ≤ low.toNat ∧ low.toNat < 0xE000 then
              (decodeUtf16 rest).map
                (Char.ofNat (0x10000 + (unit.toNat - 0xD800) * 0x400 + (low.toNat - 0xDC00)) :: ·)
            else none

structure FileNameAttribute where
  parentReference : Option UInt64
  createdUtc : Int64
  modifiedUtc : Int64
  accessedUtc : Int64
  nameSpace : UInt8
  name : String
  deriving DecidableEq, Repr

/-- Preference among a record's names: long names, then POSIX, then 8.3. -/
def FileNameAttribute.namespaceRank (name : FileNameAttribute) : ℕ :=
  if name.nameSpace = 1 ∨ name.nameSpace = 3 then 2
  else if name.nameSpace = 0 then 1
  else 0

def parseFileName (bytes : List UInt8) : Parse FileNameAttribute := do
  if bytes.length < 66 then
    invalidRecord "file name attribute too small"
  else
    let reference ← leU64 bytes 0
    let createdUtc ← leI64 bytes 8
    let modifiedUtc ← leI64 bytes 16
    let accessedUtc ← leI64 bytes 24
    let nameLength ← indexByte bytes 64
    let nameSpace ← indexByte bytes 65
    let nameBytes := nameLength.toNat * 2
    if 66 + nameBytes > bytes.length then
      invalidRecord "file name attribute truncated"
    else
      match decodeUtf16 (utf16Units ((bytes.drop 66).take nameBytes)) with
      | none => invalidRecord "invalid utf-16 file name"
      | some chars =>
          pure {
            parentReference := some (reference &&& referenceMask)
            createdUtc := createdUtc
            modifiedUtc := modifiedUtc
            accessedUtc := accessedUtc
            nameSpace := nameSpace
            name := String.ofList chars }

/-! ## The attribute walk -/

/-- What the attributes read so far say about the record. -/
structure AttributeState where
  fileName : Option FileNameAttribute := none
  allocationBytes : UInt64 := 0
  sizeBytes : UInt64 := 0
  hasAttributeList : Bool := false
  deriving DecidableEq, Repr

namespace AttributeState

/-- A name replaces one of lower or equal rank. -/
def keepName (state : AttributeState) (name : FileNameAttribute) : AttributeState :=
  if state.fileName.all (fun current ↦ current.namespaceRank ≤ name.namespaceRank) then
    { state with fileName := some name }
  else state

/-- A long name is in hand. -/
def hasLongName (state : AttributeState) : Bool :=
  state.fileName.any (fun name ↦ name.namespaceRank = 2)

/-- The walk of a base record may end: long name and sizes are known. -/
def complete (isDirectory : Bool) (baseRecord : UInt64) (state : AttributeState) : Bool :=
  baseRecord = 0 && state.hasLongName &&
    (isDirectory || state.sizeBytes ≠ 0 || state.allocationBytes ≠ 0)

end AttributeState

/-- The value of the attribute at `cursor`, of the given type. `none` gives
the whole record up. -/
def readAttribute (record : List UInt8) (cursor : ℕ) (attributeType : UInt32)
    (nonResident attributeNameLength : UInt8) (state : AttributeState) :
    Parse (Option AttributeState) := do
  if attributeType = attributeList then
    pure (some { state with hasAttributeList := true })
  else if attributeType = attributeFileName ∧ nonResident = 0 then
    let valueOffset := (← readU16 record (cursor + 20)).toNat
    let valueLength := (← readU32 record (cursor + 16)).toNat
    if cursor + valueOffset + valueLength ≤ record.length then
      match parseFileName ((record.drop (cursor + valueOffset)).take valueLength) with
      | .ok name => pure (some (state.keepName name))
      | .error (.error _) => pure none
      | .error .panic => throw .panic
    else pure (some state)
  else if attributeType = attributeData ∧ nonResident = 0 ∧ attributeNameLength = 0 then
    let sizeBytes := (← readU32 record (cursor + 16)).toUInt64
    pure (some { state with sizeBytes := sizeBytes, allocationBytes := sizeBytes })
  else if attributeType = attributeData ∧ nonResident ≠ 0 ∧ attributeNameLength = 0 then
    let startingVcn ← readU64 record (cursor + 16)
    if startingVcn = 0 then
      let allocationBytes ← readU64 record (cursor + 40)
      let sizeBytes ← readU64 record (cursor + 48)
      pure (some { state with sizeBytes := sizeBytes, allocationBytes := allocationBytes })
    else pure (some state)
  else pure (some state)

def attributeWalk (record : List UInt8) (isDirectory : Bool) (baseRecord : UInt64) (cursor : ℕ)
    (state : AttributeState) : Parse (Option AttributeState) :=
  if hcursor : cursor + 8 ≤ record.length then do
    let attributeType ← leU32 record cursor
    if attributeType = .ofNat (2 ^ 32 - 1) then pure (some state)
    else
      let attributeLength ← leU32 record (cursor + 4)
      if _hlength : attributeLength.toNat = 0 ∨ cursor + attributeLength.toNat > record.length then
        pure (some state)
      else
        let nonResident ← indexByte record (cursor + 8)
        let attributeNameLength ← indexByte record (cursor + 9)
        match ← readAttribute record cursor attributeType nonResident attributeNameLength state with
        | none => pure none
        | some state =>
            if state.complete isDirectory baseRecord then pure (some state)
            else attributeWalk record isDirectory baseRecord (cursor + attributeLength.toNat) state
  else pure (some state)
termination_by record.length - cursor
decreasing_by omega

/-! ## A record -/

/-- The outcome of a record whose attributes were walked to the end. -/
def recordOutcome (fileIndex : UInt32) (isDirectory : Bool) (baseRecord : UInt64)
    (state : AttributeState) : ParsedRecordOutcome :=
  if baseRecord ≠ 0 then
    if state.sizeBytes ≠ 0 ∨ state.allocationBytes ≠ 0 then
      .extension {
        baseRecord := baseRecord
        sizeBytes := state.sizeBytes
        allocationBytes := state.allocationBytes }
    else .none
  else
    match state.fileName with
    | none => .none
    | some fileName => .entry {
        fileId := ⟨fileIndex.toUInt64⟩
        parentDirectoryId := fileName.parentReference
        name := fileName.name
        isDirectory := isDirectory
        hasAttributeList := state.hasAttributeList
        sizeBytes := state.sizeBytes
        allocationBytes := state.allocationBytes
        attributes := if isDirectory then .directory else .archive
        createdUtc := some fileName.createdUtc
        modifiedUtc := some fileName.modifiedUtc
        accessedUtc := some fileName.accessedUtc }

def parseRecord (record : List UInt8) : Parse ParsedRecordOutcome := do
  if record.length < ntfsRecordSize ∨ record.take 4 ≠ fileRecordSignature then pure .none
  else
    let fileIndex ← leU32 record 0x2C
    let flags ← leU16 record 0x16
    if flags &&& fileRecordFlagInUse = 0 then pure .none
    else
      let baseRecord := (← leU64 record 0x20) &&& referenceMask
      let isDirectory : Bool := flags &&& fileRecordFlagDirectory ≠ 0
      let firstAttrOffset ← leU16 record 0x14
      match ← attributeWalk record isDirectory baseRecord firstAttrOffset.toNat {} with
      | none => pure .none
      | some state => pure (recordOutcome fileIndex isDirectory baseRecord state)

/-! ## A range of records -/

def recordSlice (shared : List UInt8) (index : ℕ) : List UInt8 :=
  (shared.drop (index * ntfsRecordSize)).take ntfsRecordSize

/-- Entries and extensions collected so far, with the outcome of one more record. -/
def collectOutcome (collected : List ParsedNtfsEntry × List ExtensionSizes) :
    ParsedRecordOutcome → List ParsedNtfsEntry × List ExtensionSizes
  | .entry entry => (collected.1 ++ [entry], collected.2)
  | .extension extension => (collected.1, collected.2 ++ [extension])
  | .none => collected

def parseRecordAt (shared : List UInt8)
    (collected : List ParsedNtfsEntry × List ExtensionSizes) (index : ℕ) :
    Parse (List ParsedNtfsEntry × List ExtensionSizes) := do
  if index * ntfsRecordSize + ntfsRecordSize > shared.length then throw .panic
  else if (recordSlice shared index).take 4 ≠ fileRecordSignature then pure collected
  else
    let outcome ← parseRecord (recordSlice shared index)
    pure (collectOutcome collected outcome)

def parseRecordRange (shared : List UInt8) (startRecord endRecord : ℕ) :
    Parse (List ParsedNtfsEntry × List ExtensionSizes) :=
  (List.range' startRecord (endRecord - startRecord)).foldlM (parseRecordAt shared) ([], [])

end Ntfs

end WinBlaze
