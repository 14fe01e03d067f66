import WinBlaze.Lib.Attempts
import WinBlaze.Lib.ByteWords

/-!
# Batched directory metadata

A query fills a buffer with a chain of records, each with the distance to the
next one. The iterator follows the chain through the bytes of the buffer. All
its reads are checked here: a read outside of the memory it is to stay in, or of
misaligned units, is a failure of its own and not the error for a bad record.
-/

namespace WinBlaze

open Attempts ByteCodec

/-! ## Names -/

/-- The exact name of an entry. -/
inductive EntryName
  | short (name : String)
  | original (units : List UInt16)
  deriving DecidableEq

namespace EntryName

/-- The name fits a short one. -/
def isCompact (units : List UInt16) : Bool := units.length ≤ 22 && units.all (· < 128)

def fromWide (units : List UInt16) : EntryName :=
  if isCompact units then .short (.ofList (units.map (fun unit ↦ .ofNat unit.toNat)))
  else .original units

end EntryName

structure DirectoryEntry where
  name : EntryName
  attributes : UInt32
  sizeBytes : UInt64
  allocationBytes : UInt64
  identity : UInt64 × BitVec 128
  createdUtc : UInt64
  modifiedUtc : UInt64
  accessedUtc : UInt64
  deriving DecidableEq

/-! ## The buffer -/

/-- A vector of words, which is never larger than the address space. -/
structure MetadataBuffer where
  words : List UInt64
  fits : 8 * words.length < 2 ^ 63

def MetadataBuffer.bytes (buffer : MetadataBuffer) : List UInt8 :=
  buffer.words.flatMap (fun word ↦ leBytes 8 word.toNat)

theorem MetadataBuffer.length_bytes (buffer : MetadataBuffer) :
    buffer.bytes.length = 8 * buffer.words.length := by
  simp [bytes, List.length_flatMap, Nat.mul_comm]

structure DirectoryMetadataIterator where
  buffer : MetadataBuffer
  offset : ℕ
  volume : UInt64
  refill : Bool
  compactNames : Bool

inductive RecordFailure
  | outside
  | invalidRecord
  deriving DecidableEq

/-- How a batch ends. -/
inductive BatchEnd
  | refill
  | failed (failure : RecordFailure)
  deriving DecidableEq

/-- The number in some bytes. -/
def field (bytes : List UInt8) (place width : ℕ) : ℕ := ofLeBytes ((bytes.drop place).take width)

/-- `record[place..place + width]` as a number. -/
def readNumber (record : List UInt8) (place width : ℕ) : Except RecordFailure ℕ :=
  if place + width ≤ record.length then .ok (field record place width) else .error .outside

/-- The units of a slice made from the address of `name`. -/
def readUnits (name : List UInt8) (address count : ℕ) : Except RecordFailure (List UInt16) :=
  if 2 ∣ address ∧ 2 * count ≤ name.length then
    .ok ((List.range count).map (fun i ↦ .ofNat (field name (2 * i) 2)))
  else .error .outside

namespace DirectoryMetadataIterator

/-- The iterator after `fill`, at the first record. -/
def filled (iterator : DirectoryMetadataIterator) (buffer : MetadataBuffer) :
    DirectoryMetadataIterator :=
  { iterator with buffer := buffer, offset := 0, refill := false }

/-- The bytes from the current record on. -/
def recordBytes (iterator : DirectoryMetadataIterator) : Except RecordFailure (List UInt8) :=
  if iterator.offset ≤ iterator.buffer.bytes.length ∧
      88 ≤ iterator.buffer.bytes.length - iterator.offset then
    .ok (iterator.buffer.bytes.drop iterator.offset)
  else .error .invalidRecord

def nameBytes (record : List UInt8) (next length : ℕ) : Except RecordFailure (List UInt8) :=
  if 88 + length ≤ record.length ∧ 2 ∣ length ∧ (next = 0 ∨ 88 + length ≤ next ∧ 8 ∣ next) then
    .ok ((record.drop 88).take length)
  else .error .invalidRecord

/-- `.` and `..` -/
def isStructural (units : List UInt16) : Bool := units == [46] || units == [46, 46]

/-- A size, of a negative one 0. -/
def clampSize (size : UInt64) : UInt64 := (max size.toInt64 0).toUInt64

def directoryEntry (volume : UInt64) (record : List UInt8) (units : List UInt16) :
    Except RecordFailure DirectoryEntry := do
  let attributes ← readNumber record 56 4
  let size ← readNumber record 40 8
  let allocation ← readNumber record 48 8
  let id ← readNumber record 72 16
  let created ← readNumber record 8 8
  let accessed ← readNumber record 16 8
  let modified ← readNumber record 24 8
  pure
    { name := .fromWide units
      attributes := .ofNat attributes
      sizeBytes := clampSize (.ofNat size)
      allocationBytes := clampSize (.ofNat allocation)
      identity := (volume, .ofNat 128 id)
      createdUtc := .ofNat created
      modifiedUtc := .ofNat modified
      accessedUtc := .ofNat accessed }

/-- The entry of a record, none for a structural one. -/
def entryOf (volume : UInt64) (record : List UInt8) (units : List UInt16) :
    Except RecordFailure (Option DirectoryEntry) :=
  if isStructural units then pure none else some <$> directoryEntry volume record units

/-- To the next record, or to the next batch. -/
def advance (iterator : DirectoryMetadataIterator) (next : ℕ) :
    Except RecordFailure DirectoryMetadataIterator :=
  if next = 0 then .ok { iterator with refill := true }
  else if iterator.offset + next < 2 ^ 64 ∧
      iterator.offset + next < iterator.buffer.bytes.length then
    .ok { iterator with offset := iterator.offset + next }
  else .error .invalidRecord

def record (iterator : DirectoryMetadataIterator) :
    Except RecordFailure (Option DirectoryEntry × DirectoryMetadataIterator) := do
  let record ← iterator.recordBytes
  let next ← readNumber record 0 4
  let length ← readNumber record 60 4
  let name ← nameBytes record next length
  let units ← readUnits name (iterator.offset + 88) (length / 2)
  let entry ← entryOf iterator.volume record units
  let advanced ←
    { iterator with
      compactNames := iterator.compactNames && EntryName.isCompact units }.advance next
  pure (entry, advanced)

end DirectoryMetadataIterator

end WinBlaze
