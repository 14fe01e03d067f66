import Mathlib.Algebra.Order.Floor.Div
import WinBlaze.Core.Scan
import WinBlaze.Lib.Blocks
import WinBlaze.Lib.Saturating
import WinBlaze.Scanner.Ntfs.Dump
import WinBlaze.Scanner.Ntfs.RecordRange

/-!
# Parsing the file table in pieces

The table arrives in blocks that need not end with a record. The parser thread
carries the rest of a block over to the next one, restores the sector ends of
the whole records it has, and parses them, on several workers when there are
many. Blocks, records and the workers' chunks cut the same bytes in three
different ways.
-/

namespace WinBlaze

namespace Ntfs

open Saturating

/-- Entries and extensions, in table order. -/
abbrev ParsedRecords := List ParsedNtfsEntry × List ExtensionSizes

/-! ## Fixups in place -/

/-- Restores the ends of these sectors in turn; a torn sector ends it. -/
def restoreSectors (bytesPerSector usaOffset : ℕ) (usn : List UInt8) :
    List ℕ → List UInt8 → List UInt8 × Bool
  | [], record => (record, true)
  | index :: rest, record =>
      match fixupSector bytesPerSector usaOffset usn record index with
      | some restored => restoreSectors bytesPerSector usaOffset usn rest restored
      | none => (record, false)

/-- `apply_record_fixups`: what it leaves of the record, and its answer. -/
def restoreRecord (bytesPerSector : ℕ) (record : List UInt8) : List UInt8 × Bool :=
  if record.length < 8 ∨ bytesPerSector < 2 then (record, false)
  else
    let usaOffset := (u16At record 4).toNat
    let usaCount := (u16At record 6).toNat
    if usaCount < 2 ∨ usaOffset + usaCount * 2 > record.length then (record, false)
    else
      restoreSectors bytesPerSector usaOffset
        [u8At record usaOffset, u8At record (usaOffset + 1)] (List.range' 1 (usaCount - 1)) record

def tornSignature : List UInt8 := [0x42, 0x41, 0x41, 0x44]

/-- One record of the buffer; a torn one loses its signature. -/
def fixupRecord (bytesPerSector : ℕ) (record : List UInt8) : List UInt8 :=
  if record.take 4 = fileRecordSignature then
    let restored := restoreRecord bytesPerSector record
    if restored.2 then restored.1 else tornSignature ++ restored.1.drop 4
  else record

def applyMftFixups (bytesPerSector : ℕ) (batch : List UInt8) : List UInt8 :=
  if ntfsRecordSize ≤ batch.length then
    fixupRecord bytesPerSector (batch.take ntfsRecordSize) ++
      applyMftFixups bytesPerSector (batch.drop ntfsRecordSize)
  else batch
termination_by batch.length
decreasing_by
  rw [List.length_drop]
  have : 0 < ntfsRecordSize := by decide
  omega

/-! ## Workers -/

def workerFailure : ParseFailure → ParseFailure
  | .panic => .error (.invalidRecord "parallel parser worker panicked")
  | .error error => .error error

def panicked {α : Type} : Parse α → Bool
  | .error .panic => true
  | _ => false

/-- Joins the workers in order. A failure ends the joining; a worker that is
then not joined passes its panic on. -/
def joinWorkers : List (Parse ParsedRecords) → Parse ParsedRecords
  | [] => .ok ([], [])
  | .ok chunk :: rest => do
      let others ← joinWorkers rest
      pure (chunk.1 ++ others.1, chunk.2 ++ others.2)
  | .error failure :: rest =>
      if rest.any panicked then .error .panic else .error (workerFailure failure)

/-- Every worker fixes up and parses its own piece of the buffer. -/
def fixupWorkers (bytesPerSector : ℕ) :
    List (ℕ × ℕ) → List UInt8 → Parse (List (Parse ParsedRecords))
  | [], _ => .ok []
  | range :: rest, remaining =>
      let chunkRecords := range.2 - range.1
      if remaining.length < chunkRecords * ntfsRecordSize then .error .panic
      else do
        let chunk := applyMftFixups bytesPerSector (remaining.take (chunkRecords * ntfsRecordSize))
        let others ← fixupWorkers bytesPerSector rest
          (remaining.drop (chunkRecords * ntfsRecordSize))
        pure (parseRecordRange chunk 0 chunkRecords :: others)

def fixupAndParseBatch (batch : List UInt8) (recordCount workers bytesPerSector : ℕ) :
    Parse ParsedRecords :=
  if workers ≤ 1 ∨ recordCount < 2048 then
    parseRecordRange (applyMftFixups bytesPerSector batch) 0 recordCount
  else do
    let chunkSize := recordCount ⌈/⌉ workers
    let handles ← fixupWorkers bytesPerSector
      (Blocks.chunkRanges chunkSize recordCount 0 workers) batch
    joinWorkers handles

/-! ## The parser thread -/

/-- A message to the emitting thread. -/
structure ParsedBatch where
  entries : List ParsedNtfsEntry
  extensions : List ExtensionSizes
  processedRecords : UInt64
  deriving DecidableEq, Repr

/-- The bytes to parse now, how many records they are, and the carry. -/
def takeRecords (carry block : List UInt8) : List UInt8 × ℕ × List UInt8 :=
  if carry.isEmpty ∧ block.length % ntfsRecordSize = 0 then
    (block, block.length / ntfsRecordSize, carry)
  else
    let joined := carry ++ block
    let fullRecords := joined.length / ntfsRecordSize
    (joined.take (fullRecords * ntfsRecordSize), fullRecords,
      joined.drop (fullRecords * ntfsRecordSize))

/-- The messages the thread sends, and the failure that ends it if one does.
A block is the filled part of a buffer or the error of the reader. -/
def runParser (workers bytesPerSector : ℕ) :
    List (Except String (List UInt8)) → List UInt8 → UInt64 → List ParsedBatch × Option ParseFailure
  | [], _, _ => ([], none)
  | .error message :: _, _, _ => ([], some (.error (.io message)))
  | .ok block :: rest, carry, processedRecords =>
      if block.isEmpty then ([], none)
      else
        let taken := takeRecords carry block
        match fixupAndParseBatch taken.1 taken.2.1 workers bytesPerSector with
        | .error failure => ([], some failure)
        | .ok parsed =>
            let processedRecords := satAdd processedRecords (.ofNat taken.2.1)
            let later := runParser workers bytesPerSector rest taken.2.2 processedRecords
            (⟨parsed.1, parsed.2, processedRecords⟩ :: later.1, later.2)

/-! ## A buffer parsed by workers -/

/-- The loop over the joined workers: entries go into the map, extensions are
collected. -/
def collectWorkers (collected : CollectedRecords) : List (Parse ParsedRecords) → Parse CollectedRecords
  | [] => .ok collected
  | .ok chunk :: rest =>
      collectWorkers
        { entries := chunk.1.foldl KeyedArena.insert collected.entries
          extensions := collected.extensions ++ chunk.2 } rest
  | .error failure :: rest =>
      if rest.any panicked then .error .panic else .error (workerFailure failure)

def collectMftRecordsParallel (bytes : List UInt8) (workerCount : ℕ) : Parse CollectedRecords :=
  let recordCount := bytes.length / ntfsRecordSize
  let workers := max (min workerCount recordCount) 1
  if workerCount ≤ 1 ∨ bytes.length < ntfsRecordSize * 2 then collectMftRecords bytes
  else if recordCount ≤ 1 then collectMftRecords bytes
  else if workers ≤ 1 then collectMftRecords bytes
  else
    collectWorkers {} ((Blocks.chunkRanges (recordCount ⌈/⌉ workers) recordCount 0 workers).map
      (fun range ↦ parseRecordRange bytes range.1 range.2))

/-- The entry map handed to `parse_entries`. -/
def handedEntries (collected : Parse CollectedRecords) : Parse Entries :=
  collected.map (fun collected ↦ applyExtensionSizes collected.entries collected.extensions)

/-- `parse_mft_records_parallel`, with the number of steps an ancestor walk may take. -/
def parseMftRecordsParallel (fuel : ℕ) (rootText : String) (bytes : List UInt8) (workerCount : ℕ) :
    Option (Parse NtfsEnumeration) :=
  enumerateCollected fuel rootText (collectMftRecordsParallel bytes workerCount)

end Ntfs

end WinBlaze
