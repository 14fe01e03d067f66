import WinBlaze.Lib.ByteCodec
import WinBlaze.Index.Store

/-!
# The binary snapshot format

Six length-prefixed sections behind a magic number and a version. Volumes,
sessions, lineages and change sets are written field by field; directories and
files are first encoded into a record buffer. The reader accepts versions 1
and 2, which differ in how a file path is stored.
-/

namespace WinBlaze

open ByteCodec

inductive IoErrorKind
  | unexpectedEof | notFound | other
  deriving DecidableEq, Repr

inductive IndexStorageError
  | io (kind : IoErrorKind) (message : String)
  | corruptSnapshot (message : String)
  deriving DecidableEq, Repr

namespace Snapshot

abbrev Writer := Encoder IndexStorageError

abbrev SnapshotReader := Decoder IndexStorageError

/-- The bytes `WBIX`. -/
def indexMagic : List UInt8 := [0x57, 0x42, 0x49, 0x58]

def indexFormatVersion : UInt32 := 2

def maxSnapshotStringBytes : ℕ := 1024 * 1024

/-- The UTF-8 bytes of a string. -/
def asBytes (value : String) : List UInt8 := value.toByteArray.data.toList

def u32Bytes (value : UInt32) : List UInt8 := leBytes 4 value.toNat

def u64Bytes (value : UInt64) : List UInt8 := leBytes 8 value.toNat

def i64Bytes (value : Int64) : List UInt8 := u64Bytes value.toUInt64

def encodeFileSystemKind : FileSystemKind → UInt8
  | .ntfs => 1
  | .refs => 2
  | .fat32 => 3
  | .exFat => 4
  | .unknown => 0

def decodeFileSystemKind (value : UInt8) : Except IndexStorageError FileSystemKind :=
  match value.toNat with
  | 0 => .ok .unknown
  | 1 => .ok .ntfs
  | 2 => .ok .refs
  | 3 => .ok .fat32
  | 4 => .ok .exFat
  | _ => .error (.corruptSnapshot "invalid filesystem kind")

def encodeScanState : ScanState → UInt8
  | .idle => 0
  | .initializing => 1
  | .scanning => 2
  | .indexing => 3
  | .completed => 4
  | .failed => 5
  | .cancelled => 6

def decodeScanState (value : UInt8) : Except IndexStorageError ScanState :=
  match value.toNat with
  | 0 => .ok .idle
  | 1 => .ok .initializing
  | 2 => .ok .scanning
  | 3 => .ok .indexing
  | 4 => .ok .completed
  | 5 => .ok .failed
  | 6 => .ok .cancelled
  | _ => .error (.corruptSnapshot "invalid scan state")

def encodeFileChangeKind : FileChangeKind → UInt8
  | .added => 0
  | .removed => 1
  | .modified => 2
  | .renamed => 3
  | .moved => 4

def decodeFileChangeKind (value : UInt8) : Except IndexStorageError FileChangeKind :=
  match value.toNat with
  | 0 => .ok .added
  | 1 => .ok .removed
  | 2 => .ok .modified
  | 3 => .ok .renamed
  | 4 => .ok .moved
  | _ => .error (.corruptSnapshot "invalid file change kind")

/-! ## Writing -/

def writeU8 (value : UInt8) : Writer Unit := writeAll [value]

def writeU32 (value : UInt32) : Writer Unit := writeAll (u32Bytes value)

def writeU64 (value : UInt64) : Writer Unit := writeAll (u64Bytes value)

def writeLen (value : ℕ) : Writer Unit :=
  if value < 2 ^ 64 then writeU64 (UInt64.ofNat value)
  else throw (.corruptSnapshot "collection too large")

def writeString (value : String) : Writer Unit := do
  writeLen (asBytes value).length
  writeAll (asBytes value)

def writeOptionString : Option String → Writer Unit
  | some value => do
      writeU8 1
      writeString value
  | none => writeU8 0

def writeVolumeRecord (volume : VolumeRecord) : Writer Unit := do
  writeU64 volume.id.val
  writeString volume.mountPoint
  writeOptionString volume.label
  writeU8 (encodeFileSystemKind volume.fileSystem)
  writeU64 volume.totalBytes
  writeU64 volume.freeBytes
  writeU64 volume.rootDirectoryId.val

def writeVolumeRecords (volumes : List VolumeRecord) : Writer Unit := do
  writeLen volumes.length
  volumes.forM writeVolumeRecord

def writeSessionRecord (session : ScanSession) : Writer Unit := do
  writeU64 session.sessionId
  writeU64 session.volumeId.val
  writeString session.rootPath
  writeU8 (encodeScanState session.state)
  writeU64 session.progress.completedItems
  writeU64 session.progress.totalItems
  writeU64 session.progress.completedBytes
  writeU64 session.progress.totalBytes

def writeSessionRecords (sessions : List ScanSession) : Writer Unit := do
  writeLen sessions.length
  sessions.forM writeSessionRecord

def pushU32 (buffer : List UInt8) (value : UInt32) : List UInt8 := buffer ++ u32Bytes value

def pushU64 (buffer : List UInt8) (value : UInt64) : List UInt8 := buffer ++ u64Bytes value

/-- The length is cast to `u64`, not checked. -/
def pushString (buffer : List UInt8) (value : String) : List UInt8 :=
  pushU64 buffer (UInt64.ofNat (asBytes value).length) ++ asBytes value

def pushSnapshotPath (buffer : List UInt8) (value : String) : List UInt8 :=
  if value.isEmpty then buffer ++ [0] else pushString (buffer ++ [1]) value

def pushOptionI64 (buffer : List UInt8) : Option Int64 → List UInt8
  | some value => buffer ++ [1] ++ i64Bytes value
  | none => buffer ++ [0]

def pushParent (buffer : List UInt8) : Option DirectoryId → List UInt8
  | some parent => pushU64 (buffer ++ [1]) parent.val
  | none => buffer ++ [0]

def directoryBuffer (directory : DirectoryRecord) : List UInt8 :=
  let buffer := pushU64 [] directory.id.val
  let buffer := pushParent buffer directory.parentDirectoryId
  let buffer := pushString buffer directory.name
  let buffer := pushString buffer directory.fullPath
  let buffer := pushU64 buffer directory.directBytes
  let buffer := pushU64 buffer directory.totalBytes
  let buffer := pushU64 buffer directory.directEntries
  pushU64 buffer directory.totalEntries

def writeDirectoryRecords (directories : List DirectoryRecord) : Writer Unit := do
  writeLen directories.length
  directories.forM fun directory ↦ writeAll (directoryBuffer directory)

def fileBuffer (file : FileRecord) : List UInt8 :=
  let buffer := pushU64 [] file.id.val
  let buffer := pushU64 buffer file.parentDirectoryId.val
  let buffer := pushString buffer file.name
  let buffer := pushSnapshotPath buffer file.fullPath
  let buffer := pushU64 buffer file.sizeBytes
  let buffer := pushU64 buffer file.allocationBytes
  let buffer := pushU32 buffer file.attributes.bits
  let buffer := pushOptionI64 buffer file.timestamps.created
  let buffer := pushOptionI64 buffer file.timestamps.modified
  pushOptionI64 buffer file.timestamps.accessed

def writeFileRecords (files : List FileRecord) : Writer Unit := do
  writeLen files.length
  files.forM fun file ↦ writeAll (fileBuffer file)

def writeLineageRecord (lineage : FileLineageRecord) : Writer Unit := do
  writeU64 lineage.fileId.val
  writeU64 lineage.previousParentDirectoryId.val
  writeU64 lineage.currentParentDirectoryId.val
  writeString lineage.previousFullPath
  writeString lineage.currentFullPath
  writeU8 lineage.renamed.toUInt8
  writeU8 lineage.moved.toUInt8

def writeLineageRecords (lineages : List FileLineageRecord) : Writer Unit := do
  writeLen lineages.length
  lineages.forM writeLineageRecord

def writeFileChange (change : FileChangeRecord) : Writer Unit := do
  writeU64 change.fileId.val
  writeU8 (encodeFileChangeKind change.kind)
  writeOptionString change.previousFullPath
  writeOptionString change.currentFullPath

def writeChangeSet (changeSet : FileChangeSet) : Writer Unit := do
  writeLen changeSet.changes.length
  changeSet.changes.forM writeFileChange

def writeChangeSets (changeSets : List FileChangeSet) : Writer Unit := do
  writeLen changeSets.length
  changeSets.forM writeChangeSet

/-- `writeState` over records that are already sorted by id. -/
def writeSortedRecords (volumes : List VolumeRecord) (sessions : List ScanSession)
    (directories : List DirectoryRecord) (files : List FileRecord)
    (lineages : List FileLineageRecord) (fileChanges : List FileChangeSet) : Writer Unit := do
  writeAll indexMagic
  writeU32 indexFormatVersion
  writeVolumeRecords volumes
  writeSessionRecords sessions
  writeDirectoryRecords directories
  writeFileRecords files
  writeLineageRecords lineages
  writeChangeSets fileChanges

def writeState (state : BufferedIndexTransaction) : Writer Unit := do
  writeAll indexMagic
  writeU32 indexFormatVersion
  writeVolumeRecords state.snapshotVolumes
  writeSessionRecords state.snapshotSessions
  writeDirectoryRecords state.snapshotDirectories
  writeFileRecords state.snapshotFiles
  writeLineageRecords state.lineages
  writeChangeSets state.fileChanges

/-- The bytes a writer leaves in an empty file. -/
def written (writer : Writer Unit) : Except IndexStorageError (List UInt8) :=
  (writer.run []).map Prod.snd

/-! ## Reading -/

def corrupt {α : Type} (message : String) : SnapshotReader α :=
  throw (.corruptSnapshot message)

def readExact (count : ℕ) : SnapshotReader (List UInt8) := fun reader ↦
  if reader.remaining < count then
    .error (.io .unexpectedEof "snapshot ended before field was complete")
  else if reader.inner.length < count then
    .error (.io .unexpectedEof "failed to fill whole buffer")
  else
    .ok (reader.inner.take count, ⟨reader.inner.drop count, reader.remaining - count⟩)

def remainingBytes : SnapshotReader ℕ := fun reader ↦ .ok (reader.remaining, reader)

def readU8 : SnapshotReader UInt8 := do
  let value ← readExact 1
  pure (value.headD 0)

def readU32 : SnapshotReader UInt32 := do
  let value ← readExact 4
  pure (UInt32.ofNat (ofLeBytes value))

def readU64 : SnapshotReader UInt64 := do
  let value ← readExact 8
  pure (UInt64.ofNat (ofLeBytes value))

def readI64 : SnapshotReader Int64 := do
  let value ← readExact 8
  pure (UInt64.ofNat (ofLeBytes value)).toInt64

/-- A length is a `usize`, which holds every `u64` on the 64-bit targets. -/
def readLen : SnapshotReader ℕ := do
  let value ← readU64
  pure value.toNat

def validateCollectionLen (len minBytesPerItem : ℕ) (label : String) : SnapshotReader Unit := do
  if minBytesPerItem = 0 then
    pure ()
  else
    let remaining ← remainingBytes
    if remaining / minBytesPerItem < len then
      corrupt (label ++ " length exceeds remaining snapshot data")
    else
      pure ()

/-- `String::from_utf8` with the error of the reader. -/
def decodeUtf8 (value : List UInt8) : SnapshotReader String :=
  match String.fromUTF8? ⟨value.toArray⟩ with
  | some text => pure text
  | none => corrupt "invalid utf-8 string"

def readString : SnapshotReader String := do
  let len ← readLen
  if maxSnapshotStringBytes < len then
    corrupt "string length exceeds maximum"
  else
    let remaining ← remainingBytes
    if remaining < len then
      corrupt "string length exceeds remaining snapshot data"
    else
      let value ← readExact len
      decodeUtf8 value

def readSnapshotPath (version : UInt32) : SnapshotReader String := do
  if version < 2 then
    readString
  else
    let flag ← readU8
    match flag.toNat with
    | 0 => pure ""
    | 1 => readString
    | _ => corrupt "invalid path-present flag"

def readOptionString : SnapshotReader (Option String) := do
  let flag ← readU8
  match flag.toNat with
  | 0 => pure none
  | 1 => do
      let value ← readString
      pure (some value)
  | _ => corrupt "invalid optional string flag"

def readOptionI64 : SnapshotReader (Option Int64) := do
  let flag ← readU8
  match flag.toNat with
  | 0 => pure none
  | 1 => do
      let value ← readI64
      pure (some value)
  | _ => corrupt "invalid optional integer flag"

def readVolumeRecord : SnapshotReader VolumeRecord := do
  let id ← readU64
  let mountPoint ← readString
  let label ← readOptionString
  let kind ← readU8
  let fileSystem ← decodeFileSystemKind kind
  let totalBytes ← readU64
  let freeBytes ← readU64
  let rootDirectoryId ← readU64
  pure ⟨⟨id⟩, mountPoint, label, fileSystem, totalBytes, freeBytes, ⟨rootDirectoryId⟩⟩

def readVolumeRecords : SnapshotReader (List VolumeRecord) := do
  let len ← readLen
  validateCollectionLen len 34 "volume records"
  readMany readVolumeRecord len

def readScanProgress : SnapshotReader ScanProgress := do
  let completedItems ← readU64
  let totalItems ← readU64
  let completedBytes ← readU64
  let totalBytes ← readU64
  pure ⟨completedItems, totalItems, completedBytes, totalBytes⟩

def readSessionRecord : SnapshotReader ScanSession := do
  let sessionId ← readU64
  let volumeId ← readU64
  let rootPath ← readString
  let kind ← readU8
  let state ← decodeScanState kind
  let progress ← readScanProgress
  pure ⟨sessionId, ⟨volumeId⟩, rootPath, state, progress⟩

def readSessionRecords : SnapshotReader (List ScanSession) := do
  let len ← readLen
  validateCollectionLen len 41 "session records"
  readMany readSessionRecord len

def readParent : SnapshotReader (Option DirectoryId) := do
  let flag ← readU8
  match flag.toNat with
  | 0 => pure none
  | 1 => do
      let parent ← readU64
      pure (some ⟨parent⟩)
  | _ => corrupt "invalid directory parent flag"

def readDirectoryRecord : SnapshotReader DirectoryRecord := do
  let id ← readU64
  let parentDirectoryId ← readParent
  let name ← readString
  let fullPath ← readString
  let directBytes ← readU64
  let totalBytes ← readU64
  let directEntries ← readU64
  let totalEntries ← readU64
  pure ⟨⟨id⟩, parentDirectoryId, name, fullPath, directBytes, totalBytes, directEntries,
    totalEntries⟩

def readDirectoryRecords : SnapshotReader DirectoryRecords := do
  let len ← readLen
  validateCollectionLen len 41 "directory records"
  let directories ← readMany readDirectoryRecord len
  pure (.ofList directories)

def readFileTimestamps : SnapshotReader FileTimestamps := do
  let created ← readOptionI64
  let modified ← readOptionI64
  let accessed ← readOptionI64
  pure ⟨created, modified, accessed⟩

def readFileRecord (version : UInt32) : SnapshotReader FileRecord := do
  let id ← readU64
  let parentDirectoryId ← readU64
  let name ← readString
  let fullPath ← readSnapshotPath version
  let sizeBytes ← readU64
  let allocationBytes ← readU64
  let attributes ← readU32
  let timestamps ← readFileTimestamps
  pure ⟨⟨id⟩, ⟨parentDirectoryId⟩, name, fullPath, sizeBytes, allocationBytes, ⟨attributes⟩,
    timestamps⟩

def readFileRecords (version : UInt32) : SnapshotReader FileRecords := do
  let len ← readLen
  let minBytesPerItem := if 2 ≤ version then 48 else 57
  validateCollectionLen len minBytesPerItem "file records"
  let files ← readMany (readFileRecord version) len
  pure (.ofList files)

def readLineageRecord : SnapshotReader FileLineageRecord := do
  let fileId ← readU64
  let previousParent ← readU64
  let currentParent ← readU64
  let previousFullPath ← readString
  let currentFullPath ← readString
  let renamed ← readU8
  let moved ← readU8
  pure ⟨⟨fileId⟩, ⟨previousParent⟩, ⟨currentParent⟩, previousFullPath, currentFullPath,
    renamed ≠ 0, moved ≠ 0⟩

def readLineageRecords : SnapshotReader (List FileLineageRecord) := do
  let len ← readLen
  validateCollectionLen len 34 "lineage records"
  readMany readLineageRecord len

def readFileChange : SnapshotReader FileChangeRecord := do
  let fileId ← readU64
  let flag ← readU8
  let kind ← decodeFileChangeKind flag
  let previousFullPath ← readOptionString
  let currentFullPath ← readOptionString
  pure ⟨⟨fileId⟩, kind, previousFullPath, currentFullPath⟩

def readChangeSet : SnapshotReader FileChangeSet := do
  let len ← readLen
  validateCollectionLen len 10 "file changes"
  let changes ← readMany readFileChange len
  pure ⟨changes⟩

def readChangeSets : SnapshotReader (List FileChangeSet) := do
  let len ← readLen
  validateCollectionLen len 8 "change sets"
  readMany readChangeSet len

def readState : SnapshotReader BufferedIndexTransaction := do
  let magic ← readExact 4
  if magic ≠ indexMagic then
    corrupt "invalid magic"
  else
    let version ← readU32
    if ¬(1 ≤ version ∧ version ≤ indexFormatVersion) then
      corrupt "unsupported format version"
    else
      let volumes ← readVolumeRecords
      let sessions ← readSessionRecords
      let directories ← readDirectoryRecords
      let files ← readFileRecords version
      let lineages ← readLineageRecords
      let fileChanges ← readChangeSets
      pure {
        volumes := .ofList volumes
        sessions := .ofList sessions
        directories := directories
        files := files
        lineages := lineages
        fileChanges := fileChanges
        committed := false }

/-- Decodes a snapshot from a byte source of promised length `len`. -/
def deserializeStateFromReader (bytes : List UInt8) (len : ℕ) :
    Except IndexStorageError BufferedIndexTransaction :=
  (readState.run ⟨bytes, len⟩).map Prod.fst

end Snapshot

end WinBlaze
