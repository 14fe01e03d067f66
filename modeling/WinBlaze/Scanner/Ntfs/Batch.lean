import WinBlaze.Core.Aggregate
import WinBlaze.Core.Scan
import WinBlaze.Scanner.Ntfs.Record

/-!
# Enumerating a whole MFT at once

The batch backend parses all records, folds the sizes of extension records into
their base entries, resolves the path of every directory by following parents
with a cache, and totals the directories.
-/

namespace WinBlaze

namespace Ntfs

open Saturating

/-- Parsed entries by record number. -/
abbrev Entries := KeyedArena (fun entry : ParsedNtfsEntry ↦ entry.fileId.val)

abbrev ResolvedPaths := IdMap UInt64 String

structure NtfsEnumeration where
  volume : VolumeRecord
  directories : List DirectoryRecord
  files : List FileRecord
  summary : ScanSummary
  deriving DecidableEq, Repr

def ntfsRootRecord : UInt64 := 5

/-- `join_path` of the scanner: unlike the core's, an empty base also gets a
separator. -/
def joinPath (base child : String) : String :=
  base ++ (if endsWithBackslash base then "" else "\\") ++ child

/-! ## Paths -/

/-- Entries whose ids are not on the stack. -/
def unvisited (entries : Entries) (stack : List UInt64) : List ParsedNtfsEntry :=
  entries.records.filter (fun entry ↦ entry.fileId.val ∉ stack)

theorem length_unvisited_lt {entries : Entries} {stack : List UInt64} {fileId : UInt64}
    {entry : ParsedNtfsEntry} (hentry : entries.get? fileId = some entry) (hstack : fileId ∉ stack) :
    (unvisited entries (fileId :: stack)).length < (unvisited entries stack).length := by
  obtain ⟨hmem, hid⟩ := (KeyedArena.get?_eq_some_iff entries fileId entry).mp hentry
  have hfilter : unvisited entries (fileId :: stack) =
      (unvisited entries stack).filter (fun entry ↦ entry.fileId.val ≠ fileId) := by
    rw [unvisited, unvisited, List.filter_filter]
    apply List.filter_congr
    intro entry _
    simp
  rw [hfilter]
  apply List.length_filter_lt_length_iff_exists.mpr
  refine ⟨entry, List.mem_filter.mpr ⟨hmem, ?_⟩, ?_⟩
  · rw [hid]
    exact decide_eq_true hstack
  · simp [hid]

/-- The path of an entry, and the cache with the paths found on the way. -/
def resolveEntryPath (entries : Entries) (rootText : String) (fileId : UInt64)
    (resolved : ResolvedPaths) (stack : List UInt64) : String × ResolvedPaths :=
  match resolved.find? fileId with
  | some path => (path, resolved)
  | none =>
      if _hstack : fileId ∈ stack then (rootText, resolved)
      else
        match _hentry : entries.get? fileId with
        | none => (rootText, resolved)
        | some entry =>
            match entry.parentDirectoryId with
            | none => (rootText, resolved.set fileId rootText)
            | some parentId =>
                if parentId = fileId ∨ fileId = ntfsRootRecord then
                  (rootText, resolved.set fileId rootText)
                else if (entries.get? parentId).isNone ∧ parentId ≠ ntfsRootRecord then
                  (rootText, resolved)
                else
                  let parent := resolveEntryPath entries rootText parentId resolved (fileId :: stack)
                  let path := if entry.name.isEmpty then parent.1 else joinPath parent.1 entry.name
                  (path, parent.2.set fileId path)
termination_by (unvisited entries stack).length
decreasing_by exact length_unvisited_lt _hentry _hstack

/-! ## Records -/

/-- The file record of an entry. Its path is left to be derived. -/
def ParsedNtfsEntry.toFileRecord (entry : ParsedNtfsEntry) : FileRecord where
  id := entry.fileId
  parentDirectoryId := ⟨entry.parentDirectoryId.getD ntfsRootRecord⟩
  name := entry.name
  fullPath := ""
  sizeBytes := entry.sizeBytes
  allocationBytes := entry.allocationBytes
  attributes := entry.attributes
  timestamps := ⟨entry.createdUtc, entry.modifiedUtc, entry.accessedUtc⟩

/-- The entry with at least the sizes of an extension record. -/
def ParsedNtfsEntry.withSizes (entry : ParsedNtfsEntry) (sizes : ExtensionSizes) : ParsedNtfsEntry :=
  { entry with
    sizeBytes := max entry.sizeBytes sizes.sizeBytes
    allocationBytes := max entry.allocationBytes sizes.allocationBytes }

@[simp] theorem ParsedNtfsEntry.withSizes_fileId (entry : ParsedNtfsEntry) (sizes : ExtensionSizes) :
    (entry.withSizes sizes).fileId = entry.fileId := rfl

@[simp] theorem ParsedNtfsEntry.withSizes_isDirectory (entry : ParsedNtfsEntry)
    (sizes : ExtensionSizes) : (entry.withSizes sizes).isDirectory = entry.isDirectory := rfl

@[simp] theorem ParsedNtfsEntry.withSizes_parentDirectoryId (entry : ParsedNtfsEntry)
    (sizes : ExtensionSizes) :
    (entry.withSizes sizes).parentDirectoryId = entry.parentDirectoryId := rfl

/-- Folds one extension record into its base entry. -/
def applyExtensionSize (entries : Entries) (extension : ExtensionSizes) : Entries :=
  match entries.get? extension.baseRecord with
  | some entry => entries.insert (entry.withSizes extension)
  | none => entries

def applyExtensionSizes (entries : Entries) (extensions : List ExtensionSizes) : Entries :=
  extensions.foldl applyExtensionSize entries

def rootEntry : ParsedNtfsEntry where
  fileId := ⟨ntfsRootRecord⟩
  parentDirectoryId := none
  name := ""
  isDirectory := true
  hasAttributeList := false
  sizeBytes := 0
  allocationBytes := 0
  attributes := .directory
  createdUtc := none
  modifiedUtc := none
  accessedUtc := none

/-- The entries with record 5 added when it is missing. -/
def withRootEntry (entries : Entries) : Entries :=
  if (entries.get? ntfsRootRecord).isSome then entries else entries.insert rootEntry

structure BatchState where
  resolvedPaths : ResolvedPaths
  directories : List DirectoryRecord := []
  files : List FileRecord := []

def batchDirectory (entry : ParsedNtfsEntry) (fullPath : String) : DirectoryRecord where
  id := ⟨entry.fileId.val⟩
  parentDirectoryId :=
    if entry.fileId.val = ntfsRootRecord then none else entry.parentDirectoryId.map DirectoryId.mk
  name := entry.name
  fullPath := fullPath

/-- The loop body of `parseEntries`. -/
def visitEntry (entries : Entries) (rootText : String) (state : BatchState)
    (entry : ParsedNtfsEntry) : BatchState :=
  if entry.isDirectory then
    let resolved := resolveEntryPath entries rootText entry.fileId.val state.resolvedPaths []
    { state with
      resolvedPaths := resolved.2
      directories := state.directories ++ [batchDirectory entry resolved.1] }
  else { state with files := state.files ++ [entry.toFileRecord] }

def orderedEntries (entries : Entries) : List ParsedNtfsEntry :=
  KeyOrder.sortByKey (fun entry ↦ entry.fileId.val.toNat) entries.records

/-- The records of all entries, in id order. -/
def visitEntries (rootText : String) (entries : Entries) : BatchState :=
  (orderedEntries entries).foldl (visitEntry entries rootText)
    { resolvedPaths := IdMap.set .empty ntfsRootRecord rootText }

def sumSaturating (values : List UInt64) : UInt64 := values.foldl satAdd 0

/-- Files and directories among the entries. -/
def countEntries (entries : Entries) : UInt64 × UInt64 :=
  (.ofNat (entries.records.countP (fun entry ↦ !entry.isDirectory)),
    .ofNat (entries.records.countP (fun entry ↦ entry.isDirectory)))

/-- `none` when an ancestor walk of the aggregation takes more than `fuel` steps. -/
def parseEntries (fuel : ℕ) (rootText : String) (parsed : Entries) : Option NtfsEnumeration :=
  let entries := withRootEntry parsed
  let visited := visitEntries rootText entries
  let directories := KeyOrder.sortByKey (fun directory ↦ directory.id.val.toNat) visited.directories
  let files := KeyOrder.sortByKey (fun file ↦ file.id.val.toNat) visited.files
  let counts := countEntries entries
  (aggregateDirectoryRecords fuel directories files).map fun directories ↦ {
    volume := {
      id := ⟨0⟩
      mountPoint := rootText
      label := none
      fileSystem := .ntfs
      totalBytes := 0
      freeBytes := 0
      rootDirectoryId := ⟨ntfsRootRecord⟩ }
    directories := directories
    files := files
    summary := {
      filesSeen := counts.1
      directoriesSeen := counts.2
      totalSizeBytes := sumSaturating (files.map FileRecord.sizeBytes)
      totalAllocationBytes := sumSaturating (files.map FileRecord.allocationBytes) } }

/-! ## A buffer of records -/

/-- What the records parsed so far gave. A later entry replaces an earlier one
with its record number. -/
structure CollectedRecords where
  entries : Entries := .empty
  extensions : List ExtensionSizes := []

def CollectedRecords.add (collected : CollectedRecords) : ParsedRecordOutcome → CollectedRecords
  | .entry entry => { collected with entries := collected.entries.insert entry }
  | .extension extension => { collected with extensions := collected.extensions ++ [extension] }
  | .none => collected

/-- The bytes in pieces of a record's size; the last may be shorter. -/
def recordChunks (bytes : List UInt8) : List (List UInt8) :=
  (List.range ((bytes.length + ntfsRecordSize - 1) / ntfsRecordSize)).map (recordSlice bytes)

def collectRecord (collected : CollectedRecords) (record : List UInt8) : Parse CollectedRecords :=
  if record.length < ntfsRecordSize ∨ record.take 4 ≠ fileRecordSignature then pure collected
  else do
    let outcome ← parseRecord record
    pure (collected.add outcome)

def collectMftRecords (bytes : List UInt8) : Parse CollectedRecords :=
  if bytes.length < ntfsRecordSize then invalidRecord "MFT buffer too small"
  else (recordChunks bytes).foldlM collectRecord {}

/-- The entries with their extensions folded in, enumerated. -/
def enumerateCollected (fuel : ℕ) (rootText : String) (collected : Parse CollectedRecords) :
    Option (Parse NtfsEnumeration) :=
  match collected with
  | .error failure => some (.error failure)
  | .ok collected =>
      (parseEntries fuel rootText (applyExtensionSizes collected.entries collected.extensions)).map .ok

/-- `parse_mft_records`, with the number of steps an ancestor walk may take. -/
def parseMftRecords (fuel : ℕ) (rootText : String) (bytes : List UInt8) :
    Option (Parse NtfsEnumeration) :=
  enumerateCollected fuel rootText (collectMftRecords bytes)

end Ntfs

end WinBlaze
