import WinBlaze.Core.Model

/-!
# The buffered index transaction

An index state keeps volumes, sessions, directories and files, each under its
own id, together with the lineage and change history of earlier rescans.
-/

namespace WinBlaze

abbrev FileRecords := KeyedArena FileRecord.id

abbrev VolumeRecords := KeyedArena VolumeRecord.id

abbrev ScanSessions := KeyedArena ScanSession.sessionId

structure BufferedIndexTransaction where
  volumes : VolumeRecords := .empty
  sessions : ScanSessions := .empty
  directories : DirectoryRecords := .empty
  files : FileRecords := .empty
  lineages : List FileLineageRecord := []
  fileChanges : List FileChangeSet := []
  committed : Bool := false

namespace BufferedIndexTransaction

instance : Inhabited BufferedIndexTransaction := ⟨{}⟩

def upsertSession (tx : BufferedIndexTransaction) (session : ScanSession) :
    BufferedIndexTransaction :=
  { tx with sessions := tx.sessions.insert session }

def insertVolume (tx : BufferedIndexTransaction) (volume : VolumeRecord) :
    BufferedIndexTransaction :=
  { tx with volumes := tx.volumes.insert volume }

def insertDirectory (tx : BufferedIndexTransaction) (directory : DirectoryRecord) :
    BufferedIndexTransaction :=
  { tx with directories := tx.directories.insert directory }

def insertFile (tx : BufferedIndexTransaction) (file : FileRecord) : BufferedIndexTransaction :=
  { tx with files := tx.files.insert file }

/-! ## Snapshots in id order -/

def snapshotVolumes (tx : BufferedIndexTransaction) : List VolumeRecord :=
  KeyOrder.sortByKey (fun volume ↦ volume.id.val.toNat) tx.volumes.records

def snapshotSessions (tx : BufferedIndexTransaction) : List ScanSession :=
  KeyOrder.sortByKey (fun session ↦ session.sessionId.toNat) tx.sessions.records

def snapshotDirectories (tx : BufferedIndexTransaction) : List DirectoryRecord :=
  KeyOrder.sortByKey (fun directory ↦ directory.id.val.toNat) tx.directories.records

def snapshotFiles (tx : BufferedIndexTransaction) : List FileRecord :=
  KeyOrder.sortByKey (fun file ↦ file.id.val.toNat) tx.files.records

end BufferedIndexTransaction

/-- A file record with its path materialized from the directory table. -/
def FileRecord.withPath (directories : DirectoryRecords) (file : FileRecord) : FileRecord :=
  if file.fullPath.isEmpty then
    { file with fullPath := pathFromParent directories file }
  else file

@[simp] theorem FileRecord.withPath_id (directories : DirectoryRecords) (file : FileRecord) :
    (file.withPath directories).id = file.id := by
  unfold FileRecord.withPath
  split <;> rfl

/-- Materializing a path stores the path `deriveFilePath` resolves on demand. -/
theorem FileRecord.withPath_eq (directories : DirectoryRecords) (file : FileRecord) :
    file.withPath directories = { file with fullPath := deriveFilePath directories file } := by
  unfold FileRecord.withPath deriveFilePath
  cases h : file.fullPath.isEmpty <;> simp

/-- A materialized path is not derived again. -/
theorem FileRecord.withPath_withPath (directories : DirectoryRecords) (file : FileRecord) :
    (file.withPath directories).withPath directories = file.withPath directories := by
  cases hempty : file.fullPath.isEmpty with
  | false => simp [FileRecord.withPath, hempty]
  | true => simp [FileRecord.withPath, hempty, pathFromParent]

namespace BufferedIndexTransaction

def snapshotFilesWithPaths (tx : BufferedIndexTransaction) : List FileRecord :=
  tx.snapshotFiles.map (FileRecord.withPath tx.directories)

/-- Ids stay pairwise different in a snapshot with paths. -/
theorem nodup_snapshotFilesWithPaths (tx : BufferedIndexTransaction) :
    (tx.snapshotFilesWithPaths.map FileRecord.id).Nodup := by
  have hids : FileRecord.id ∘ FileRecord.withPath tx.directories = FileRecord.id := by
    funext file
    exact file.withPath_id tx.directories
  rw [snapshotFilesWithPaths, List.map_map, hids]
  exact KeyOrder.nodup_map_sortByKey _ _ tx.files.nodup_keys

theorem mem_snapshotFilesWithPaths (tx : BufferedIndexTransaction) (file : FileRecord) :
    file ∈ tx.snapshotFilesWithPaths ↔
      ∃ stored ∈ tx.files.records, stored.withPath tx.directories = file := by
  simp [snapshotFilesWithPaths, snapshotFiles]

def fileIds (tx : BufferedIndexTransaction) : List FileId := tx.files.records.map FileRecord.id

/-- The path each file resolves to. -/
def resolvedPaths (tx : BufferedIndexTransaction) : List String :=
  tx.snapshotFilesWithPaths.map FileRecord.fullPath

theorem mem_map_id_snapshotFilesWithPaths (tx : BufferedIndexTransaction) (id : FileId) :
    id ∈ tx.snapshotFilesWithPaths.map FileRecord.id ↔ id ∈ tx.fileIds := by
  constructor
  · intro h
    obtain ⟨file, hfile, rfl⟩ := List.mem_map.mp h
    obtain ⟨stored, hstored, rfl⟩ := (mem_snapshotFilesWithPaths tx file).mp hfile
    rw [FileRecord.withPath_id]
    exact List.mem_map_of_mem hstored
  · intro h
    obtain ⟨stored, hstored, rfl⟩ := List.mem_map.mp h
    rw [← stored.withPath_id tx.directories]
    exact List.mem_map_of_mem ((mem_snapshotFilesWithPaths tx _).mpr ⟨stored, hstored, rfl⟩)

theorem mem_fileIds_iff_get? (tx : BufferedIndexTransaction) (id : FileId) :
    id ∈ tx.fileIds ↔ tx.files.get? id ≠ none := by
  rw [Ne, KeyedArena.get?_eq_none_iff, fileIds, List.mem_map]
  simp

/-! ## Merging a rescan by id -/

/-- One step of the loop over the change set: the current record of an added
or changed file is stored, with its lineage; a removed file is dropped. -/
def applyFileChange (previousById currentById : FileRecords) (tx : BufferedIndexTransaction)
    (change : FileChangeRecord) : BufferedIndexTransaction :=
  match change.kind with
  | .added | .modified | .renamed | .moved =>
      match currentById.get? change.fileId with
      | none => tx
      | some current =>
          let stored := tx.insertFile current
          match previousById.get? change.fileId with
          | none => stored
          | some previous =>
              match detectFileLineageChange previous current with
              | none => stored
              | some lineage => { stored with lineages := stored.lineages ++ [lineage] }
  | .removed => { tx with files := tx.files.remove change.fileId }

def applyIncrementalFiles (tx : BufferedIndexTransaction) (previous current : List FileRecord) :
    FileChangeSet × BufferedIndexTransaction :=
  let changeSet := diffFileRecords previous current
  if changeSet.changes.isEmpty then
    (changeSet, { tx with fileChanges := tx.fileChanges ++ [changeSet] })
  else
    let currentById : FileRecords := .ofList current
    let previousById : FileRecords := .ofList previous
    let merged := changeSet.changes.foldl (applyFileChange previousById currentById) tx
    (changeSet, { merged with fileChanges := merged.fileChanges ++ [changeSet] })

end BufferedIndexTransaction

end WinBlaze
