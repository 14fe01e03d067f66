import WinBlaze.Core.Paths
import WinBlaze.Index.Merge
import WinBlaze.Index.Repository

/-!
# Any number of rescans

After a rescan is merged by path, the files of the index are exactly the
remapped files of the rescan. So the paths of the index are those of the last
rescan, and a path keeps its file id as long as every rescan contains it.
-/

namespace WinBlaze

open Saturating Renumber BufferedIndexTransaction

/-- What a rescan can change about the file at a path. -/
structure FileMetadata where
  name : String
  sizeBytes : UInt64
  allocationBytes : UInt64
  attributes : FileAttributes
  timestamps : FileTimestamps
  deriving DecidableEq, Repr

def FileRecord.metadata (file : FileRecord) : FileMetadata :=
  ⟨file.name, file.sizeBytes, file.allocationBytes, file.attributes, file.timestamps⟩

/-! ## Indexes and rescans with consistent paths -/

/-- Directory paths that occur in the scans: none is empty and no two differ
by a trailing backslash only. -/
structure ScanPaths (known : String → Prop) : Prop where
  ne_empty : ∀ path, known path → path ≠ ""
  separated : ∀ path other, known path → known other → path ≠ other ++ "\\"

/-- Every file is stored with the path of its directory and its name. -/
structure Located (known : String → Prop) (tx : BufferedIndexTransaction) : Prop where
  directory_known : ∀ directory ∈ tx.directories.records, known directory.fullPath
  directory_paths : (tx.directories.records.map DirectoryRecord.fullPath).Nodup
  plain_names : ∀ file ∈ tx.files.records, '\\' ∉ file.name.toList
  file_location : ∀ file ∈ tx.files.records, ∃ directory ∈ tx.directories.records,
    directory.id = file.parentDirectoryId ∧
      file.fullPath = joinPath directory.fullPath file.name
  file_paths : (tx.files.records.map FileRecord.fullPath).Nodup

/-- A scan leaves the path of a file to its directory. -/
structure Rescan (tx : BufferedIndexTransaction) : Prop where
  directory_ne_empty : ∀ directory ∈ tx.directories.records, directory.fullPath ≠ ""
  directory_paths : (tx.directories.records.map DirectoryRecord.fullPath).Nodup
  plain_names : ∀ file ∈ tx.files.records, '\\' ∉ file.name.toList
  no_stored_path : ∀ file ∈ tx.files.records, file.fullPath = ""
  parent_present : ∀ file ∈ tx.files.records, ∃ directory ∈ tx.directories.records,
    directory.id = file.parentDirectoryId
  file_paths : tx.resolvedPaths.Nodup

structure RecordIdsAtMost (bound : ℕ) (tx : BufferedIndexTransaction) : Prop where
  files : ∀ file ∈ tx.files.records, file.id.val.toNat ≤ bound
  directories : ∀ directory ∈ tx.directories.records, directory.id.val.toNat ≤ bound

structure ReferencesAtMost (bound : ℕ) (tx : BufferedIndexTransaction) : Prop where
  parents : ∀ directory ∈ tx.directories.records, ∀ parent ∈ directory.parentDirectoryId,
    parent.val.toNat ≤ bound
  file_parents : ∀ file ∈ tx.files.records, file.parentDirectoryId.val.toNat ≤ bound
  roots : ∀ volume ∈ tx.volumes.records, volume.rootDirectoryId.val.toNat ≤ bound

/-- The number of ids a rescan can add. -/
def rescanSize (tx : BufferedIndexTransaction) : ℕ :=
  tx.files.records.length + tx.directories.records.length

/-- An index, a rescan, and ids that leave room for the fresh ones. -/
structure RescanStep (known : String → Prop) (bound : ℕ)
    (state tx : BufferedIndexTransaction) : Prop where
  paths : ScanPaths known
  index : Located known state
  state_ids : RecordIdsAtMost bound state
  rescan : Rescan tx
  rescan_known : ∀ directory ∈ tx.directories.records, known directory.fullPath
  rescan_ids : RecordIdsAtMost bound tx
  references : ReferencesAtMost bound tx
  room : bound + rescanSize tx < maxValue

theorem snapshotFilesWithPaths_of_stored {tx : BufferedIndexTransaction}
    (h : ∀ file ∈ tx.files.records, file.fullPath ≠ "") :
    tx.snapshotFilesWithPaths = tx.snapshotFiles := by
  rw [snapshotFilesWithPaths]
  conv_rhs => rw [← List.map_id tx.snapshotFiles]
  apply List.map_congr_left
  intro file hfile
  have hstored := h file ((KeyOrder.mem_sortByKey _ _ _).mp hfile)
  rw [FileRecord.withPath, if_neg]
  · rfl
  · exact fun hempty ↦ hstored (String.isEmpty_iff.mp hempty)

namespace Located

variable {known : String → Prop} {tx : BufferedIndexTransaction}

theorem stored_path (hpaths : ScanPaths known) (h : Located known tx) {file : FileRecord}
    (hfile : file ∈ tx.files.records) : file.fullPath ≠ "" := by
  obtain ⟨directory, hdirectory, _, hpath⟩ := h.file_location file hfile
  rw [hpath]
  exact joinPath_ne_empty _ (hpaths.ne_empty _ (h.directory_known directory hdirectory))

theorem snapshotFilesWithPaths_eq (hpaths : ScanPaths known) (h : Located known tx) :
    tx.snapshotFilesWithPaths = tx.snapshotFiles :=
  snapshotFilesWithPaths_of_stored fun _ hfile ↦ h.stored_path hpaths hfile

theorem mem_snapshot_iff (hpaths : ScanPaths known) (h : Located known tx) (file : FileRecord) :
    file ∈ tx.snapshotFilesWithPaths ↔ file ∈ tx.files.records := by
  rw [h.snapshotFilesWithPaths_eq hpaths]
  exact KeyOrder.mem_sortByKey _ _ _

theorem mem_resolvedPaths_iff (hpaths : ScanPaths known) (h : Located known tx) (path : String) :
    path ∈ tx.resolvedPaths ↔ ∃ file ∈ tx.files.records, file.fullPath = path := by
  rw [resolvedPaths, List.mem_map]
  simp only [h.mem_snapshot_iff hpaths]

theorem get?_snapshot (hpaths : ScanPaths known) (h : Located known tx) (id : FileId) :
    (KeyedArena.ofList tx.snapshotFilesWithPaths : FileRecords).get? id = tx.files.get? id := by
  apply Option.ext
  intro file
  rw [KeyedArena.get?_ofList_eq_some_iff tx.nodup_snapshotFilesWithPaths,
    KeyedArena.get?_eq_some_iff, h.mem_snapshot_iff hpaths]

end Located

theorem located_empty (known : String → Prop) : Located known {} where
  directory_known := fun _ h ↦ nomatch h
  directory_paths := List.nodup_nil
  plain_names := fun _ h ↦ nomatch h
  file_location := fun _ h ↦ nomatch h
  file_paths := List.nodup_nil

/-! ## The remapped rescan -/

namespace RescanStep

variable {known : String → Prop} {bound : ℕ} {state tx : BufferedIndexTransaction}

/-- A file of the rescan with its path and its new id. -/
abbrev remappedFiles (state tx : BufferedIndexTransaction) : List FileRecord :=
  remapCurrentFilesByPath state.snapshotFilesWithPaths tx.snapshotFilesWithPaths

abbrev newDirectoryIds (state tx : BufferedIndexTransaction) : DirectoryIds :=
  remappedDirectoryIds state.directories tx.snapshotDirectories (remappedFiles state tx) tx.volumes

/-- A scanned file resolves to its directory's path and its name. -/
theorem exists_directory_of_scanned (h : RescanStep known bound state tx) {file : FileRecord}
    (hfile : file ∈ tx.snapshotFilesWithPaths) :
    '\\' ∉ file.name.toList ∧ file.parentDirectoryId.val.toNat ≤ bound ∧
      file.id.val.toNat ≤ bound ∧
      ∃ directory ∈ tx.directories.records, directory.id = file.parentDirectoryId ∧
        file.fullPath = joinPath directory.fullPath file.name := by
  obtain ⟨stored, hstored, rfl⟩ := (mem_snapshotFilesWithPaths tx file).mp hfile
  obtain ⟨directory, hdirectory, hid⟩ := h.rescan.parent_present stored hstored
  have hget : tx.directories.get? stored.parentDirectoryId = some directory :=
    (KeyedArena.get?_eq_some_iff ..).mpr ⟨hdirectory, hid⟩
  rw [FileRecord.withPath_eq]
  refine ⟨h.rescan.plain_names stored hstored, h.references.file_parents stored hstored,
    h.rescan_ids.files stored hstored, directory, hdirectory, hid, ?_⟩
  simp [deriveFilePath, h.rescan.no_stored_path stored hstored, pathFromParent, hget]

theorem length_snapshotFilesWithPaths (tx : BufferedIndexTransaction) :
    tx.snapshotFilesWithPaths.length = tx.files.records.length := by
  simp [snapshotFilesWithPaths, snapshotFiles]

theorem nextFileId_bounds (h : RescanStep known bound state tx) :
    (∀ old ∈ state.snapshotFilesWithPaths, old.id.val.toNat <
      (nextFileId state.snapshotFilesWithPaths tx.snapshotFilesWithPaths).toNat) ∧
    (nextFileId state.snapshotFilesWithPaths tx.snapshotFilesWithPaths).toNat ≤ bound + 1 := by
  have hroom := h.room
  constructor
  · intro old hold
    have hbound := h.state_ids.files old ((h.index.mem_snapshot_iff h.paths old).mp hold)
    exact lt_nextFileId (List.mem_append_left _ hold) (by omega)
  · have hmax : (maxId ((state.snapshotFilesWithPaths ++ tx.snapshotFilesWithPaths).map
        fun record ↦ record.id.val)).toNat ≤ bound := by
      apply maxId_le
      intro id hid
      obtain ⟨file, hfile, rfl⟩ := List.mem_map.mp hid
      rcases List.mem_append.mp hfile with hfile | hfile
      · exact h.state_ids.files file ((h.index.mem_snapshot_iff h.paths file).mp hfile)
      · exact (h.exists_directory_of_scanned hfile).2.2.1
    rw [nextFileId, toNat_satAdd, UInt64.toNat_one]
    omega

theorem nodup_remappedFiles (h : RescanStep known bound state tx) :
    ((remappedFiles state tx).map FileRecord.id).Nodup := by
  obtain ⟨hbelow, hnext⟩ := h.nextFileId_bounds
  have hroom := h.room
  refine nodup_remapCurrentFilesByPath state.nodup_snapshotFilesWithPaths h.rescan.file_paths ?_
    hbelow
  rw [length_snapshotFilesWithPaths]
  unfold rescanSize at hroom
  omega

/-- A remapped file has the id of an indexed file exactly when it has its path. -/
theorem id_eq_iff_path_eq (h : RescanStep known bound state tx) {old file : FileRecord}
    (hold : old ∈ state.files.records) (hfile : file ∈ remappedFiles state tx) :
    old.id = file.id ↔ old.fullPath = file.fullPath := by
  have hold' : old ∈ state.snapshotFilesWithPaths := (h.index.mem_snapshot_iff h.paths old).mpr hold
  obtain ⟨scanned, hscanned, hrecord, hassigned⟩ := exists_scanned_of_mem_remapped hfile
  have hpath : file.fullPath = scanned.fullPath := by rw [hrecord]
  rw [hpath]
  rcases hassigned with ⟨other, hother, hotherPath, hotherId⟩ | ⟨hnew, hle, _⟩
  · rw [← hotherPath, ← hotherId]
    have hother' := (h.index.mem_snapshot_iff h.paths other).mp hother
    constructor
    · intro hid
      rw [state.files.eq_of_mem_of_key hold hother' hid]
    · intro hpaths
      rw [List.inj_on_of_nodup_map h.index.file_paths hold hother' hpaths]
  · constructor
    · intro hid
      have hlt := h.nextFileId_bounds.1 old hold'
      rw [hid] at hlt
      omega
    · intro hpaths
      exact (hnew (hpaths ▸ List.mem_map_of_mem hold')).elim

/-! ### Directories -/

theorem nodup_snapshotDirectories (tx : BufferedIndexTransaction) :
    (tx.snapshotDirectories.map DirectoryRecord.id).Nodup :=
  KeyOrder.nodup_map_sortByKey _ _ tx.directories.nodup_keys

theorem mem_snapshotDirectories (tx : BufferedIndexTransaction) (directory : DirectoryRecord) :
    directory ∈ tx.snapshotDirectories ↔ directory ∈ tx.directories.records :=
  KeyOrder.mem_sortByKey _ _ _

theorem nextDirectoryId_bounds (h : RescanStep known bound state tx) :
    (∀ old ∈ state.directories.records, old.id.val.toNat <
      (nextDirectoryId state.directories tx.snapshotDirectories (directoryReferences
        tx.snapshotDirectories (remappedFiles state tx) tx.volumes)).toNat) ∧
    (nextDirectoryId state.directories tx.snapshotDirectories (directoryReferences
        tx.snapshotDirectories (remappedFiles state tx) tx.volumes)).toNat ≤ bound + 1 := by
  have hroom := h.room
  unfold nextDirectoryId
  constructor
  · intro old hold
    have hbound := h.state_ids.directories old hold
    have hle := le_maxId (List.mem_append_left
      ((directoryReferences tx.snapshotDirectories (remappedFiles state tx) tx.volumes).map
        DirectoryId.val) (List.mem_append_left
      (tx.snapshotDirectories.map fun record ↦ record.id.val)
      (List.mem_map_of_mem (f := fun record : DirectoryRecord ↦ record.id.val) hold)))
    rw [toNat_satAdd, UInt64.toNat_one]
    omega
  · rw [toNat_satAdd, UInt64.toNat_one]
    refine (Nat.min_le_left _ _).trans (Nat.add_le_add_right (maxId_le ?_) 1)
    intro id hid
    rw [List.mem_append, List.mem_append] at hid
    rcases hid with (hid | hid) | hid
    · obtain ⟨directory, hdirectory, rfl⟩ := List.mem_map.mp hid
      exact h.state_ids.directories directory hdirectory
    · obtain ⟨directory, hdirectory, rfl⟩ := List.mem_map.mp hid
      exact h.rescan_ids.directories directory ((mem_snapshotDirectories tx directory).mp hdirectory)
    · obtain ⟨reference, hreference, rfl⟩ := List.mem_map.mp hid
      unfold directoryReferences at hreference
      rw [List.mem_append, List.mem_append] at hreference
      rcases hreference with (hparent | hparent) | hroot
      · obtain ⟨directory, hdirectory, hsome⟩ := List.mem_filterMap.mp hparent
        exact h.references.parents directory
          ((mem_snapshotDirectories tx directory).mp hdirectory) reference hsome
      · obtain ⟨file, hfile, rfl⟩ := List.mem_map.mp hparent
        obtain ⟨scanned, hscanned, hrecord, _⟩ := exists_scanned_of_mem_remapped hfile
        rw [hrecord]
        exact (h.exists_directory_of_scanned hscanned).2.1
      · obtain ⟨volume, hvolume, rfl⟩ := List.mem_map.mp hroot
        exact h.references.roots volume hvolume

theorem nodup_newDirectoryIds (h : RescanStep known bound state tx) :
    (tx.snapshotDirectories.map fun directory ↦
      (newDirectoryIds state tx).lookup directory.id).Nodup := by
  obtain ⟨hbelow, hnext⟩ := h.nextDirectoryId_bounds
  have hroom := h.room
  have hpaths : (tx.snapshotDirectories.map DirectoryRecord.fullPath).Nodup :=
    KeyOrder.nodup_map_sortByKey _ _ h.rescan.directory_paths
  refine nodup_remappedDirectoryIds _ _ (nodup_snapshotDirectories tx) hpaths ?_ hbelow
  have hlength : tx.snapshotDirectories.length = tx.directories.records.length :=
    KeyOrder.length_sortByKey _ _
  unfold rescanSize at hroom
  omega

theorem directories_remapByPath (h : RescanStep known bound state tx) :
    (state.remapByPath tx).directories.records =
      tx.snapshotDirectories.map (DirectoryRecord.remap (newDirectoryIds state tx)) := by
  refine KeyedArena.ofList_records ?_
  rw [remapCurrentDirectoryIdsByPath, List.map_map]
  exact h.nodup_newDirectoryIds

theorem files_remapByPath (h : RescanStep known bound state tx) :
    (state.remapByPath tx).files.records =
      (remappedFiles state tx).map (FileRecord.remapParent (newDirectoryIds state tx)) := by
  refine KeyedArena.ofList_records ?_
  rw [remapCurrentDirectoryIdsByPath, List.map_map]
  exact h.nodup_remappedFiles

/-- A directory with a known path keeps the id the index has for that path. -/
theorem newDirectoryId_of_path (h : RescanStep known bound state tx)
    {old directory : DirectoryRecord} (hold : old ∈ state.directories.records)
    (hdirectory : directory ∈ tx.directories.records) (hpath : old.fullPath = directory.fullPath) :
    (newDirectoryIds state tx).lookup directory.id = old.id := by
  have hne := h.paths.ne_empty _ (h.rescan_known directory hdirectory)
  obtain ⟨id, hid, hassigned⟩ := exists_assigned_of_mem state.directories
    (remappedFiles state tx) tx.volumes (nodup_snapshotDirectories tx)
    ((mem_snapshotDirectories tx directory).mpr hdirectory) hne
  rw [newDirectoryIds, hid]
  rcases hassigned with ⟨other, hother, hotherPath, rfl⟩ | ⟨hnew, _⟩
  · rw [List.inj_on_of_nodup_map h.index.directory_paths hold hother
      (hpath.trans hotherPath.symm)]
  · exact (hnew (hpath ▸ List.mem_map_of_mem hold)).elim

/-! ### The remapped rescan as an index -/

/-- A file of the remapped rescan comes from one scanned file. -/
theorem exists_scanned_of_mem (h : RescanStep known bound state tx) {file : FileRecord}
    (hfile : file ∈ (state.remapByPath tx).files.records) :
    ∃ scanned ∈ tx.snapshotFilesWithPaths, ∃ directory ∈ tx.directories.records,
      directory.id = scanned.parentDirectoryId ∧
      scanned.fullPath = joinPath directory.fullPath scanned.name ∧
      file = { scanned with
        id := file.id
        parentDirectoryId := (newDirectoryIds state tx).lookup directory.id } := by
  rw [h.files_remapByPath] at hfile
  obtain ⟨remapped, hremapped, rfl⟩ := List.mem_map.mp hfile
  obtain ⟨scanned, hscanned, hrecord, _⟩ := exists_scanned_of_mem_remapped hremapped
  obtain ⟨_, _, _, directory, hdirectory, hid, hpath⟩ := h.exists_directory_of_scanned hscanned
  refine ⟨scanned, hscanned, directory, hdirectory, hid, hpath, ?_⟩
  rw [hrecord, hid]
  rfl

/-- Every scanned file is in the remapped rescan, under some ids. -/
theorem exists_mem_of_scanned (h : RescanStep known bound state tx) {scanned : FileRecord}
    (hscanned : scanned ∈ tx.snapshotFilesWithPaths) :
    ∃ file ∈ (state.remapByPath tx).files.records,
      file.fullPath = scanned.fullPath ∧ file.metadata = scanned.metadata := by
  obtain ⟨id, hremapped, _⟩ := exists_remapped_of_mem_scanned state.snapshotFilesWithPaths hscanned
  rw [h.files_remapByPath]
  exact ⟨_, List.mem_map_of_mem hremapped, rfl, rfl⟩

theorem remap_mem_directories (h : RescanStep known bound state tx) {directory : DirectoryRecord}
    (hdirectory : directory ∈ tx.directories.records) :
    directory.remap (newDirectoryIds state tx) ∈ (state.remapByPath tx).directories.records := by
  rw [h.directories_remapByPath]
  exact List.mem_map_of_mem ((mem_snapshotDirectories tx directory).mpr hdirectory)

theorem map_fullPath_remappedFiles (state tx : BufferedIndexTransaction) :
    (remappedFiles state tx).map FileRecord.fullPath = tx.resolvedPaths := by
  unfold remappedFiles remapCurrentFilesByPath
  exact map_zipWith_left (length_assignIds _ _ _).symm fun _ _ ↦ rfl

theorem located_remapByPath (h : RescanStep known bound state tx) :
    Located known (state.remapByPath tx) where
  directory_known := by
    intro directory hdirectory
    rw [h.directories_remapByPath] at hdirectory
    obtain ⟨scanned, hscanned, rfl⟩ := List.mem_map.mp hdirectory
    exact h.rescan_known scanned ((mem_snapshotDirectories tx scanned).mp hscanned)
  directory_paths := by
    rw [h.directories_remapByPath, List.map_map]
    exact KeyOrder.nodup_map_sortByKey _ DirectoryRecord.fullPath h.rescan.directory_paths
  plain_names := by
    intro file hfile
    obtain ⟨scanned, hscanned, _, _, _, _, heq⟩ := h.exists_scanned_of_mem hfile
    rw [heq]
    exact (h.exists_directory_of_scanned hscanned).1
  file_location := by
    intro file hfile
    obtain ⟨scanned, _, directory, hdirectory, _, hpath, heq⟩ := h.exists_scanned_of_mem hfile
    refine ⟨directory.remap (newDirectoryIds state tx), h.remap_mem_directories hdirectory, ?_, ?_⟩
    · rw [heq]
      rfl
    · rw [heq]
      exact hpath
  file_paths := by
    rw [h.files_remapByPath, List.map_map]
    have hpaths := map_fullPath_remappedFiles state tx
    exact hpaths ▸ h.rescan.file_paths

theorem recordIdsAtMost_remapByPath (h : RescanStep known bound state tx) :
    RecordIdsAtMost (bound + rescanSize tx) (state.remapByPath tx) where
  files := by
    intro file hfile
    rw [h.files_remapByPath] at hfile
    obtain ⟨remapped, hremapped, rfl⟩ := List.mem_map.mp hfile
    obtain ⟨_, _, _, hassigned⟩ := exists_scanned_of_mem_remapped hremapped
    change remapped.id.val.toNat ≤ _
    unfold rescanSize
    rcases hassigned with ⟨old, hold, _, hid⟩ | ⟨_, _, hlt⟩
    · have hbound := h.state_ids.files old ((h.index.mem_snapshot_iff h.paths old).mp hold)
      rw [hid] at hbound
      omega
    · have hnext := h.nextFileId_bounds.2
      rw [length_snapshotFilesWithPaths] at hlt
      omega
  directories := by
    intro directory hdirectory
    rw [h.directories_remapByPath] at hdirectory
    obtain ⟨scanned, hscanned, rfl⟩ := List.mem_map.mp hdirectory
    have hne := h.paths.ne_empty _
      (h.rescan_known scanned ((mem_snapshotDirectories tx scanned).mp hscanned))
    obtain ⟨id, hid, hassigned⟩ := exists_assigned_of_mem state.directories
      (remappedFiles state tx) tx.volumes (nodup_snapshotDirectories tx) hscanned hne
    change ((newDirectoryIds state tx).lookup scanned.id).val.toNat ≤ _
    rw [newDirectoryIds, hid]
    unfold rescanSize
    rcases hassigned with ⟨old, hold, _, rfl⟩ | ⟨_, hlt⟩
    · have hbound := h.state_ids.directories old hold
      omega
    · have hnext := h.nextDirectoryId_bounds.2
      have hlength : tx.snapshotDirectories.length = tx.directories.records.length :=
        KeyOrder.length_sortByKey _ _
      omega

/-- At one path, the index and the remapped rescan agree on the id, the parent
and the name. -/
theorem same_place_of_path_eq (h : RescanStep known bound state tx) {old file : FileRecord}
    (hold : old ∈ state.files.records) (hfile : file ∈ (state.remapByPath tx).files.records)
    (hpath : old.fullPath = file.fullPath) :
    old.id = file.id ∧ old.parentDirectoryId = file.parentDirectoryId ∧ old.name = file.name := by
  have hid : old.id = file.id := by
    have hfile' := hfile
    rw [h.files_remapByPath] at hfile'
    obtain ⟨remapped, hremapped, rfl⟩ := List.mem_map.mp hfile'
    exact (h.id_eq_iff_path_eq hold hremapped).mpr hpath
  obtain ⟨scanned, hscanned, directory, hdirectory, _, hscannedPath, heq⟩ :=
    h.exists_scanned_of_mem hfile
  obtain ⟨oldDirectory, holdDirectory, holdId, holdPath⟩ := h.index.file_location old hold
  have hknown := h.index.directory_known oldDirectory holdDirectory
  have hknown' := h.rescan_known directory hdirectory
  have hjoin : joinPath oldDirectory.fullPath old.name = joinPath directory.fullPath scanned.name := by
    rw [← holdPath, hpath, heq]
    exact hscannedPath
  obtain ⟨hdirectoryPath, hname⟩ := joinPath_inj (h.paths.ne_empty _ hknown)
    (h.paths.ne_empty _ hknown') (h.index.plain_names old hold)
    (h.exists_directory_of_scanned hscanned).1 (h.paths.separated _ _ hknown hknown')
    (h.paths.separated _ _ hknown' hknown) hjoin
  refine ⟨hid, ?_, ?_⟩
  · rw [heq, ← holdId]
    exact (h.newDirectoryId_of_path holdDirectory hdirectory hdirectoryPath).symm
  · rw [heq]
    exact hname

theorem path_eq_of_id_eq (h : RescanStep known bound state tx) {old file : FileRecord}
    (hold : old ∈ state.files.records) (hfile : file ∈ (state.remapByPath tx).files.records)
    (hid : old.id = file.id) : old.fullPath = file.fullPath := by
  rw [h.files_remapByPath] at hfile
  obtain ⟨remapped, hremapped, rfl⟩ := List.mem_map.mp hfile
  exact (h.id_eq_iff_path_eq hold hremapped).mp hid

/-- At one path, nothing changed exactly when the metadata is the same, and
then the stored record is the scanned one. -/
theorem unchangedFrom_iff (h : RescanStep known bound state tx) {old file : FileRecord}
    (hold : old ∈ state.files.records) (hfile : file ∈ (state.remapByPath tx).files.records)
    (hpath : old.fullPath = file.fullPath) :
    (old.unchangedFrom file ↔ old.metadata = file.metadata) ∧
      (old.unchangedFrom file → old = file) := by
  obtain ⟨hid, hparent, hname⟩ := h.same_place_of_path_eq hold hfile hpath
  obtain ⟨oldId, oldParent, oldName, oldPath, oldSize, oldAllocation, oldAttributes, oldTimes⟩ := old
  obtain ⟨id, parent, name, path, size, allocation, attributes, times⟩ := file
  obtain rfl : oldId = id := hid
  obtain rfl : oldParent = parent := hparent
  obtain rfl : oldName = name := hname
  obtain rfl : oldPath = path := hpath
  simp only [FileRecord.unchangedFrom, FileRecord.metadata, FileMetadata.mk.injEq, true_and]
  rintro ⟨rfl, rfl, rfl, rfl⟩
  rfl

/-! ### The merged index -/

theorem get?_files_mergePathMatched (h : RescanStep known bound state tx) (id : FileId) :
    (state.mergePathMatched tx).2.files.get? id = (state.remapByPath tx).files.get? id := by
  rw [mergePathMatched, get?_mergeIncremental, h.index.get?_snapshot h.paths,
    h.located_remapByPath.get?_snapshot h.paths]
  cases hfile : (state.remapByPath tx).files.get? id with
  | none => rfl
  | some file =>
      cases hold : state.files.get? id with
      | none => rfl
      | some old =>
          obtain ⟨hfileMem, rfl⟩ := (KeyedArena.get?_eq_some_iff ..).mp hfile
          obtain ⟨holdMem, hid⟩ := (KeyedArena.get?_eq_some_iff ..).mp hold
          have hpath := h.path_eq_of_id_eq holdMem hfileMem hid
          by_cases hsame : old.unchangedFrom file
          · simp only [mergedFile, if_pos hsame]
            rw [(h.unchangedFrom_iff holdMem hfileMem hpath).2 hsame]
          · simp only [mergedFile, if_neg hsame]

/-- The merged files are exactly the files of the remapped rescan. -/
theorem files_mergePathMatched (h : RescanStep known bound state tx) :
    (state.mergePathMatched tx).2.files.records.Perm (state.remapByPath tx).files.records :=
  (KeyedArena.same_iff_get? _ _).mpr h.get?_files_mergePathMatched

theorem located_mergePathMatched (h : RescanStep known bound state tx) :
    Located known (state.mergePathMatched tx).2 := by
  have hlocated := h.located_remapByPath
  have hfiles := h.files_mergePathMatched
  have hdirectories : (state.mergePathMatched tx).2.directories = (state.remapByPath tx).directories :=
    directories_mergeIncremental _ _
  refine ⟨?_, ?_, ?_, ?_, ?_⟩
  · rw [hdirectories]
    exact hlocated.directory_known
  · rw [hdirectories]
    exact hlocated.directory_paths
  · intro file hfile
    exact hlocated.plain_names file (hfiles.mem_iff.mp hfile)
  · intro file hfile
    rw [hdirectories]
    exact hlocated.file_location file (hfiles.mem_iff.mp hfile)
  · exact ((hfiles.map FileRecord.fullPath).nodup_iff).mpr hlocated.file_paths

theorem recordIdsAtMost_mergePathMatched (h : RescanStep known bound state tx) :
    RecordIdsAtMost (bound + rescanSize tx) (state.mergePathMatched tx).2 := by
  have hids := h.recordIdsAtMost_remapByPath
  have hdirectories : (state.mergePathMatched tx).2.directories = (state.remapByPath tx).directories :=
    directories_mergeIncremental _ _
  refine ⟨?_, ?_⟩
  · intro file hfile
    exact hids.files file (h.files_mergePathMatched.mem_iff.mp hfile)
  · rw [hdirectories]
    exact hids.directories

end RescanStep

/-! ## What one rescan does -/

/-- The path a change is about. -/
def FileChangeRecord.path (change : FileChangeRecord) : Option String :=
  change.currentFullPath.or change.previousFullPath

/-- The index after a rescan holds the files of the rescan by path, keeps the
id of every path it had, and the change set lists each difference once. -/
structure RescanOutcome (before tx after : BufferedIndexTransaction)
    (changeSet : FileChangeSet) : Prop where
  files : ∀ path metadata,
    (∃ file ∈ after.snapshotFilesWithPaths, file.fullPath = path ∧ file.metadata = metadata) ↔
      ∃ file ∈ tx.snapshotFilesWithPaths, file.fullPath = path ∧ file.metadata = metadata
  paths_nodup : after.resolvedPaths.Nodup
  ids_nodup : (after.snapshotFilesWithPaths.map FileRecord.id).Nodup
  ids_kept : ∀ old ∈ before.snapshotFilesWithPaths, ∀ new ∈ after.snapshotFilesWithPaths,
    old.fullPath = new.fullPath → old.id = new.id
  kinds : ∀ change ∈ changeSet.changes,
    change.kind = .added ∨ change.kind = .removed ∨ change.kind = .modified
  added : ∀ path,
    (∃ change ∈ changeSet.changes, change.kind = .added ∧ change.path = some path) ↔
      path ∈ tx.resolvedPaths ∧ path ∉ before.resolvedPaths
  removed : ∀ path,
    (∃ change ∈ changeSet.changes, change.kind = .removed ∧ change.path = some path) ↔
      path ∈ before.resolvedPaths ∧ path ∉ tx.resolvedPaths
  modified : ∀ path,
    (∃ change ∈ changeSet.changes, change.kind = .modified ∧ change.path = some path) ↔
      ∃ old ∈ before.snapshotFilesWithPaths, ∃ new ∈ tx.snapshotFilesWithPaths,
        old.fullPath = path ∧ new.fullPath = path ∧ old.metadata ≠ new.metadata
  listed_once : (changeSet.changes.map FileChangeRecord.path).Nodup

namespace RescanStep

variable {known : String → Prop} {bound : ℕ} {state tx : BufferedIndexTransaction}

theorem mem_resolvedPaths_remapped_iff (h : RescanStep known bound state tx) (path : String) :
    (∃ file ∈ (state.remapByPath tx).files.records, file.fullPath = path) ↔
      path ∈ tx.resolvedPaths := by
  rw [resolvedPaths, List.mem_map]
  constructor
  · rintro ⟨file, hfile, rfl⟩
    obtain ⟨scanned, hscanned, _, _, _, _, heq⟩ := h.exists_scanned_of_mem hfile
    exact ⟨scanned, hscanned, by rw [heq]⟩
  · rintro ⟨scanned, hscanned, rfl⟩
    obtain ⟨file, hfile, hpath, _⟩ := h.exists_mem_of_scanned hscanned
    exact ⟨file, hfile, hpath⟩

/-- A file that kept its path was neither renamed nor moved. -/
theorem changeKind_of_path_eq (h : RescanStep known bound state tx) {old file : FileRecord}
    (hold : old ∈ state.files.records) (hfile : file ∈ (state.remapByPath tx).files.records)
    (hpath : old.fullPath = file.fullPath) : changeKind old file = .modified := by
  obtain ⟨hid, hparent, hname⟩ := h.same_place_of_path_eq hold hfile hpath
  simp [changeKind, detectFileLineageChange, hid, hparent, hname, hpath]

/-- The changes of a merge, by path. -/
theorem mem_changes_iff (h : RescanStep known bound state tx) (change : FileChangeRecord) :
    change ∈ (state.mergePathMatched tx).1.changes ↔
      (∃ file ∈ (state.remapByPath tx).files.records, file.fullPath ∉ state.resolvedPaths ∧
        change = ⟨file.id, .added, none, some file.fullPath⟩) ∨
      (∃ old ∈ state.files.records, ∃ file ∈ (state.remapByPath tx).files.records,
        old.fullPath = file.fullPath ∧ old.metadata ≠ file.metadata ∧
          change = ⟨file.id, .modified, some old.fullPath, some file.fullPath⟩) ∨
      (∃ old ∈ state.files.records, old.fullPath ∉ tx.resolvedPaths ∧
        change = ⟨old.id, .removed, some old.fullPath, none⟩) := by
  have hlocated := h.located_remapByPath
  rw [mergePathMatched, changes_mergeIncremental,
    mem_diffFileRecords_iff]
  simp only [currentChange_eq_some_iff, removedChange_eq_some_iff, h.index.get?_snapshot h.paths,
    hlocated.get?_snapshot h.paths, h.index.mem_snapshot_iff h.paths,
    hlocated.mem_snapshot_iff h.paths]
  have habsent : ∀ file ∈ (state.remapByPath tx).files.records,
      state.files.get? file.id = none ↔ file.fullPath ∉ state.resolvedPaths := by
    intro file hfile
    rw [h.index.mem_resolvedPaths_iff h.paths, KeyedArena.get?_eq_none_iff]
    constructor
    · rintro hnone ⟨old, hold, hpath⟩
      exact hnone old hold (h.same_place_of_path_eq hold hfile hpath).1
    · intro hnew old hold hid
      exact hnew ⟨old, hold, h.path_eq_of_id_eq hold hfile hid⟩
  have hvanished : ∀ old ∈ state.files.records,
      (state.remapByPath tx).files.get? old.id = none ↔ old.fullPath ∉ tx.resolvedPaths := by
    intro old hold
    rw [← h.mem_resolvedPaths_remapped_iff, KeyedArena.get?_eq_none_iff]
    constructor
    · rintro hnone ⟨file, hfile, hpath⟩
      exact hnone file hfile (h.same_place_of_path_eq hold hfile hpath.symm).1.symm
    · intro hnew file hfile hid
      exact hnew ⟨file, hfile, (h.path_eq_of_id_eq hold hfile hid.symm).symm⟩
  constructor
  · rintro (⟨file, hfile, ⟨hnone, hchange⟩ | ⟨old, hsome, hdiffers, hchange⟩⟩ |
      ⟨old, hold, hnone, hchange⟩)
    · exact Or.inl ⟨file, hfile, (habsent file hfile).mp hnone, hchange⟩
    · obtain ⟨hold, hid⟩ := (KeyedArena.get?_eq_some_iff ..).mp hsome
      have hpath := h.path_eq_of_id_eq hold hfile hid
      refine Or.inr (Or.inl ⟨old, hold, file, hfile, hpath, ?_, ?_⟩)
      · exact fun hsame ↦ hdiffers ((h.unchangedFrom_iff hold hfile hpath).1.mpr hsame)
      · rw [hchange, h.changeKind_of_path_eq hold hfile hpath]
    · exact Or.inr (Or.inr ⟨old, hold, (hvanished old hold).mp hnone, hchange⟩)
  · rintro (⟨file, hfile, hnew, hchange⟩ | ⟨old, hold, file, hfile, hpath, hdiffers, hchange⟩ |
      ⟨old, hold, hgone, hchange⟩)
    · exact Or.inl ⟨file, hfile, Or.inl ⟨(habsent file hfile).mpr hnew, hchange⟩⟩
    · have hid := (h.same_place_of_path_eq hold hfile hpath).1
      refine Or.inl ⟨file, hfile, Or.inr ⟨old, (KeyedArena.get?_eq_some_iff ..).mpr ⟨hold, hid⟩,
        ?_, ?_⟩⟩
      · exact fun hsame ↦ hdiffers ((h.unchangedFrom_iff hold hfile hpath).1.mp hsame)
      · rw [hchange, h.changeKind_of_path_eq hold hfile hpath]
    · exact Or.inr ⟨old, hold, (hvanished old hold).mpr hgone, hchange⟩

theorem mem_files_mergePathMatched (h : RescanStep known bound state tx) (file : FileRecord) :
    file ∈ (state.mergePathMatched tx).2.snapshotFilesWithPaths ↔
      file ∈ (state.remapByPath tx).files.records := by
  rw [h.located_mergePathMatched.mem_snapshot_iff h.paths, h.files_mergePathMatched.mem_iff]

/-- The files of the merged index and of the scan, by path. -/
theorem exists_file_iff (h : RescanStep known bound state tx) (path : String)
    (metadata : FileMetadata) :
    (∃ file ∈ (state.remapByPath tx).files.records,
        file.fullPath = path ∧ file.metadata = metadata) ↔
      ∃ file ∈ tx.snapshotFilesWithPaths, file.fullPath = path ∧ file.metadata = metadata := by
  constructor
  · rintro ⟨file, hfile, hpath, hmetadata⟩
    obtain ⟨scanned, hscanned, _, _, _, _, heq⟩ := h.exists_scanned_of_mem hfile
    refine ⟨scanned, hscanned, ?_, ?_⟩
    · rw [← hpath, heq]
    · rw [← hmetadata, heq]
      rfl
  · rintro ⟨scanned, hscanned, hpath, hmetadata⟩
    obtain ⟨file, hfile, hpath', hmetadata'⟩ := h.exists_mem_of_scanned hscanned
    exact ⟨file, hfile, hpath'.trans hpath, hmetadata'.trans hmetadata⟩

theorem path_injective_on_changes (h : RescanStep known bound state tx)
    {change other : FileChangeRecord} (hchange : change ∈ (state.mergePathMatched tx).1.changes)
    (hother : other ∈ (state.mergePathMatched tx).1.changes) (hpath : change.path = other.path) :
    change.fileId = other.fileId := by
  have hfileIds : ∀ file ∈ (state.remapByPath tx).files.records,
      ∀ file' ∈ (state.remapByPath tx).files.records, file.fullPath = file'.fullPath →
        file.id = file'.id := fun file hfile file' hfile' heq ↦ by
    rw [List.inj_on_of_nodup_map h.located_remapByPath.file_paths hfile hfile' heq]
  have hgone : ∀ old : FileRecord, old.fullPath ∉ tx.resolvedPaths →
      ∀ file ∈ (state.remapByPath tx).files.records, old.fullPath ≠ file.fullPath := by
    intro old habsent file hfile heq
    exact habsent ((h.mem_resolvedPaths_remapped_iff _).mp ⟨file, hfile, heq.symm⟩)
  rcases (h.mem_changes_iff change).mp hchange with
    ⟨file, hfile, _, rfl⟩ | ⟨_, _, file, hfile, _, _, rfl⟩ | ⟨old, hold, habsent, rfl⟩ <;>
  rcases (h.mem_changes_iff other).mp hother with
    ⟨file', hfile', _, rfl⟩ | ⟨_, _, file', hfile', _, _, rfl⟩ | ⟨old', hold', habsent', rfl⟩
  case inl.inl | inl.inr.inl | inr.inl.inl | inr.inl.inr.inl =>
    exact hfileIds file hfile file' hfile' (Option.some.inj hpath)
  case inl.inr.inr | inr.inl.inr.inr =>
    exact (hgone old' habsent' file hfile (Option.some.inj hpath).symm).elim
  case inr.inr.inl | inr.inr.inr.inl =>
    exact (hgone old habsent file' hfile' (Option.some.inj hpath)).elim
  case inr.inr.inr.inr =>
    rw [List.inj_on_of_nodup_map h.index.file_paths hold hold' (Option.some.inj hpath)]

/-- One rescan, from an index and a rescan with consistent paths. -/
theorem outcome (h : RescanStep known bound state tx) :
    RescanOutcome state tx (state.mergePathMatched tx).2 (state.mergePathMatched tx).1 where
  files := by
    intro path metadata
    simp only [h.mem_files_mergePathMatched]
    exact h.exists_file_iff path metadata
  paths_nodup := by
    rw [resolvedPaths, h.located_mergePathMatched.snapshotFilesWithPaths_eq h.paths]
    exact KeyOrder.nodup_map_sortByKey _ _ h.located_mergePathMatched.file_paths
  ids_nodup := nodup_snapshotFilesWithPaths _
  ids_kept := by
    intro old hold new hnew hpath
    exact (h.same_place_of_path_eq ((h.index.mem_snapshot_iff h.paths old).mp hold)
      ((h.mem_files_mergePathMatched new).mp hnew) hpath).1
  kinds := by
    intro change hchange
    rcases (h.mem_changes_iff change).mp hchange with
      ⟨_, _, _, rfl⟩ | ⟨_, _, _, _, _, _, rfl⟩ | ⟨_, _, _, rfl⟩
    · exact Or.inl rfl
    · exact Or.inr (Or.inr rfl)
    · exact Or.inr (Or.inl rfl)
  added := by
    intro path
    simp only [h.mem_changes_iff]
    constructor
    · rintro ⟨change, ⟨file, hfile, hnew, rfl⟩ | ⟨_, _, _, _, _, _, rfl⟩ | ⟨_, _, _, rfl⟩, hkind,
        hpath⟩
      · obtain rfl : file.fullPath = path := Option.some.inj hpath
        exact ⟨(h.mem_resolvedPaths_remapped_iff _).mp ⟨file, hfile, rfl⟩, hnew⟩
      · cases hkind
      · cases hkind
    · rintro ⟨hpath, hnew⟩
      obtain ⟨file, hfile, rfl⟩ := (h.mem_resolvedPaths_remapped_iff path).mpr hpath
      exact ⟨_, Or.inl ⟨file, hfile, hnew, rfl⟩, rfl, rfl⟩
  removed := by
    intro path
    simp only [h.mem_changes_iff]
    rw [h.index.mem_resolvedPaths_iff h.paths]
    constructor
    · rintro ⟨change, ⟨_, _, _, rfl⟩ | ⟨_, _, _, _, _, _, rfl⟩ | ⟨old, hold, hgone, rfl⟩, hkind,
        hpath⟩
      · cases hkind
      · cases hkind
      · obtain rfl : old.fullPath = path := Option.some.inj hpath
        exact ⟨⟨old, hold, rfl⟩, hgone⟩
    · rintro ⟨⟨old, hold, rfl⟩, hgone⟩
      exact ⟨_, Or.inr (Or.inr ⟨old, hold, hgone, rfl⟩), rfl, rfl⟩
  modified := by
    intro path
    simp only [h.mem_changes_iff, h.index.mem_snapshot_iff h.paths]
    constructor
    · rintro ⟨change, ⟨_, _, _, rfl⟩ | ⟨old, hold, file, hfile, hsame, hdiffers, rfl⟩ |
        ⟨_, _, _, rfl⟩, hkind, hpath⟩
      · cases hkind
      · obtain rfl : file.fullPath = path := Option.some.inj hpath
        obtain ⟨scanned, hscanned, hscannedPath, hmetadata⟩ :=
          (h.exists_file_iff file.fullPath file.metadata).mp ⟨file, hfile, rfl, rfl⟩
        exact ⟨old, hold, scanned, hscanned, hsame, hscannedPath, hmetadata ▸ hdiffers⟩
      · cases hkind
    · rintro ⟨old, hold, scanned, hscanned, rfl, hscannedPath, hdiffers⟩
      obtain ⟨file, hfile, hpath, hmetadata⟩ := h.exists_mem_of_scanned hscanned
      have hsame : old.fullPath = file.fullPath := (hpath.trans hscannedPath).symm
      exact ⟨_, Or.inr (Or.inl ⟨old, hold, file, hfile, hsame, hmetadata ▸ hdiffers, rfl⟩), rfl,
        congrArg some hsame.symm⟩
  listed_once := by
    have hids : ((state.mergePathMatched tx).1.changes.map FileChangeRecord.fileId).Nodup := by
      rw [mergePathMatched, changes_mergeIncremental]
      exact nodup_diffFileRecords state.nodup_snapshotFilesWithPaths
        (state.remapByPath tx).nodup_snapshotFilesWithPaths
    refine List.Nodup.map_on ?_ hids.of_map
    intro change hchange other hother hpath
    exact List.inj_on_of_nodup_map hids hchange hother
      (h.path_injective_on_changes hchange hother hpath)

end RescanStep

/-! ## Runs of rescans -/

namespace SqliteIndexRepository

/-- The rescans applied one after the other; every save succeeds. -/
def rescanAll (repository : SqliteIndexRepository) (rescans : List BufferedIndexTransaction) :
    SqliteIndexRepository :=
  rescans.foldl (fun repository tx ↦
    (repository.applyPathMatchedIncrementalTransaction [] tx).2) repository

end SqliteIndexRepository

theorem SqliteIndexRepository.state_rescanAll_concat (repository : SqliteIndexRepository)
    (rescans : List BufferedIndexTransaction) (tx : BufferedIndexTransaction) :
    (repository.rescanAll (rescans ++ [tx])).state =
      ((repository.rescanAll rescans).state.mergePathMatched tx).2 := by
  rw [rescanAll, List.foldl_append]
  rfl

/-- A directory path of one of the rescans. -/
def DirectoryPathOf (rescans : List BufferedIndexTransaction) (path : String) : Prop :=
  ∃ tx ∈ rescans, ∃ directory ∈ tx.directories.records, directory.fullPath = path

/-- Rescans with consistent paths, and ids that never reach the largest one. -/
structure RescanSequence (bound : ℕ) (rescans : List BufferedIndexTransaction) : Prop where
  consistent : ∀ tx ∈ rescans, Rescan tx
  separated : ∀ path other, DirectoryPathOf rescans path → DirectoryPathOf rescans other →
    path ≠ other ++ "\\"
  ids : ∀ tx ∈ rescans, RecordIdsAtMost bound tx ∧ ReferencesAtMost bound tx
  room : bound + (rescans.map rescanSize).sum < maxValue

theorem RecordIdsAtMost.mono {bound more : ℕ} {tx : BufferedIndexTransaction}
    (h : RecordIdsAtMost bound tx) (hle : bound ≤ more) : RecordIdsAtMost more tx :=
  ⟨fun file hfile ↦ (h.files file hfile).trans hle,
    fun directory hdirectory ↦ (h.directories directory hdirectory).trans hle⟩

theorem ReferencesAtMost.mono {bound more : ℕ} {tx : BufferedIndexTransaction}
    (h : ReferencesAtMost bound tx) (hle : bound ≤ more) : ReferencesAtMost more tx :=
  ⟨fun directory hdirectory parent hparent ↦
      (h.parents directory hdirectory parent hparent).trans hle,
    fun file hfile ↦ (h.file_parents file hfile).trans hle,
    fun volume hvolume ↦ (h.roots volume hvolume).trans hle⟩

section Runs

variable {bound : ℕ} {rescans : List BufferedIndexTransaction}

theorem RescanSequence.scanPaths (h : RescanSequence bound rescans) :
    ScanPaths (DirectoryPathOf rescans) where
  ne_empty := by
    rintro path ⟨tx, htx, directory, hdirectory, rfl⟩
    exact (h.consistent tx htx).directory_ne_empty directory hdirectory
  separated := h.separated

/-- The next rescan of a sequence finds a consistent index. -/
theorem RescanSequence.step (h : RescanSequence bound rescans)
    {before after : List BufferedIndexTransaction} {tx state : BufferedIndexTransaction}
    (hrescans : rescans = before ++ tx :: after) (hstate : Located (DirectoryPathOf rescans) state)
    (hids : RecordIdsAtMost (bound + (before.map rescanSize).sum) state) :
    RescanStep (DirectoryPathOf rescans) (bound + (before.map rescanSize).sum) state tx := by
  have htx : tx ∈ rescans := by
    rw [hrescans]
    exact List.mem_append_right _ List.mem_cons_self
  have hroom := h.room
  rw [hrescans, List.map_append, List.sum_append, List.map_cons, List.sum_cons] at hroom
  refine ⟨h.scanPaths, hstate, hids, h.consistent tx htx, ?_, ?_, ?_, by omega⟩
  · exact fun directory hdirectory ↦ ⟨tx, htx, directory, hdirectory, rfl⟩
  · exact (h.ids tx htx).1.mono (Nat.le_add_right _ _)
  · exact (h.ids tx htx).2.mono (Nat.le_add_right _ _)

/-- After any rescans of a sequence the index has consistent paths. -/
theorem RescanSequence.run (h : RescanSequence bound rescans)
    (storage : Storage.StorageFiles BufferedIndexTransaction)
    {before after : List BufferedIndexTransaction} (hrescans : rescans = before ++ after) :
    Located (DirectoryPathOf rescans)
        ((SqliteIndexRepository.openEmpty storage).rescanAll before).state ∧
      RecordIdsAtMost (bound + (before.map rescanSize).sum)
        ((SqliteIndexRepository.openEmpty storage).rescanAll before).state := by
  induction before using List.reverseRecOn generalizing after with
  | nil =>
      refine ⟨located_empty _, ?_, ?_⟩
      · intro file hfile
        cases hfile
      · intro directory hdirectory
        cases hdirectory
  | append_singleton before tx ih =>
      have hsplit : rescans = before ++ tx :: after := by
        rw [hrescans, List.append_assoc, List.singleton_append]
      obtain ⟨hlocated, hids⟩ := ih hsplit
      have hstep := h.step hsplit hlocated hids
      rw [SqliteIndexRepository.state_rescanAll_concat]
      refine ⟨hstep.located_mergePathMatched, ?_⟩
      have hnext := hstep.recordIdsAtMost_mergePathMatched
      rw [Nat.add_assoc] at hnext
      simpa using hnext

/-- From an empty repository, each rescan of a sequence leaves the index with
exactly the files of that rescan, under stable ids, and reports exactly the
differences. -/
theorem rescans_follow_scans (h : RescanSequence bound rescans)
    (storage : Storage.StorageFiles BufferedIndexTransaction)
    (before after : List BufferedIndexTransaction) (tx : BufferedIndexTransaction)
    (hrescans : rescans = before ++ tx :: after) :
    ∃ changeSet,
      (((SqliteIndexRepository.openEmpty storage).rescanAll
        before).applyPathMatchedIncrementalTransaction [] tx).1 = some changeSet ∧
      RescanOutcome ((SqliteIndexRepository.openEmpty storage).rescanAll before).state tx
        ((SqliteIndexRepository.openEmpty storage).rescanAll (before ++ [tx])).state changeSet := by
  obtain ⟨hlocated, hids⟩ := h.run storage hrescans
  have hstep := h.step hrescans hlocated hids
  rw [SqliteIndexRepository.state_rescanAll_concat]
  refine ⟨_, ?_, hstep.outcome⟩
  exact if_pos (Storage.persistSnapshotWith_ok _ _)

end Runs

/-- A scan of `C:\` with one directory and one file in it. -/
def firstScan : BufferedIndexTransaction :=
  let tx := insertDirectory {} ⟨⟨5⟩, none, "C:\\", "C:\\", 0, 0, 0, 0⟩
  let tx := tx.insertDirectory ⟨⟨6⟩, some ⟨5⟩, "docs", "C:\\docs", 0, 0, 0, 0⟩
  tx.insertFile ⟨⟨1⟩, ⟨6⟩, "a.txt", "", 10, 4096, .archive, ⟨none, none, none⟩⟩

/-- The next scan numbers directories in another order and finds a new file. -/
def secondScan : BufferedIndexTransaction :=
  let tx := insertDirectory {} ⟨⟨7⟩, some ⟨6⟩, "docs", "C:\\docs", 0, 0, 0, 0⟩
  let tx := tx.insertDirectory ⟨⟨6⟩, none, "C:\\", "C:\\", 0, 0, 0, 0⟩
  let tx := tx.insertFile ⟨⟨1⟩, ⟨6⟩, "b.txt", "", 3, 4096, .archive, ⟨none, none, none⟩⟩
  tx.insertFile ⟨⟨2⟩, ⟨7⟩, "a.txt", "", 12, 4096, .archive, ⟨none, none, none⟩⟩

theorem rescanSequence_sample : RescanSequence 100 [firstScan, secondScan] where
  consistent := by
    intro tx htx
    rcases List.mem_pair.mp htx with rfl | rfl
    · exact ⟨by decide, by decide, by decide, by decide, by decide, by decide⟩
    · exact ⟨by decide, by decide, by decide, by decide, by decide, by decide⟩
  separated := by
    rintro _ _ ⟨tx, htx, directory, hdirectory, rfl⟩ ⟨other, hother, second, hsecond, rfl⟩
    have hpaths : ∀ tx ∈ [firstScan, secondScan], ∀ other ∈ [firstScan, secondScan],
        ∀ directory ∈ tx.directories.records, ∀ second ∈ other.directories.records,
          directory.fullPath ≠ second.fullPath ++ "\\" := by decide
    exact hpaths tx htx other hother directory hdirectory second hsecond
  ids := by
    intro tx htx
    rcases List.mem_pair.mp htx with rfl | rfl
    · exact ⟨⟨by decide, by decide⟩, ⟨by decide, by decide, by decide⟩⟩
    · exact ⟨⟨by decide, by decide⟩, ⟨by decide, by decide, by decide⟩⟩
  room := by decide

theorem rescans_follow_scans_sample :
    ∃ changeSet,
      (((SqliteIndexRepository.openEmpty ⟨none, none, none⟩).rescanAll
        [firstScan]).applyPathMatchedIncrementalTransaction [] secondScan).1 = some changeSet ∧
      RescanOutcome ((SqliteIndexRepository.openEmpty ⟨none, none, none⟩).rescanAll
          [firstScan]).state secondScan
        ((SqliteIndexRepository.openEmpty ⟨none, none, none⟩).rescanAll
          [firstScan, secondScan]).state changeSet :=
  rescans_follow_scans rescanSequence_sample ⟨none, none, none⟩ [firstScan] [] secondScan rfl

end WinBlaze
