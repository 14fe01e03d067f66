import WinBlaze.Core.Aggregate
import WinBlaze.Index.Merge

/-!
# The search catalog

A catalog is a snapshot of an index transaction, with directory totals. It can
be built from a transaction, or kept up to date while files are merged.
-/

namespace WinBlaze

structure IndexCatalog where
  volumes : List VolumeRecord
  directories : List DirectoryRecord
  files : List FileRecord
  aggregatedDirectories : List DirectoryRecord

namespace IndexCatalog

/-- `none` when an ancestor walk takes more than `fuel` steps. -/
def fromTransaction (fuel : ℕ) (transaction : BufferedIndexTransaction) : Option IndexCatalog :=
  let directories := transaction.snapshotDirectories
  let files := transaction.snapshotFilesWithPaths
  (aggregateDirectoryRecords fuel directories files).map fun aggregatedDirectories ↦ {
    volumes := transaction.snapshotVolumes
    directories := directories
    files := files
    aggregatedDirectories := aggregatedDirectories }

/-- A catalog is built exactly when no stored directory is its own ancestor. -/
theorem fromTransaction_ends_iff (transaction : BufferedIndexTransaction) :
    (∃ fuel, (fromTransaction fuel transaction).isSome = true) ↔
      NoParentCycle transaction.snapshotDirectories := by
  rw [← aggregateDirectoryRecords_ends_iff _ transaction.snapshotFilesWithPaths]
  simp only [fromTransaction, Option.isSome_map]

/-- The catalog and the transaction after a merge of files. -/
def applyIncrementalFiles (fuel : ℕ) (catalog : IndexCatalog)
    (transaction : BufferedIndexTransaction) (previous current : List FileRecord) :
    Option (FileChangeSet × IndexCatalog × BufferedIndexTransaction) :=
  let merged := transaction.applyIncrementalFiles previous current
  let files := merged.2.snapshotFiles
  (aggregateDirectoryRecords fuel catalog.directories files).map fun aggregatedDirectories ↦
    (merged.1,
      { catalog with files := files, aggregatedDirectories := aggregatedDirectories }, merged.2)

/-! ## Directory totals do not depend on paths -/

theorem countFile_withPath (fuel : ℕ) (parentMap : ParentMap) (aggregates : Aggregates)
    (directories : DirectoryRecords) (file : FileRecord) :
    countFile fuel parentMap aggregates (file.withPath directories) =
      countFile fuel parentMap aggregates file := by
  simp [countFile, FileRecord.withPath_eq]

theorem aggregateDirectoryRecords_withPath (fuel : ℕ) (directories : List DirectoryRecord)
    (table : DirectoryRecords) (files : List FileRecord) :
    aggregateDirectoryRecords fuel directories (files.map (FileRecord.withPath table)) =
      aggregateDirectoryRecords fuel directories files := by
  simp only [aggregateDirectoryRecords, List.foldlM_map, countFile_withPath]

/-! ## The maintained catalog and a fresh one -/

/-- A path is stored, or the one to be derived is empty as well. -/
def KeepsPath (directories : DirectoryRecords) (file : FileRecord) : Prop :=
  file.fullPath ≠ "" ∨ pathFromParent directories file = ""

instance (directories : DirectoryRecords) (file : FileRecord) :
    Decidable (KeepsPath directories file) :=
  inferInstanceAs (Decidable (_ ∨ _))

theorem withPath_eq_self_iff (directories : DirectoryRecords) (file : FileRecord) :
    file.withPath directories = file ↔ KeepsPath directories file := by
  unfold FileRecord.withPath KeepsPath
  split
  case isTrue hempty =>
    have hpath : file.fullPath = "" := String.isEmpty_iff.mp hempty
    constructor
    · exact fun h ↦ Or.inr ((congrArg FileRecord.fullPath h).trans hpath)
    · rintro (hstored | hderived)
      · exact absurd hpath hstored
      · rw [hderived, ← hpath]
  case isFalse hempty =>
    have hpath : file.fullPath ≠ "" := fun h ↦ hempty (String.isEmpty_iff.mpr h)
    simp [hpath]

/-- Every file left in the index or stored by a merge keeps its path. -/
structure StoresPaths (transaction : BufferedIndexTransaction)
    (previous current : List FileRecord) : Prop where
  kept : ∀ file ∈ transaction.files.records,
    ¬ BufferedIndexTransaction.ReplacedById previous current file.id →
    ¬ BufferedIndexTransaction.RemovedById previous current file.id →
      KeepsPath transaction.directories file
  stored : ∀ file ∈ current, BufferedIndexTransaction.ReplacedById previous current file.id →
    (KeyedArena.ofList current : FileRecords).get? file.id = some file →
      KeepsPath transaction.directories file

section Maintained

variable (transaction : BufferedIndexTransaction) (previous current : List FileRecord)

theorem mem_files_of_merge (file : FileRecord) :
    file ∈ (transaction.applyIncrementalFiles previous current).2.files.records ↔
      (transaction.applyIncrementalFiles previous current).2.files.get? file.id = some file := by
  rw [KeyedArena.get?_eq_some_iff]
  exact ⟨fun h ↦ ⟨h, rfl⟩, fun h ↦ h.1⟩

/-- The files of a merged transaction all keep their paths exactly when those
that stay and those that are stored do. -/
theorem keepsPath_merged_iff :
    (∀ file ∈ (transaction.applyIncrementalFiles previous current).2.files.records,
      KeepsPath transaction.directories file) ↔ StoresPaths transaction previous current := by
  simp only [mem_files_of_merge]
  constructor
  · intro h
    refine ⟨fun file hfile hkept hpresent ↦ h file ?_, fun file _ hreplaced hget ↦ h file ?_⟩
    · rw [BufferedIndexTransaction.get?_of_untouched transaction hkept hpresent]
      exact (KeyedArena.get?_eq_some_iff ..).mpr ⟨hfile, rfl⟩
    · rw [BufferedIndexTransaction.get?_of_replacedById transaction hreplaced, hget]
  · intro h file hfile
    by_cases hreplaced : BufferedIndexTransaction.ReplacedById previous current file.id
    · rw [BufferedIndexTransaction.get?_of_replacedById transaction hreplaced] at hfile
      have hmem := KeyedArena.mem_of_mem_ofList ((KeyedArena.get?_eq_some_iff ..).mp hfile).1
      exact h.stored file hmem hreplaced hfile
    by_cases hremoved : BufferedIndexTransaction.RemovedById previous current file.id
    · rw [BufferedIndexTransaction.get?_of_removedById transaction hremoved] at hfile
      cases hfile
    rw [BufferedIndexTransaction.get?_of_untouched transaction hreplaced hremoved] at hfile
    exact h.kept file ((KeyedArena.get?_eq_some_iff ..).mp hfile).1 hreplaced hremoved

theorem snapshotFilesWithPaths_eq_snapshotFiles_iff :
    transaction.snapshotFilesWithPaths = transaction.snapshotFiles ↔
      ∀ file ∈ transaction.files.records, KeepsPath transaction.directories file := by
  have hmap := List.map_inj_left (l := transaction.snapshotFiles)
    (f := FileRecord.withPath transaction.directories) (g := id)
  rw [List.map_id] at hmap
  rw [BufferedIndexTransaction.snapshotFilesWithPaths, hmap]
  simp only [id_eq, withPath_eq_self_iff, BufferedIndexTransaction.snapshotFiles,
    KeyOrder.mem_sortByKey]

/-- A catalog that is kept up to date equals a fresh one exactly when every
file that stays or is stored has its path stored. -/
theorem applyIncrementalFiles_fresh_iff (fuel : ℕ) (catalog : IndexCatalog)
    (hcatalog : fromTransaction fuel transaction = some catalog) :
    (∃ fuel', (catalog.applyIncrementalFiles fuel' transaction previous current).isSome = true) ∧
      ∀ fuel' changes maintained merged,
        catalog.applyIncrementalFiles fuel' transaction previous current =
            some (changes, maintained, merged) →
          (fromTransaction fuel' merged = some maintained ↔
            StoresPaths transaction previous current) := by
  obtain ⟨aggregated, haggregated, rfl⟩ := Option.map_eq_some_iff.mp hcatalog
  constructor
  · have hends := (aggregateDirectoryRecords_ends_iff _ _).mp ⟨fuel, by rw [haggregated]; rfl⟩
    obtain ⟨fuel', hfuel⟩ := (aggregateDirectoryRecords_ends_iff transaction.snapshotDirectories
      (transaction.applyIncrementalFiles previous current).2.snapshotFiles).mpr hends
    exact ⟨fuel', by simpa [applyIncrementalFiles] using hfuel⟩
  · intro fuel' changes maintained merged hupdate
    obtain ⟨updated, hupdated, heq⟩ := Option.map_eq_some_iff.mp hupdate
    obtain ⟨rfl, rfl, rfl⟩ := Prod.mk.injEq .. ▸ heq
    have hdirectories := transaction.directories_applyIncrementalFiles previous current
    have hvolumes := transaction.volumes_applyIncrementalFiles previous current
    have hpaths := snapshotFilesWithPaths_eq_snapshotFiles_iff
      (transaction.applyIncrementalFiles previous current).2
    rw [hdirectories, keepsPath_merged_iff] at hpaths
    have hsame : (transaction.applyIncrementalFiles previous current).2.snapshotDirectories =
        transaction.snapshotDirectories := by
      simp only [BufferedIndexTransaction.snapshotDirectories, hdirectories]
    have hfresh : fromTransaction fuel' (transaction.applyIncrementalFiles previous current).2 =
        some {
          volumes := transaction.snapshotVolumes
          directories := transaction.snapshotDirectories
          files := (transaction.applyIncrementalFiles previous current).2.snapshotFilesWithPaths
          aggregatedDirectories := updated } := by
      simp only [fromTransaction, hsame, BufferedIndexTransaction.snapshotFilesWithPaths,
        aggregateDirectoryRecords_withPath]
      rw [hupdated]
      simp only [Option.map_some, BufferedIndexTransaction.snapshotVolumes, hvolumes]
    rw [hfresh, ← hpaths]
    simp

end Maintained

/-- A file that leaves its path to its directory. -/
def scannedFile : FileRecord := ⟨⟨1⟩, ⟨1⟩, "a.txt", "", 10, 4096, .archive, ⟨none, none, none⟩⟩

def scannedIndex : BufferedIndexTransaction :=
  (BufferedIndexTransaction.insertDirectory {} ⟨⟨1⟩, none, "docs", "C:\\docs", 0, 0, 0, 0⟩).insertFile
    scannedFile

theorem applyIncrementalFiles_fresh_iff_scanned :
    ∃ catalog, fromTransaction 2 scannedIndex = some catalog ∧
      (∃ fuel', (catalog.applyIncrementalFiles fuel' scannedIndex [scannedFile]
        [scannedFile]).isSome = true) ∧
      ∀ fuel' changes maintained merged,
        catalog.applyIncrementalFiles fuel' scannedIndex [scannedFile] [scannedFile] =
            some (changes, maintained, merged) →
          (fromTransaction fuel' merged = some maintained ↔
            StoresPaths scannedIndex [scannedFile] [scannedFile]) := by
  obtain ⟨catalog, hcatalog⟩ := Option.isSome_iff_exists.mp
    (show (fromTransaction 2 scannedIndex).isSome = true by decide +kernel)
  exact ⟨catalog, hcatalog,
    applyIncrementalFiles_fresh_iff scannedIndex [scannedFile] [scannedFile] 2 catalog hcatalog⟩

/-- A merge without any change drops the derived path from the catalog. -/
theorem applyIncrementalFiles_drops_path :
    ∃ catalog, fromTransaction 2 scannedIndex = some catalog ∧
      ∃ changes maintained merged,
        catalog.applyIncrementalFiles 2 scannedIndex [scannedFile] [scannedFile] =
            some (changes, maintained, merged) ∧
          maintained.files.map FileRecord.fullPath = [""] ∧
          fromTransaction 2 merged ≠ some maintained := by
  obtain ⟨catalog, hcatalog⟩ := Option.isSome_iff_exists.mp
    (show (fromTransaction 2 scannedIndex).isSome = true by decide +kernel)
  have hmaintained : (catalog.applyIncrementalFiles 2 scannedIndex [scannedFile]
      [scannedFile]).map (fun update ↦ (update.2.1.files.map FileRecord.fullPath,
        (fromTransaction 2 update.2.2).map fun fresh ↦ fresh.files.map FileRecord.fullPath)) =
      some ([""], some ["C:\\docs\\a.txt"]) := by
    have heval : (fromTransaction 2 scannedIndex).bind (fun catalog ↦
        (catalog.applyIncrementalFiles 2 scannedIndex [scannedFile]
          [scannedFile]).map fun update ↦ (update.2.1.files.map FileRecord.fullPath,
            (fromTransaction 2 update.2.2).map fun fresh ↦ fresh.files.map FileRecord.fullPath)) =
        some ([""], some ["C:\\docs\\a.txt"]) := by decide +kernel
    rwa [hcatalog, Option.bind_some] at heval
  obtain ⟨⟨changes, maintained, merged⟩, hupdate, hpaths⟩ := Option.map_eq_some_iff.mp hmaintained
  obtain ⟨hlost, hfresh⟩ := Prod.mk.inj hpaths
  refine ⟨catalog, hcatalog, changes, maintained, merged, hupdate, hlost, fun hsame ↦ ?_⟩
  rw [hsame, Option.map_some, hlost] at hfresh
  exact absurd hfresh (by decide)

end IndexCatalog

end WinBlaze
