import WinBlaze.Lib.Renumber
import WinBlaze.Index.Store

/-!
# Merging a rescan into an index

Scanner ids mean nothing across scans. Before a rescan is merged, its files
take over the ids of the indexed files with the same path, and its directory
ids are replaced in the same way in every reference. The merge by id then
stores what changed and removes what the rescan does not contain.
-/

namespace WinBlaze

open Saturating Renumber

/-- The largest id, or zero. -/
def maxId (ids : List UInt64) : UInt64 := ids.foldl (fun a b ↦ if a < b then b else a) 0

theorem le_foldl_max (ids : List UInt64) (start : UInt64) :
    start.toNat ≤ (ids.foldl (fun a b ↦ if a < b then b else a) start).toNat ∧
      ∀ id ∈ ids, id.toNat ≤ (ids.foldl (fun a b ↦ if a < b then b else a) start).toNat := by
  induction ids generalizing start with
  | nil => exact ⟨Nat.le_refl _, fun id hid ↦ by cases hid⟩
  | cons a rest ih =>
      obtain ⟨hstart, hrest⟩ := ih (if start < a then a else start)
      rw [List.foldl_cons]
      have hbound : start.toNat ≤ (if start < a then a else start).toNat ∧
          a.toNat ≤ (if start < a then a else start).toNat := by
        split
        case isTrue h =>
          rw [UInt64.lt_iff_toNat_lt] at h
          exact ⟨h.le, Nat.le_refl _⟩
        case isFalse h =>
          rw [UInt64.lt_iff_toNat_lt, Nat.not_lt] at h
          exact ⟨Nat.le_refl _, h⟩
      refine ⟨hbound.1.trans hstart, ?_⟩
      intro id hid
      rcases List.mem_cons.mp hid with rfl | hid
      · exact hbound.2.trans hstart
      · exact hrest id hid

theorem le_maxId {ids : List UInt64} {id : UInt64} (h : id ∈ ids) :
    id.toNat ≤ (maxId ids).toNat :=
  (le_foldl_max ids 0).2 id h

theorem maxId_le {ids : List UInt64} {bound : ℕ} (h : ∀ id ∈ ids, id.toNat ≤ bound) :
    (maxId ids).toNat ≤ bound := by
  unfold maxId
  have hstart : (0 : UInt64).toNat ≤ bound := Nat.zero_le _
  generalize (0 : UInt64) = start at hstart
  induction ids generalizing start with
  | nil => exact hstart
  | cons a rest ih =>
      rw [List.foldl_cons]
      apply ih (fun id hid ↦ h id (List.mem_cons_of_mem a hid))
      split
      · exact h a List.mem_cons_self
      · exact hstart

/-! ## File ids by path -/

/-- The id of the indexed file with the path of `record`. -/
def fileIdByPath (previous : List FileRecord) (record : FileRecord) : Option UInt64 :=
  let previousByPath : KeyedArena FileRecord.fullPath := .ofList previous
  (previousByPath.get? record.fullPath).map fun previousRecord ↦ previousRecord.id.val

def nextFileId (previous current : List FileRecord) : UInt64 :=
  satAdd (maxId ((previous ++ current).map fun record ↦ record.id.val)) 1

def remapCurrentFilesByPath (previous current : List FileRecord) : List FileRecord :=
  current.zipWith (fun record id ↦ { record with id := ⟨id⟩ })
    (assignIds (fileIdByPath previous) (nextFileId previous current) current).1

theorem exists_of_fileIdByPath_eq_some {previous : List FileRecord} {record : FileRecord}
    {id : UInt64} (h : fileIdByPath previous record = some id) :
    ∃ old ∈ previous, old.fullPath = record.fullPath ∧ old.id = ⟨id⟩ := by
  obtain ⟨old, hold, rfl⟩ := Option.map_eq_some_iff.mp h
  obtain ⟨hmem, hpath⟩ := (KeyedArena.get?_eq_some_iff ..).mp hold
  exact ⟨old, KeyedArena.mem_of_mem_ofList hmem, hpath, rfl⟩

theorem fileIdByPath_eq_none_iff (previous : List FileRecord) (record : FileRecord) :
    fileIdByPath previous record = none ↔ record.fullPath ∉ previous.map FileRecord.fullPath := by
  rw [fileIdByPath, Option.map_eq_none_iff, KeyedArena.get?_ofList_eq_none_iff]

section RemapFiles

variable {previous current : List FileRecord}

/-- How `remapCurrentFilesByPath` came to the id of a record. -/
def FileIdAssigned (previous current : List FileRecord) (path : String) (id : FileId) : Prop :=
  (∃ old ∈ previous, old.fullPath = path ∧ old.id = id) ∨
    (path ∉ previous.map FileRecord.fullPath ∧
      (nextFileId previous current).toNat ≤ id.val.toNat ∧
        id.val.toNat < (nextFileId previous current).toNat + current.length)

theorem fileIdAssigned_of_mem_zip {record : FileRecord} {id : UInt64}
    (h : (record, id) ∈ current.zip
      (assignIds (fileIdByPath previous) (nextFileId previous current) current).1) :
    FileIdAssigned previous current record.fullPath ⟨id⟩ := by
  rcases mem_zip_assignIds h with hknown | ⟨hnone, hbounds⟩
  · exact Or.inl (exists_of_fileIdByPath_eq_some hknown)
  · exact Or.inr ⟨(fileIdByPath_eq_none_iff previous record).mp hnone, hbounds⟩

theorem mem_remapCurrentFilesByPath_iff (record : FileRecord) :
    record ∈ remapCurrentFilesByPath previous current ↔
      ∃ scanned id, (scanned, id) ∈ current.zip
        (assignIds (fileIdByPath previous) (nextFileId previous current) current).1 ∧
          { scanned with id := ⟨id⟩ } = record := by
  rw [remapCurrentFilesByPath, ← List.map_uncurry_zip_eq_zipWith, List.mem_map]
  exact ⟨fun ⟨⟨scanned, id⟩, h⟩ ↦ ⟨scanned, id, h⟩, fun ⟨scanned, id, h⟩ ↦ ⟨(scanned, id), h⟩⟩

theorem exists_scanned_of_mem_remapped {record : FileRecord}
    (h : record ∈ remapCurrentFilesByPath previous current) :
    ∃ scanned ∈ current, record = { scanned with id := record.id } ∧
      FileIdAssigned previous current scanned.fullPath record.id := by
  obtain ⟨scanned, id, hzip, rfl⟩ := (mem_remapCurrentFilesByPath_iff record).mp h
  exact ⟨scanned, (List.of_mem_zip hzip).1, rfl, fileIdAssigned_of_mem_zip hzip⟩

theorem exists_remapped_of_mem_scanned (previous : List FileRecord) {scanned : FileRecord}
    (h : scanned ∈ current) :
    ∃ id, { scanned with id := id } ∈ remapCurrentFilesByPath previous current ∧
      FileIdAssigned previous current scanned.fullPath id := by
  obtain ⟨id, hzip⟩ := exists_mem_zip_assignIds (fileIdByPath previous)
    (nextFileId previous current) h
  exact ⟨⟨id⟩, (mem_remapCurrentFilesByPath_iff _).mpr ⟨scanned, id, hzip, rfl⟩,
    fileIdAssigned_of_mem_zip hzip⟩

/-- Fresh file ids lie above every indexed id, up to saturation. -/
theorem lt_nextFileId {old : FileRecord} (h : old ∈ previous ++ current)
    (hmax : old.id.val.toNat < maxValue) :
    old.id.val.toNat < (nextFileId previous current).toNat := by
  have hle := le_maxId (List.mem_map_of_mem (f := fun record : FileRecord ↦ record.id.val) h)
  rw [nextFileId, toNat_satAdd, UInt64.toNat_one]
  omega

theorem nodup_remapCurrentFilesByPath (hprevious : (previous.map FileRecord.id).Nodup)
    (hpaths : (current.map FileRecord.fullPath).Nodup)
    (hroom : (nextFileId previous current).toNat + current.length ≤ maxValue)
    (hbelow : ∀ old ∈ previous, old.id.val.toNat < (nextFileId previous current).toNat) :
    ((remapCurrentFilesByPath previous current).map FileRecord.id).Nodup := by
  have hknown : (current.filterMap (fileIdByPath previous)).Nodup := by
    refine nodup_filterMap_known hpaths fun a b id ha hb ↦ ?_
    obtain ⟨old, hold, hpath, hid⟩ := exists_of_fileIdByPath_eq_some ha
    obtain ⟨old', hold', hpath', hid'⟩ := exists_of_fileIdByPath_eq_some hb
    have hsame : old = old' :=
      List.inj_on_of_nodup_map hprevious hold hold' (hid.trans hid'.symm)
    rw [← hpath, ← hpath', hsame]
  have hids : ∀ id ∈ current.filterMap (fileIdByPath previous),
      id.toNat < (nextFileId previous current).toNat := by
    intro id hid
    obtain ⟨record, _, hrecord⟩ := List.mem_filterMap.mp hid
    obtain ⟨old, hold, _, holdId⟩ := exists_of_fileIdByPath_eq_some hrecord
    have hlt := hbelow old hold
    rwa [holdId] at hlt
  have hmap : (remapCurrentFilesByPath previous current).map FileRecord.id =
      (assignIds (fileIdByPath previous) (nextFileId previous current) current).1.map FileId.mk := by
    exact map_zipWith_right (length_assignIds _ _ _).symm fun _ _ ↦ rfl
  rw [hmap]
  exact (nodup_assignIds hroom hids hknown).map fun a b h ↦ congrArg FileId.val h

end RemapFiles

/-! ## Directory ids by path -/

/-- Old and new id of each directory and each reference met so far. -/
abbrev DirectoryIds := KeyedArena (Prod.fst : DirectoryId × DirectoryId → DirectoryId)

namespace DirectoryIds

/-- Indexing of a map that holds every id the records mention. -/
def lookup (ids : DirectoryIds) (id : DirectoryId) : DirectoryId :=
  match ids.get? id with
  | some entry => entry.2
  | none => id

end DirectoryIds

/-- A dangling reference keeps its id unless that id belongs to a directory. -/
def remapReference (previous : DirectoryRecords) (loop : DirectoryIds × UInt64)
    (reference : DirectoryId) : DirectoryIds × UInt64 :=
  let ids := loop.1
  let nextId := loop.2
  if (ids.get? reference).isSome then loop
  else if (previous.get? reference).isSome || ids.records.any (fun entry ↦ entry.2 = reference) then
    (ids.insert (reference, ⟨nextId⟩), satAdd nextId 1)
  else (ids.insert (reference, reference), nextId)

/-- The directory ids a rescan refers to: parents of directories, parents of
files and roots of volumes. -/
def directoryReferences (current : List DirectoryRecord) (files : List FileRecord)
    (volumes : VolumeRecords) : List DirectoryId :=
  current.filterMap (fun record ↦ record.parentDirectoryId) ++
    files.map (fun record ↦ record.parentDirectoryId) ++
      volumes.records.map (fun record ↦ record.rootDirectoryId)

/-- The id of the indexed directory with the path of `record`. -/
def directoryIdByPath (previous : DirectoryRecords) (record : DirectoryRecord) : Option UInt64 :=
  let previousByPath : KeyedArena DirectoryRecord.fullPath :=
    .ofList (previous.records.filter fun record ↦ !record.fullPath.isEmpty)
  (previousByPath.get? record.fullPath).map fun previousRecord ↦ previousRecord.id.val

def nextDirectoryId (previous : DirectoryRecords) (current : List DirectoryRecord)
    (references : List DirectoryId) : UInt64 :=
  satAdd (maxId (previous.records.map (fun record ↦ record.id.val) ++
    current.map (fun record ↦ record.id.val) ++ references.map DirectoryId.val)) 1

/-- The new id of every directory of a rescan, and the next fresh id. -/
def assignDirectoryIds (previous : DirectoryRecords) (current : List DirectoryRecord)
    (references : List DirectoryId) : DirectoryIds × UInt64 :=
  let assigned :=
    assignIds (directoryIdByPath previous) (nextDirectoryId previous current references) current
  (.ofList (current.zipWith (fun record id ↦ (record.id, DirectoryId.mk id)) assigned.1),
    assigned.2)

/-- The new id of every directory of a rescan and of every reference. -/
def remappedDirectoryIds (previous : DirectoryRecords) (current : List DirectoryRecord)
    (files : List FileRecord) (volumes : VolumeRecords) : DirectoryIds :=
  let references := directoryReferences current files volumes
  (references.foldl (remapReference previous) (assignDirectoryIds previous current references)).1

def DirectoryRecord.remap (ids : DirectoryIds) (record : DirectoryRecord) : DirectoryRecord :=
  { record with
    id := ids.lookup record.id
    parentDirectoryId := record.parentDirectoryId.map ids.lookup }

def FileRecord.remapParent (ids : DirectoryIds) (record : FileRecord) : FileRecord :=
  { record with parentDirectoryId := ids.lookup record.parentDirectoryId }

def VolumeRecord.remapRoot (ids : DirectoryIds) (record : VolumeRecord) : VolumeRecord :=
  { record with rootDirectoryId := ids.lookup record.rootDirectoryId }

def remapCurrentDirectoryIdsByPath (previous : DirectoryRecords) (current : List DirectoryRecord)
    (files : List FileRecord) (volumes : VolumeRecords) :
    List DirectoryRecord × List FileRecord × VolumeRecords :=
  let ids := remappedDirectoryIds previous current files volumes
  (current.map (DirectoryRecord.remap ids), files.map (FileRecord.remapParent ids),
    volumes.mapRecords (VolumeRecord.remapRoot ids) fun _ ↦ rfl)

section RemapDirectories

variable {previous : DirectoryRecords} {current : List DirectoryRecord} {files : List FileRecord}
  {volumes : VolumeRecords}

theorem exists_of_directoryIdByPath_eq_some {record : DirectoryRecord} {id : UInt64}
    (h : directoryIdByPath previous record = some id) :
    ∃ old ∈ previous.records, old.fullPath = record.fullPath ∧ old.id = ⟨id⟩ := by
  obtain ⟨old, hold, rfl⟩ := Option.map_eq_some_iff.mp h
  obtain ⟨hmem, hpath⟩ := (KeyedArena.get?_eq_some_iff ..).mp hold
  exact ⟨old, List.mem_of_mem_filter (KeyedArena.mem_of_mem_ofList hmem), hpath, rfl⟩

theorem notMem_of_directoryIdByPath_eq_none {record : DirectoryRecord}
    (hpath : record.fullPath ≠ "") (h : directoryIdByPath previous record = none) :
    record.fullPath ∉ previous.records.map DirectoryRecord.fullPath := by
  rw [directoryIdByPath, Option.map_eq_none_iff, KeyedArena.get?_ofList_eq_none_iff] at h
  intro hmem
  obtain ⟨old, hold, holdPath⟩ := List.mem_map.mp hmem
  refine h (List.mem_map.mpr ⟨old, List.mem_filter.mpr ⟨hold, ?_⟩, holdPath⟩)
  rw [holdPath, Bool.not_eq_true', Bool.eq_false_iff]
  exact fun hempty ↦ hpath (String.isEmpty_iff.mp hempty)

theorem get?_remapReference (reference : DirectoryId) {loop : DirectoryIds × UInt64}
    {old new : DirectoryId} (h : loop.1.get? old = some (old, new)) :
    (remapReference previous loop reference).1.get? old = some (old, new) := by
  unfold remapReference
  by_cases hreference : (loop.1.get? reference).isSome = true
  · simp only [hreference, if_true]
    exact h
  · have hne : old ≠ reference := by
      rintro rfl
      simp [h] at hreference
    simp only [hreference, if_false, Bool.false_eq_true]
    split
    · rw [KeyedArena.get?_insert_of_ne _ _ hne, h]
    · rw [KeyedArena.get?_insert_of_ne _ _ hne, h]

/-- The loop over the references keeps the ids of the directories. -/
theorem get?_foldl_remapReference (references : List DirectoryId) {loop : DirectoryIds × UInt64}
    {old new : DirectoryId} (h : loop.1.get? old = some (old, new)) :
    (references.foldl (remapReference previous) loop).1.get? old = some (old, new) := by
  induction references generalizing loop with
  | nil => exact h
  | cons reference rest ih => exact ih (get?_remapReference reference h)

theorem get?_assignDirectoryIds (hids : (current.map DirectoryRecord.id).Nodup)
    {references : List DirectoryId} {record : DirectoryRecord} {id : UInt64}
    (hzip : (record, id) ∈ current.zip (assignIds (directoryIdByPath previous)
      (nextDirectoryId previous current references) current).1) :
    (assignDirectoryIds previous current references).1.get? record.id =
      some (record.id, ⟨id⟩) := by
  have hkeys : (current.zipWith (fun record id ↦ (record.id, DirectoryId.mk id))
      (assignIds (directoryIdByPath previous) (nextDirectoryId previous current references)
        current).1).map Prod.fst = current.map DirectoryRecord.id :=
    map_zipWith_left (length_assignIds _ _ _).symm fun _ _ ↦ rfl
  refine (KeyedArena.get?_ofList_eq_some_iff ?_ _ _).mpr ⟨?_, rfl⟩
  · rwa [hkeys]
  · rw [← List.map_uncurry_zip_eq_zipWith]
    exact List.mem_map.mpr ⟨(record, id), hzip, rfl⟩

/-- A directory of the rescan is looked up under the id it was assigned. -/
theorem lookup_remappedDirectoryIds (hids : (current.map DirectoryRecord.id).Nodup)
    {record : DirectoryRecord} {id : UInt64}
    (hzip : (record, id) ∈ current.zip (assignIds (directoryIdByPath previous)
      (nextDirectoryId previous current (directoryReferences current files volumes)) current).1) :
    (remappedDirectoryIds previous current files volumes).lookup record.id = ⟨id⟩ := by
  have hassigned := get?_assignDirectoryIds hids hzip
  have hlast : (remappedDirectoryIds previous current files volumes).get? record.id =
      some (record.id, ⟨id⟩) := get?_foldl_remapReference _ hassigned
  rw [DirectoryIds.lookup, hlast]

/-- How a directory of the rescan came to its id. -/
theorem exists_assigned_of_mem (previous : DirectoryRecords) (files : List FileRecord)
    (volumes : VolumeRecords) (hids : (current.map DirectoryRecord.id).Nodup) {record : DirectoryRecord}
    (hrecord : record ∈ current) (hpath : record.fullPath ≠ "") :
    ∃ id : DirectoryId, (remappedDirectoryIds previous current files volumes).lookup record.id = id ∧
      ((∃ old ∈ previous.records, old.fullPath = record.fullPath ∧ old.id = id) ∨
        record.fullPath ∉ previous.records.map DirectoryRecord.fullPath ∧
          id.val.toNat < (nextDirectoryId previous current
            (directoryReferences current files volumes)).toNat + current.length) := by
  obtain ⟨id, hzip⟩ := exists_mem_zip_assignIds (directoryIdByPath previous)
    (nextDirectoryId previous current (directoryReferences current files volumes)) hrecord
  refine ⟨⟨id⟩, lookup_remappedDirectoryIds hids hzip, ?_⟩
  rcases mem_zip_assignIds hzip with hknown | ⟨hnone, _, hlt⟩
  · exact Or.inl (exists_of_directoryIdByPath_eq_some hknown)
  · exact Or.inr ⟨notMem_of_directoryIdByPath_eq_none hpath hnone, hlt⟩

/-- Different directories of the rescan keep different ids. -/
theorem nodup_remappedDirectoryIds (files : List FileRecord) (volumes : VolumeRecords)
    (hids : (current.map DirectoryRecord.id).Nodup)
    (hpaths : (current.map DirectoryRecord.fullPath).Nodup)
    (hroom : (nextDirectoryId previous current
      (directoryReferences current files volumes)).toNat + current.length ≤ maxValue)
    (hbelow : ∀ old ∈ previous.records, old.id.val.toNat <
      (nextDirectoryId previous current (directoryReferences current files volumes)).toNat) :
    (current.map fun record ↦
      (remappedDirectoryIds previous current files volumes).lookup record.id).Nodup := by
  have hlength := length_assignIds (directoryIdByPath previous)
    (nextDirectoryId previous current (directoryReferences current files volumes)) current
  rw [map_eq_map_of_zip hlength.symm fun record id hzip ↦ lookup_remappedDirectoryIds hids hzip]
  have hknown : (current.filterMap (directoryIdByPath previous)).Nodup := by
    refine nodup_filterMap_known hpaths fun a b id ha hb ↦ ?_
    obtain ⟨old, hold, hpath, hid⟩ := exists_of_directoryIdByPath_eq_some ha
    obtain ⟨old', hold', hpath', hid'⟩ := exists_of_directoryIdByPath_eq_some hb
    have hsame : old = old' :=
      List.inj_on_of_nodup_map previous.nodup_keys hold hold' (hid.trans hid'.symm)
    rw [← hpath, ← hpath', hsame]
  have hlt : ∀ id ∈ current.filterMap (directoryIdByPath previous), id.toNat <
      (nextDirectoryId previous current (directoryReferences current files volumes)).toNat := by
    intro id hid
    obtain ⟨record, _, hrecord⟩ := List.mem_filterMap.mp hid
    obtain ⟨old, hold, _, holdId⟩ := exists_of_directoryIdByPath_eq_some hrecord
    have hlt := hbelow old hold
    rwa [holdId] at hlt
  exact (nodup_assignIds hroom hlt hknown).map fun a b h ↦ congrArg DirectoryId.val h

end RemapDirectories

/-! ## The merge -/

namespace BufferedIndexTransaction

/-- The rescan with the ids the index already uses for its paths. -/
def remapByPath (state transaction : BufferedIndexTransaction) : BufferedIndexTransaction :=
  let currentFiles := remapCurrentFilesByPath state.snapshotFilesWithPaths
    transaction.snapshotFilesWithPaths
  let remapped := remapCurrentDirectoryIdsByPath state.directories
    transaction.snapshotDirectories currentFiles transaction.volumes
  { transaction with
    volumes := remapped.2.2
    directories := .ofList remapped.1
    files := .ofList remapped.2.1 }

/-- The merged state and its change set, before anything is written. -/
def mergeIncremental (state transaction : BufferedIndexTransaction) :
    FileChangeSet × BufferedIndexTransaction :=
  let merged := { transaction with
    files := state.files
    lineages := state.lineages
    fileChanges := state.fileChanges }
  merged.applyIncrementalFiles state.snapshotFilesWithPaths transaction.snapshotFilesWithPaths

def mergePathMatched (state transaction : BufferedIndexTransaction) :
    FileChangeSet × BufferedIndexTransaction :=
  state.mergeIncremental (state.remapByPath transaction)

end BufferedIndexTransaction

end WinBlaze
