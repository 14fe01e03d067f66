import WinBlaze.Scanner.Ntfs.BatchPaths

/-!
# The parents and names in a set of records

For records with different numbers the order of the records does not matter,
and the batch backend resolves paths along the same parents. Directories that
are not above themselves, with no file in between, are what both backends need
to place every directory.
-/

namespace WinBlaze

namespace Ntfs

open ParentChain

/-- What the place of an entry among the directories depends on. -/
def entryKey (entry : ParsedNtfsEntry) : UInt64 × EntryInfo := (entry.fileId.val, infoOf entry)

/-- The parents and names of the parsed entries. -/
def recordGraph (records : List ParsedRecordOutcome) : EntryGraph := fun id ↦
  if id = ntfsRootRecord then none
  else ((entriesOf records).find? (fun entry ↦ entry.fileId.val = id)).map infoOf

/-- The parent of a directory. -/
def directoryLink (graph : EntryGraph) (id : UInt64) : Option UInt64 :=
  (graph id).bind (fun info ↦ if info.isDirectory then info.parent else none)

/-- No directory is its own ancestor. -/
def DirectoriesAcyclic (graph : EntryGraph) : Prop := ∀ id, ¬ OnCycle (directoryLink graph) id

section Distinct

variable {records : List ParsedRecordOutcome}

/-- The entry found for an id has this id. -/
theorem mem_of_find?_fileId {entries : List ParsedNtfsEntry} {id : UInt64} {entry : ParsedNtfsEntry}
    (h : entries.find? (fun entry ↦ entry.fileId.val = id) = some entry) :
    entry ∈ entries ∧ entry.fileId.val = id := by
  refine ⟨List.mem_of_find?_eq_some h, ?_⟩
  have hmatch := List.find?_some h
  exact of_decide_eq_true hmatch

theorem DistinctRecords.recordGraph_eq_some_iff (h : DistinctRecords records) (id : UInt64)
    (info : EntryInfo) :
    recordGraph records id = some info ↔
      id ≠ ntfsRootRecord ∧ (id, info) ∈ (entriesOf records).map entryKey := by
  rw [recordGraph]
  by_cases hid : id = ntfsRootRecord
  · rw [if_pos hid]
    exact iff_of_false (fun hnone ↦ by cases hnone) fun hroot ↦ hroot.1 hid
  · rw [if_neg hid, and_iff_right hid, Option.map_eq_some_iff, List.mem_map]
    constructor
    · rintro ⟨entry, hfind, rfl⟩
      obtain ⟨hmem, hmatch⟩ := mem_of_find?_fileId hfind
      exact ⟨entry, hmem, Prod.ext hmatch rfl⟩
    · rintro ⟨entry, hmem, hkey⟩
      obtain ⟨hmatch, rfl⟩ := Prod.ext_iff.mp hkey
      have hsome : ((entriesOf records).find? (fun entry ↦ entry.fileId.val = id)).isSome = true :=
        List.find?_isSome.mpr ⟨entry, hmem, decide_eq_true hmatch⟩
      obtain ⟨found, hfound⟩ := Option.isSome_iff_exists.mp hsome
      refine ⟨found, hfound, ?_⟩
      obtain ⟨hother, hfoundId⟩ := mem_of_find?_fileId hfound
      have hkept : isKept entry = true := isKept_of_ne fun hroot ↦ hid (hmatch.symm.trans hroot)
      rw [h.eq_of_fileId hmem hother hkept (hfoundId.trans hmatch.symm)]
      rfl

theorem DistinctRecords.perm {fed : List ParsedRecordOutcome} (hperm : fed.Perm records)
    (h : DistinctRecords fed) : DistinctRecords records := by
  have hkept : (keptEntries fed).Perm (keptEntries records) := (hperm.filterMap _).filter _
  exact ((hkept.map _).cons _).nodup_iff.mp h

theorem recordGraph_perm {fed : List ParsedRecordOutcome} (hperm : fed.Perm records)
    (h : DistinctRecords fed) : recordGraph fed = recordGraph records := by
  funext id
  apply Option.ext
  intro info
  have hkeys : ((entriesOf fed).map entryKey).Perm ((entriesOf records).map entryKey) :=
    (hperm.filterMap _).map _
  rw [h.recordGraph_eq_some_iff, (h.perm hperm).recordGraph_eq_some_iff, hkeys.mem_iff]

/-- The batch backend follows the parents of the parsed entries. -/
theorem DistinctRecords.entryGraph_batchEntries (h : DistinctRecords records) :
    entryGraph (batchEntries records) = recordGraph records := by
  funext id
  apply Option.ext
  intro info
  rw [h.recordGraph_eq_some_iff]
  by_cases hid : id = ntfsRootRecord
  · rw [entryGraph, if_pos hid]
    exact iff_of_false (fun hnone ↦ by cases hnone) fun hroot ↦ hroot.1 hid
  · have hinfo : ∀ entry, infoOf (fullyGrown records entry) = infoOf entry := fun entry ↦ by
      simp [infoOf, fullyGrown]
    rw [entryGraph_of_ne _ hid, and_iff_right hid, Option.map_eq_some_iff, List.mem_map]
    constructor
    · rintro ⟨grown, hget, rfl⟩
      obtain ⟨entry, hmem, rfl, rfl⟩ := (h.get?_batchEntries_iff hid grown).mp hget
      exact ⟨entry, hmem, by rw [hinfo]; rfl⟩
    · rintro ⟨entry, hmem, hkey⟩
      obtain ⟨hmatch, rfl⟩ := Prod.ext_iff.mp hkey
      exact ⟨_, (h.get?_batchEntries_iff hid _).mpr ⟨entry, hmem, hmatch, rfl⟩, hinfo entry⟩

theorem exists_entry_of_recordGraph {id : UInt64} {info : EntryInfo}
    (h : recordGraph records id = some info) : id ∈ (entriesOf records).map fun entry ↦ entry.fileId.val := by
  rw [recordGraph] at h
  split at h
  case isTrue => cases h
  case isFalse =>
    obtain ⟨entry, hfind, -⟩ := Option.map_eq_some_iff.mp h
    obtain ⟨hmem, hmatch⟩ := mem_of_find?_fileId hfind
    exact List.mem_map.mpr ⟨entry, hmem, hmatch⟩

/-- Without cycles of directories, following directories ends. -/
theorem ends_directoryAbove_recordGraph (h : DirectoriesAcyclic (recordGraph records)) (id : UInt64) :
    Ends (directoryAbove (recordGraph records)) id := by
  have hsupport : ∀ id parent, directoryAbove (recordGraph records) id = some parent →
      id ∈ (entriesOf records).map fun entry ↦ entry.fileId.val := by
    intro id parent hlink
    obtain ⟨info, hinfo, -⟩ := Option.bind_eq_some_iff.mp hlink
    exact exists_entry_of_recordGraph hinfo
  refine (forall_ends_iff hsupport).mpr (fun id hcycle ↦ h id (hcycle.congr fun other hother ↦ ?_)) id
  obtain ⟨parent, hparent⟩ := hother.exists_next
  obtain ⟨info, hinfo, habove⟩ := Option.bind_eq_some_iff.mp hparent
  split at habove
  case isFalse => cases habove
  case isTrue hdirectory =>
    have hvalue : info.parent = some parent := (Option.filter_eq_some_iff.mp habove).1
    rw [hparent, directoryLink, hinfo, Option.bind_some, if_pos hdirectory, hvalue]

end Distinct

/-- Totalling the enumerated entries returns exactly without cycles of directories. -/
theorem acyclicEntries_iff (entries : Entries) :
    AcyclicEntries entries ↔ DirectoriesAcyclic (entryGraph entries) := by
  have hinjective : Function.Injective DirectoryId.mk := fun a b hab ↦ congrArg DirectoryId.val hab
  have hlink : ∀ id : UInt64, directoryParent entries ⟨id⟩ =
      (directoryLink (entryGraph entries) id).map DirectoryId.mk := by
    intro id
    rw [directoryParent, directoryLink, entryGraph]
    by_cases hid : id = ntfsRootRecord
    · rw [if_pos hid, if_pos hid]
      rfl
    · rw [if_neg hid, if_neg hid]
      cases entries.get? id with
      | none => rfl
      | some entry => cases hdirectory : entry.isDirectory <;> simp [infoOf, Option.filter, hdirectory]
  constructor
  · intro h id hcycle
    exact h ⟨id⟩ ((onCycle_map_iff hinjective hlink id).mpr hcycle)
  · intro h id hcycle
    exact h id.val ((onCycle_map_iff hinjective hlink id.val).mp hcycle)

end Ntfs

end WinBlaze
