import WinBlaze.Index.Incremental
import Mathlib.Data.List.Find

/-!
# Directory ids of a rescan

Previous ids, scanned ids, fresh ids and the ids of missing directories share
one number space. The ids given to directories are settled first; a reference
to a missing directory then keeps its id only where no directory has it.
-/

namespace WinBlaze

open Saturating Renumber

/-- The directory a reference names. -/
def resolveDirectory (directories : List DirectoryRecord) (reference : DirectoryId) :
    Option DirectoryRecord :=
  directories.find? fun record ↦ record.id = reference

theorem resolveDirectory_eq_none_iff (directories : List DirectoryRecord)
    (reference : DirectoryId) :
    resolveDirectory directories reference = none ↔
      reference ∉ directories.map DirectoryRecord.id := by
  simp [resolveDirectory, List.find?_eq_none]

namespace DirectoryIds

/-- The new ids of the loop over the references: those of `assigned`, and ids
that no directory has. -/
structure Avoids (previous : DirectoryRecords) (assigned : DirectoryIds)
    (loop : DirectoryIds × UInt64) : Prop where
  kept : ∀ entry ∈ assigned.records, entry ∈ loop.1.records
  dangling : ∀ entry ∈ loop.1.records, entry ∈ assigned.records ∨
    (entry.2 ∉ assigned.records.map Prod.snd ∧ entry.2 ∉ previous.records.map DirectoryRecord.id)
  assigned_below : ∀ id ∈ assigned.records.map Prod.snd, id.val.toNat < loop.2.toNat
  previous_below : ∀ id ∈ previous.records.map DirectoryRecord.id, id.val.toNat < loop.2.toNat

variable {previous : DirectoryRecords} {assigned : DirectoryIds} {loop : DirectoryIds × UInt64}

/-- A new reference gets an id that no directory has. -/
theorem Avoids.insert (h : Avoids previous assigned loop) {reference id : DirectoryId}
    {next : UInt64} (hnew : reference ∉ loop.1.records.map Prod.fst)
    (hassigned : id ∉ assigned.records.map Prod.snd)
    (hprevious : id ∉ previous.records.map DirectoryRecord.id)
    (hnext : loop.2.toNat ≤ next.toNat) :
    Avoids previous assigned (loop.1.insert (reference, id), next) where
  kept := by
    intro entry hentry
    have hloop := h.kept entry hentry
    refine (KeyedArena.mem_insert ..).mpr (Or.inr ⟨hloop, ?_⟩)
    intro hkey
    exact hnew (List.mem_map.mpr ⟨entry, hloop, hkey⟩)
  dangling := by
    intro entry hentry
    rcases (KeyedArena.mem_insert ..).mp hentry with rfl | ⟨hloop, _⟩
    · exact Or.inr ⟨hassigned, hprevious⟩
    · exact h.dangling entry hloop
  assigned_below := fun id hid ↦ (h.assigned_below id hid).trans_le hnext
  previous_below := fun id hid ↦ (h.previous_below id hid).trans_le hnext

theorem Avoids.remapReference (h : Avoids previous assigned loop) (reference : DirectoryId) :
    Avoids previous assigned (remapReference previous loop reference) := by
  unfold WinBlaze.remapReference
  dsimp only
  split
  case isTrue => exact h
  case isFalse habsent =>
    have hnew : reference ∉ loop.1.records.map Prod.fst := by
      apply (KeyedArena.get?_eq_none_iff_notMem ..).mp
      simpa using habsent
    split
    case isTrue =>
      -- the counter lies above every id of a directory
      refine h.insert hnew ?_ ?_ (le_satAdd_one loop.2).1
      · exact fun hmem ↦ (h.assigned_below _ hmem).false
      · exact fun hmem ↦ (h.previous_below _ hmem).false
    case isFalse hfree =>
      simp only [Bool.or_eq_true, List.any_eq_true, decide_eq_true_eq, not_or, not_exists,
        not_and, Bool.not_eq_true, Option.isSome_eq_false_iff, Option.isNone_iff_eq_none] at hfree
      refine h.insert hnew ?_ ((KeyedArena.get?_eq_none_iff_notMem ..).mp hfree.1) le_rfl
      intro hmem
      obtain ⟨entry, hentry, heq⟩ := List.mem_map.mp hmem
      exact hfree.2 entry (h.kept entry hentry) heq

theorem Avoids.foldl_remapReference (h : Avoids previous assigned loop)
    (references : List DirectoryId) :
    Avoids previous assigned (references.foldl (WinBlaze.remapReference previous) loop) := by
  induction references generalizing loop with
  | nil => exact h
  | cons reference rest ih => exact ih (h.remapReference reference)

theorem isSome_get?_remapReference (reference : DirectoryId) :
    ((WinBlaze.remapReference previous loop reference).1.get? reference).isSome := by
  unfold WinBlaze.remapReference
  dsimp only
  split
  case isTrue hsome => exact hsome
  case isFalse =>
    split
    · have hself := KeyedArena.get?_insert_self loop.1 (reference, ⟨loop.2⟩)
      simp [hself]
    · have hself := KeyedArena.get?_insert_self loop.1 (reference, reference)
      simp [hself]

/-- After the loop every reference has a new id. -/
theorem exists_entry_of_mem (previous : DirectoryRecords) {references : List DirectoryId}
    {reference : DirectoryId} (h : reference ∈ references) (loop : DirectoryIds × UInt64) :
    ∃ id, (references.foldl (WinBlaze.remapReference previous) loop).1.get? reference =
      some (reference, id) := by
  induction references generalizing loop with
  | nil => cases h
  | cons first rest ih =>
      rcases List.mem_cons.mp h with rfl | h
      · obtain ⟨⟨old, id⟩, hentry⟩ :=
          Option.isSome_iff_exists.mp (isSome_get?_remapReference reference)
        obtain rfl : old = reference := ((KeyedArena.get?_eq_some_iff ..).mp hentry).2
        exact ⟨id, get?_foldl_remapReference rest hentry⟩
      · exact ih h _

end DirectoryIds

section Remap

variable {previous : DirectoryRecords} {current : List DirectoryRecord} {files : List FileRecord}
  {volumes : VolumeRecords} {references : List DirectoryId}

/-- The ids in use before a rescan is remapped. -/
def usedDirectoryIds (previous : DirectoryRecords) (current : List DirectoryRecord)
    (references : List DirectoryId) : List DirectoryId :=
  previous.records.map DirectoryRecord.id ++ current.map DirectoryRecord.id ++ references

theorem nextDirectoryId_eq (previous : DirectoryRecords) (current : List DirectoryRecord)
    (references : List DirectoryId) :
    nextDirectoryId previous current references =
      satAdd (maxId ((usedDirectoryIds previous current references).map DirectoryId.val)) 1 := by
  simp [nextDirectoryId, usedDirectoryIds, Function.comp_def]

theorem lt_nextDirectoryId {id : DirectoryId} (h : id ∈ usedDirectoryIds previous current references)
    (hmax : id.val.toNat < maxValue) :
    id.val.toNat < (nextDirectoryId previous current references).toNat := by
  have hle := le_maxId (List.mem_map_of_mem (f := DirectoryId.val) h)
  rw [nextDirectoryId_eq, toNat_satAdd, UInt64.toNat_one]
  omega

theorem nextDirectoryId_le {bound : ℕ}
    (h : ∀ id ∈ usedDirectoryIds previous current references, id.val.toNat ≤ bound) :
    (nextDirectoryId previous current references).toNat ≤ bound + 1 := by
  have hle : (maxId ((usedDirectoryIds previous current references).map DirectoryId.val)).toNat ≤
      bound := by
    apply maxId_le
    intro id hid
    obtain ⟨used, hused, rfl⟩ := List.mem_map.mp hid
    exact h used hused
  rw [nextDirectoryId_eq, toNat_satAdd, UInt64.toNat_one]
  omega

/-- A rescan whose directories were given other ids by `rename`, against the
index it is to be merged into. -/
structure StableDirectoryIds (rename : DirectoryId → DirectoryId) (previous : DirectoryRecords)
    (current : List DirectoryRecord) (files : List FileRecord) (volumes : VolumeRecords)
    (remapped : List DirectoryRecord × List FileRecord × VolumeRecords) : Prop where
  directories_eq : remapped.1 = current.map fun record ↦ { record with
    id := rename record.id, parentDirectoryId := record.parentDirectoryId.map rename }
  files_eq : remapped.2.1 = files.map fun record ↦ { record with
    parentDirectoryId := rename record.parentDirectoryId }
  volumes_eq : remapped.2.2.records = volumes.records.map fun record ↦ { record with
    rootDirectoryId := rename record.rootDirectoryId }
  distinct : (remapped.1.map DirectoryRecord.id).Nodup
  indexed : ∀ record ∈ current, record.fullPath ∈ previous.records.map DirectoryRecord.fullPath →
    ∃ old ∈ previous.records, old.fullPath = record.fullPath ∧ rename record.id = old.id
  resolves : ∀ reference ∈ directoryReferences current files volumes, ∀ record,
    resolveDirectory current reference = some record →
      resolveDirectory remapped.1 (rename reference) = some { record with
        id := rename record.id, parentDirectoryId := record.parentDirectoryId.map rename }
  dangles : ∀ reference ∈ directoryReferences current files volumes,
    resolveDirectory current reference = none →
      resolveDirectory remapped.1 (rename reference) = none ∧
        rename reference ∉ previous.records.map DirectoryRecord.id

theorem mem_assigned_keys_iff {id : DirectoryId} :
    id ∈ (assignDirectoryIds previous current references).1.records.map Prod.fst ↔
      id ∈ current.map DirectoryRecord.id := by
  have hkeys : (current.zipWith (fun record id ↦ (record.id, DirectoryId.mk id))
      (assignIds (directoryIdByPath previous) (nextDirectoryId previous current references)
        current).1).map Prod.fst = current.map DirectoryRecord.id :=
    map_zipWith_left (length_assignIds _ _ _).symm fun _ _ ↦ rfl
  rw [assignDirectoryIds, KeyedArena.mem_keys_ofList, hkeys]

/-- An assigned id comes from a directory of the index or from the counter. -/
theorem mem_assigned_ids {id : DirectoryId}
    (h : id ∈ (assignDirectoryIds previous current references).1.records.map Prod.snd) :
    id.val ∈ (assignIds (directoryIdByPath previous) (nextDirectoryId previous current references)
      current).1 := by
  obtain ⟨entry, hentry, rfl⟩ := List.mem_map.mp h
  have hzip := KeyedArena.mem_of_mem_ofList hentry
  rw [← List.map_uncurry_zip_eq_zipWith] at hzip
  obtain ⟨⟨record, id⟩, hmem, rfl⟩ := List.mem_map.mp hzip
  exact (List.of_mem_zip hmem).2

/-- Before the loop over the references no reference has an id. -/
theorem avoids_assignDirectoryIds
    (hroom : (nextDirectoryId previous current references).toNat + current.length ≤ maxValue)
    (hbelow : ∀ old ∈ previous.records, old.id.val.toNat <
      (nextDirectoryId previous current references).toNat) :
    DirectoryIds.Avoids previous (assignDirectoryIds previous current references).1
      (assignDirectoryIds previous current references) where
  kept := fun entry hentry ↦ hentry
  dangling := fun entry hentry ↦ Or.inl hentry
  assigned_below := by
    intro id hid
    refine lt_snd_assignIds hroom ?_ (mem_assigned_ids hid)
    intro known hknown
    obtain ⟨record, _, hrecord⟩ := List.mem_filterMap.mp hknown
    obtain ⟨old, hold, _, holdId⟩ := exists_of_directoryIdByPath_eq_some hrecord
    simpa [holdId] using hbelow old hold
  previous_below := by
    intro id hid
    obtain ⟨old, hold, rfl⟩ := List.mem_map.mp hid
    exact (hbelow old hold).trans_le (le_snd_assignIds _ _ _)

/-- The reference of a missing directory gets an id no directory has. -/
theorem lookup_dangling (files : List FileRecord) (volumes : VolumeRecords) {reference : DirectoryId}
    (hroom : (nextDirectoryId previous current
      (directoryReferences current files volumes)).toNat + current.length ≤ maxValue)
    (hbelow : ∀ old ∈ previous.records, old.id.val.toNat <
      (nextDirectoryId previous current (directoryReferences current files volumes)).toNat)
    (hreference : reference ∈ directoryReferences current files volumes)
    (hdangling : reference ∉ current.map DirectoryRecord.id) :
    (remappedDirectoryIds previous current files volumes).lookup reference ∉
        (assignDirectoryIds previous current
          (directoryReferences current files volumes)).1.records.map Prod.snd ∧
      (remappedDirectoryIds previous current files volumes).lookup reference ∉
        previous.records.map DirectoryRecord.id := by
  obtain ⟨id, hentry⟩ := DirectoryIds.exists_entry_of_mem previous hreference
    (assignDirectoryIds previous current (directoryReferences current files volumes))
  have hentry' : (remappedDirectoryIds previous current files volumes).get? reference =
      some (reference, id) := hentry
  have hlookup : (remappedDirectoryIds previous current files volumes).lookup reference = id := by
    simp [DirectoryIds.lookup, hentry']
  have havoids := (avoids_assignDirectoryIds hroom hbelow).foldl_remapReference
    (directoryReferences current files volumes)
  rw [hlookup]
  rcases havoids.dangling _ ((KeyedArena.get?_eq_some_iff ..).mp hentry).1 with hassigned | hfree
  · have hkey : reference ∈ current.map DirectoryRecord.id :=
      mem_assigned_keys_iff.mp (List.mem_map_of_mem (f := Prod.fst) hassigned)
    exact absurd hkey hdangling
  · exact hfree

/-- The id of a directory is one of the assigned ones. -/
theorem lookup_mem_assigned (files : List FileRecord) (volumes : VolumeRecords)
    (hids : (current.map DirectoryRecord.id).Nodup) {record : DirectoryRecord}
    (hrecord : record ∈ current) :
    (remappedDirectoryIds previous current files volumes).lookup record.id ∈
      (assignDirectoryIds previous current
        (directoryReferences current files volumes)).1.records.map Prod.snd := by
  obtain ⟨id, hzip⟩ := exists_mem_zip_assignIds (directoryIdByPath previous)
    (nextDirectoryId previous current (directoryReferences current files volumes)) hrecord
  have hentry := ((KeyedArena.get?_eq_some_iff ..).mp (get?_assignDirectoryIds hids hzip)).1
  rw [lookup_remappedDirectoryIds hids hzip]
  exact List.mem_map_of_mem (f := Prod.snd) hentry

/-- Renaming with different new ids keeps what a reference names. -/
theorem resolveDirectory_map (rename : DirectoryId → DirectoryId)
    (hrename : (current.map fun record ↦ rename record.id).Nodup) {reference : DirectoryId}
    {record : DirectoryRecord} (h : resolveDirectory current reference = some record) :
    resolveDirectory (current.map fun record ↦ { record with
        id := rename record.id, parentDirectoryId := record.parentDirectoryId.map rename })
      (rename reference) = some { record with
        id := rename record.id, parentDirectoryId := record.parentDirectoryId.map rename } := by
  have hmem := List.mem_of_find?_eq_some h
  have hid : record.id = reference := by simpa using List.find?_some h
  rw [resolveDirectory, List.find?_map]
  refine Option.map_eq_some_iff.mpr ⟨record, ?_, rfl⟩
  refine (List.find?_congr fun other hother ↦ ?_).trans h
  simp only [Function.comp_apply, decide_eq_decide]
  constructor
  · intro heq
    rw [List.inj_on_of_nodup_map hrename hother hmem (heq.trans (congrArg rename hid.symm)), hid]
  · exact fun heq ↦ congrArg rename heq

/-- Directory ids of a rescan stay apart from each other and from those of the
index, whatever the references name. -/
theorem remapCurrentDirectoryIdsByPath_stable (previous : DirectoryRecords)
    (current : List DirectoryRecord) (files : List FileRecord) (volumes : VolumeRecords)
    (bound : ℕ) (hids : (current.map DirectoryRecord.id).Nodup)
    (hpaths : (current.map DirectoryRecord.fullPath).Nodup)
    (hnonempty : ∀ record ∈ current, record.fullPath ≠ "")
    (hused : ∀ id ∈ usedDirectoryIds previous current (directoryReferences current files volumes),
      id.val.toNat ≤ bound)
    (hroom : bound + current.length < maxValue) :
    ∃ rename, StableDirectoryIds rename previous current files volumes
      (remapCurrentDirectoryIdsByPath previous current files volumes) := by
  have hnext := nextDirectoryId_le hused
  have hbelow : ∀ old ∈ previous.records, old.id.val.toNat <
      (nextDirectoryId previous current (directoryReferences current files volumes)).toNat := by
    intro old hold
    have hmem : old.id ∈ usedDirectoryIds previous current
        (directoryReferences current files volumes) :=
      List.mem_append_left _ (List.mem_append_left _ (List.mem_map_of_mem hold))
    have hle := hused _ hmem
    exact lt_nextDirectoryId hmem (by omega)
  have hdistinct := nodup_remappedDirectoryIds files volumes hids hpaths (by omega) hbelow
  refine ⟨(remappedDirectoryIds previous current files volumes).lookup, rfl, rfl, rfl, ?_, ?_, ?_, ?_⟩
  · simpa [remapCurrentDirectoryIdsByPath, DirectoryRecord.remap, Function.comp_def] using hdistinct
  · intro record hrecord hpath
    obtain ⟨id, hid, ⟨old, hold, holdPath, holdId⟩ | ⟨hnew, _⟩⟩ :=
      exists_assigned_of_mem previous files volumes hids hrecord (hnonempty record hrecord)
    · exact ⟨old, hold, holdPath, hid.trans holdId.symm⟩
    · exact absurd hpath hnew
  · intro reference _ record hresolves
    exact resolveDirectory_map _ hdistinct hresolves
  · intro reference hreference hdangles
    obtain ⟨hassigned, hprevious⟩ := lookup_dangling files volumes (by omega) hbelow hreference
      ((resolveDirectory_eq_none_iff ..).mp hdangles)
    refine ⟨(resolveDirectory_eq_none_iff ..).mpr fun hmem ↦ ?_, hprevious⟩
    obtain ⟨renamed, hrenamed, heq⟩ := List.mem_map.mp hmem
    obtain ⟨record, hrecord, rfl⟩ := List.mem_map.mp hrenamed
    exact hassigned (heq ▸ lookup_mem_assigned files volumes hids hrecord)

/-- Two directories of the index change places in a rescan that also has a new
directory and names missing ones. -/
theorem remapCurrentDirectoryIdsByPath_stable_swapped :
    ∃ rename, StableDirectoryIds rename
      (.ofList [⟨⟨1⟩, none, "a", "C:\\a", 0, 0, 0, 0⟩, ⟨⟨2⟩, none, "b", "C:\\b", 0, 0, 0, 0⟩])
      [⟨⟨2⟩, none, "a", "C:\\a", 0, 0, 0, 0⟩, ⟨⟨1⟩, some ⟨2⟩, "b", "C:\\b", 0, 0, 0, 0⟩,
        ⟨⟨3⟩, some ⟨7⟩, "c", "C:\\c", 0, 0, 0, 0⟩]
      [⟨⟨1⟩, ⟨8⟩, "x", "", 1, 1, .archive, ⟨none, none, none⟩⟩] .empty
      (remapCurrentDirectoryIdsByPath
        (.ofList [⟨⟨1⟩, none, "a", "C:\\a", 0, 0, 0, 0⟩, ⟨⟨2⟩, none, "b", "C:\\b", 0, 0, 0, 0⟩])
        [⟨⟨2⟩, none, "a", "C:\\a", 0, 0, 0, 0⟩, ⟨⟨1⟩, some ⟨2⟩, "b", "C:\\b", 0, 0, 0, 0⟩,
          ⟨⟨3⟩, some ⟨7⟩, "c", "C:\\c", 0, 0, 0, 0⟩]
        [⟨⟨1⟩, ⟨8⟩, "x", "", 1, 1, .archive, ⟨none, none, none⟩⟩] .empty) :=
  remapCurrentDirectoryIdsByPath_stable _ _ _ _ 8 (by decide) (by decide) (by decide) (by decide)
    (by decide)

end Remap

end WinBlaze
