import WinBlaze.Index.Catalog
import WinBlaze.Scanner.Ntfs.Dump

/-!
# When the batch enumeration returns

Totalling directories walks up the parents of every record. The walk has no
guard against cycles, so it returns exactly when no directory is its own
ancestor, and so do the functions that total what they parsed or stored.
-/

namespace WinBlaze

namespace Ntfs

open ParentChain

/-- The parent of a directory entry; the root has none. -/
def directoryParent (entries : Entries) (id : DirectoryId) : Option DirectoryId :=
  if id.val = ntfsRootRecord then none
  else ((entries.get? id.val).filter (fun entry ↦ entry.isDirectory)).bind
    (fun entry ↦ entry.parentDirectoryId.map DirectoryId.mk)

/-- No directory entry is its own ancestor. -/
def AcyclicEntries (entries : Entries) : Prop := ∀ id, ¬ OnCycle (directoryParent entries) id

theorem directoryParent_eq_some_iff (entries : Entries) (id parent : DirectoryId) :
    directoryParent entries id = some parent ↔ id.val ≠ ntfsRootRecord ∧
      ∃ entry ∈ entries.records, entry.fileId.val = id.val ∧ entry.isDirectory = true ∧
        entry.parentDirectoryId = some parent.val := by
  rw [directoryParent]
  by_cases hroot : id.val = ntfsRootRecord
  · rw [if_pos hroot]
    exact iff_of_false (by simp) fun h ↦ h.1 hroot
  · rw [if_neg hroot, and_iff_right hroot, Option.bind_eq_some_iff]
    constructor
    · rintro ⟨entry, hentry, hparent⟩
      obtain ⟨hget, hdirectory⟩ := Option.filter_eq_some_iff.mp hentry
      obtain ⟨hmem, hid⟩ := (KeyedArena.get?_eq_some_iff entries id.val entry).mp hget
      obtain ⟨value, hvalue, rfl⟩ := Option.map_eq_some_iff.mp hparent
      exact ⟨entry, hmem, hid, hdirectory, hvalue⟩
    · rintro ⟨entry, hmem, hid, hdirectory, hparent⟩
      have hget := (KeyedArena.get?_eq_some_iff entries id.val entry).mpr ⟨hmem, hid⟩
      refine ⟨entry, Option.filter_eq_some_iff.mpr ⟨hget, hdirectory⟩, ?_⟩
      rw [hparent, Option.map_some]

/-! ## The directories of an enumeration -/

def recordPair (directory : DirectoryRecord) : DirectoryId × Option DirectoryId :=
  (directory.id, directory.parentDirectoryId)

def entryPair (entry : ParsedNtfsEntry) : DirectoryId × Option DirectoryId :=
  (⟨entry.fileId.val⟩,
    if entry.fileId.val = ntfsRootRecord then none else entry.parentDirectoryId.map DirectoryId.mk)

/-- Visiting entries adds one directory for each directory entry. -/
theorem pairs_foldl_visitEntry (entries : Entries) (rootText : String) (l : List ParsedNtfsEntry)
    (state : BatchState) :
    (l.foldl (visitEntry entries rootText) state).directories.map recordPair =
      state.directories.map recordPair ++
        (l.filter (fun entry ↦ entry.isDirectory)).map entryPair := by
  induction l generalizing state with
  | nil => simp
  | cons entry rest ih =>
      rw [List.foldl_cons, ih]
      cases hdirectory : entry.isDirectory with
      | true =>
          simp [visitEntry, hdirectory]
          rfl
      | false => simp [visitEntry, hdirectory]

/-- The directories handed to the aggregation. -/
def enumeratedDirectories (rootText : String) (entries : Entries) : List DirectoryRecord :=
  KeyOrder.sortByKey (fun directory ↦ directory.id.val.toNat) (visitEntries rootText entries).directories

theorem mem_pairs_enumeratedDirectories (rootText : String) (entries : Entries)
    (pair : DirectoryId × Option DirectoryId) :
    pair ∈ (enumeratedDirectories rootText entries).map recordPair ↔
      ∃ entry ∈ entries.records, entry.isDirectory = true ∧ entryPair entry = pair := by
  have hperm := (KeyOrder.sortByKey_perm (fun directory : DirectoryRecord ↦ directory.id.val.toNat)
    (visitEntries rootText entries).directories).map recordPair
  have hvisited := pairs_foldl_visitEntry entries rootText (orderedEntries entries)
    { resolvedPaths := IdMap.set .empty ntfsRootRecord rootText }
  rw [enumeratedDirectories, hperm.mem_iff, visitEntries, hvisited]
  simp [orderedEntries, and_assoc]

theorem nodup_pairs_enumeratedDirectories (rootText : String) (entries : Entries) :
    (((enumeratedDirectories rootText entries).map recordPair).map Prod.fst).Nodup := by
  have hperm := ((KeyOrder.sortByKey_perm (fun directory : DirectoryRecord ↦
    directory.id.val.toNat) (visitEntries rootText entries).directories).map recordPair).map Prod.fst
  have hvisited := pairs_foldl_visitEntry entries rootText (orderedEntries entries)
    { resolvedPaths := IdMap.set .empty ntfsRootRecord rootText }
  have hids : ((orderedEntries entries).map (fun entry ↦ entry.fileId.val)).Nodup :=
    KeyOrder.nodup_map_sortByKey _ _ entries.nodup_keys
  have hwrapped : ((orderedEntries entries).map
      (fun entry ↦ DirectoryId.mk entry.fileId.val)).Nodup := by
    have h := hids.map (f := DirectoryId.mk) fun a b hab ↦ congrArg DirectoryId.val hab
    rwa [List.map_map] at h
  rw [enumeratedDirectories, hperm.nodup_iff, visitEntries, hvisited, List.map_nil, List.nil_append,
    List.map_map]
  exact hwrapped.sublist (List.filter_sublist.map _)

/-- The parents the aggregation follows are those of the directory entries. -/
theorem parentOf_enumeratedDirectories (rootText : String) (entries : Entries) :
    parentOf (enumeratedDirectories rootText entries) = directoryParent entries := by
  funext id
  apply Option.ext
  intro parent
  have hnodup := nodup_pairs_enumeratedDirectories rootText entries
  have hpairs : parentMapOf (enumeratedDirectories rootText entries) =
      IdMap.ofPairs ((enumeratedDirectories rootText entries).map recordPair) := rfl
  rw [parentOf, Option.join_eq_some_iff, hpairs, IdMap.find?_ofPairs_iff hnodup,
    mem_pairs_enumeratedDirectories, directoryParent_eq_some_iff]
  constructor
  · rintro ⟨entry, hmem, hdirectory, hpair⟩
    obtain ⟨hid, hparent⟩ := Prod.ext_iff.mp hpair
    have hid' : entry.fileId.val = id.val := congrArg DirectoryId.val hid
    by_cases hroot : entry.fileId.val = ntfsRootRecord
    · simp [entryPair, hroot] at hparent
    · simp only [entryPair, hroot, if_false] at hparent
      obtain ⟨value, hvalue, rfl⟩ := Option.map_eq_some_iff.mp hparent
      exact ⟨hid' ▸ hroot, entry, hmem, hid', hdirectory, hvalue⟩
  · rintro ⟨hroot, entry, hmem, hid, hdirectory, hparent⟩
    refine ⟨entry, hmem, hdirectory, ?_⟩
    rw [entryPair, hid, if_neg hroot, hparent, Option.map_some]

/-! ## Parents survive what happens before the aggregation -/

/-- Entries that differ at most in sizes and in the root record have the same
parents. -/
theorem directoryParent_congr {first second : Entries}
    (h : ∀ id ≠ ntfsRootRecord, (first.get? id).map (fun entry ↦ (entry.isDirectory, entry.parentDirectoryId)) =
      (second.get? id).map (fun entry ↦ (entry.isDirectory, entry.parentDirectoryId))) :
    directoryParent first = directoryParent second := by
  funext id
  rw [directoryParent, directoryParent]
  by_cases hroot : id.val = ntfsRootRecord
  · rw [if_pos hroot, if_pos hroot]
  · rw [if_neg hroot, if_neg hroot]
    have hid := h id.val hroot
    cases hfirst : first.get? id.val with
    | none =>
        cases hsecond : second.get? id.val with
        | none => rfl
        | some entry => simp [hfirst, hsecond] at hid
    | some entry =>
        cases hsecond : second.get? id.val with
        | none => simp [hfirst, hsecond] at hid
        | some other =>
            simp only [hfirst, hsecond, Option.map_some, Option.some.injEq, Prod.mk.injEq] at hid
            cases hdirectory : entry.isDirectory with
            | true => simp [Option.filter, ← hid.1, ← hid.2, hdirectory]
            | false => simp [Option.filter, ← hid.1, hdirectory]

theorem directoryParent_withRootEntry (entries : Entries) :
    directoryParent (withRootEntry entries) = directoryParent entries := by
  apply directoryParent_congr
  intro id hid
  rw [withRootEntry]
  split
  case isTrue => rfl
  case isFalse => rw [KeyedArena.get?_insert_of_ne entries rootEntry hid]

theorem directoryParent_applyExtensionSize (entries : Entries) (extension : ExtensionSizes) :
    directoryParent (applyExtensionSize entries extension) = directoryParent entries := by
  apply directoryParent_congr
  intro id _
  rw [applyExtensionSize]
  cases hbase : entries.get? extension.baseRecord with
  | none => rfl
  | some entry =>
      obtain ⟨-, hentry⟩ := (KeyedArena.get?_eq_some_iff entries _ entry).mp hbase
      dsimp only at hentry ⊢
      by_cases hid : id = entry.fileId.val
      · have hget : entries.get? id = some entry := by rw [hid, hentry, hbase]
        have hself := KeyedArena.get?_insert_self entries (entry.withSizes extension)
        rw [ParsedNtfsEntry.withSizes_fileId, ← hid] at hself
        rw [hget, hself]
        rfl
      · rw [KeyedArena.get?_insert_of_ne entries (entry.withSizes extension) hid]

theorem directoryParent_applyExtensionSizes (entries : Entries) (extensions : List ExtensionSizes) :
    directoryParent (applyExtensionSizes entries extensions) = directoryParent entries := by
  rw [applyExtensionSizes]
  induction extensions generalizing entries with
  | nil => rfl
  | cons extension rest ih => rw [List.foldl_cons, ih, directoryParent_applyExtensionSize]

theorem parseEntries_ends_iff (rootText : String) (entries : Entries) :
    (∃ fuel, (parseEntries fuel rootText entries).isSome = true) ↔ AcyclicEntries entries := by
  have hends := aggregateDirectoryRecords_ends_iff
    (enumeratedDirectories rootText (withRootEntry entries))
    (KeyOrder.sortByKey (fun file ↦ file.id.val.toNat)
      (visitEntries rootText (withRootEntry entries)).files)
  rw [NoParentCycle, parentOf_enumeratedDirectories, directoryParent_withRootEntry] at hends
  rw [AcyclicEntries, ← hends]
  simp only [parseEntries, Option.isSome_map]
  rfl

/-! ## Returning -/

/-- With enough steps the run has a result, and it is not a panic. -/
def Returns (run : ℕ → Option (Parse NtfsEnumeration)) : Prop :=
  ∃ fuel result, run fuel = some result ∧ result ≠ .error .panic

/-- The records were refused with an error, or hold no directory that is its
own ancestor. -/
def CollectsAcyclic (collected : Parse CollectedRecords) : Prop :=
  (∃ error, collected = .error (.error error)) ∨
    ∃ records, collected = .ok records ∧ AcyclicEntries records.entries

theorem returns_enumerateCollected_iff (rootText : String) (collected : Parse CollectedRecords) :
    Returns (fun fuel ↦ enumerateCollected fuel rootText collected) ↔ CollectsAcyclic collected := by
  cases collected with
  | error failure =>
      cases failure with
      | panic =>
          refine iff_of_false ?_ ?_
          · rintro ⟨fuel, result, hrun, hpanic⟩
            exact hpanic (Option.some.inj hrun).symm
          · rintro (⟨error, h⟩ | ⟨records, h, -⟩) <;> cases h
      | error error => exact iff_of_true ⟨0, _, rfl, by simp⟩ (Or.inl ⟨error, rfl⟩)
  | ok records =>
      have hends := parseEntries_ends_iff rootText
        (applyExtensionSizes records.entries records.extensions)
      rw [AcyclicEntries, directoryParent_applyExtensionSizes] at hends
      constructor
      · rintro ⟨fuel, result, hrun, -⟩
        refine Or.inr ⟨records, rfl, hends.mp ⟨fuel, ?_⟩⟩
        obtain ⟨enumeration, henumeration, -⟩ := Option.map_eq_some_iff.mp hrun
        rw [henumeration]
        rfl
      · rintro (⟨error, h⟩ | ⟨found, h, hacyclic⟩)
        · cases h
        · cases h
          obtain ⟨fuel, hfuel⟩ := hends.mpr hacyclic
          obtain ⟨enumeration, henumeration⟩ := Option.isSome_iff_exists.mp hfuel
          refine ⟨fuel, .ok enumeration, ?_, by simp⟩
          exact Option.map_eq_some_iff.mpr ⟨enumeration, henumeration, rfl⟩

/-- Totalling directories, building a catalog and enumerating file records
return exactly when no directory among those totalled is its own ancestor. -/
theorem totals_return_iff (directories : List DirectoryRecord) (files : List FileRecord)
    (transaction : BufferedIndexTransaction) (rootText : String) (bytes : List UInt8)
    (input : DumpInput) :
    ((∃ fuel, (aggregateDirectoryRecords fuel directories files).isSome = true) ↔
        NoParentCycle directories) ∧
      ((∃ fuel, (IndexCatalog.fromTransaction fuel transaction).isSome = true) ↔
        NoParentCycle transaction.snapshotDirectories) ∧
      (Returns (fun fuel ↦ parseMftRecords fuel rootText bytes) ↔
        CollectsAcyclic (collectMftRecords bytes)) ∧
      (Returns (fun fuel ↦ readMftDump fuel rootText input) ↔
        CollectsAcyclic (collectMftDump input)) := by
  refine ⟨aggregateDirectoryRecords_ends_iff directories files,
    IndexCatalog.fromTransaction_ends_iff transaction, ?_, ?_⟩
  · exact returns_enumerateCollected_iff rootText (collectMftRecords bytes)
  · exact returns_enumerateCollected_iff rootText (collectMftDump input)

/-- A directory that names itself as its parent. -/
def selfParent : DirectoryRecord where
  id := ⟨6⟩
  parentDirectoryId := some ⟨6⟩
  name := "loop"
  fullPath := "C:\\loop"

theorem selfParent_never_totalled :
    ¬ ∃ fuel, (aggregateDirectoryRecords fuel [selfParent] []).isSome = true := by
  have hparent : parentOf [selfParent] ⟨6⟩ = some ⟨6⟩ := by decide
  rw [aggregateDirectoryRecords_ends_iff]
  intro hacyclic
  exact hacyclic ⟨6⟩ ⟨0, by rw [ancestor_succ_of_some hparent, ancestor_zero]⟩

end Ntfs

end WinBlaze
