import Mathlib.Data.Finset.Card
import WinBlaze.Scanner.Ntfs.BatchTermination
import WinBlaze.Scanner.Ntfs.StreamEmission

/-!
# The entries of a set of records

For records with different numbers, the entries the batch backend enumerates
are the root and every other parsed entry with the sizes of all its extensions.
With a number used twice it counts fewer entries than were parsed.
-/

namespace WinBlaze

namespace Ntfs

open Saturating

def ParsedRecordOutcome.entry? : ParsedRecordOutcome → Option ParsedNtfsEntry
  | .entry parsed => some parsed
  | _ => Option.none

def ParsedRecordOutcome.extension? : ParsedRecordOutcome → Option ExtensionSizes
  | .extension sizes => some sizes
  | _ => Option.none

/-! ## A set of records -/

def entriesOf (records : List ParsedRecordOutcome) : List ParsedNtfsEntry :=
  records.filterMap ParsedRecordOutcome.entry?

def extensionsOf (records : List ParsedRecordOutcome) : List ExtensionSizes :=
  records.filterMap ParsedRecordOutcome.extension?

/-- The entry with at least all of these sizes. -/
def growBy (extensions : List ExtensionSizes) (entry : ParsedNtfsEntry) : ParsedNtfsEntry :=
  extensions.foldl ParsedNtfsEntry.withSizes entry

/-- The extensions with this base. -/
def extensionsFor (id : UInt64) (extensions : List ExtensionSizes) : List ExtensionSizes :=
  extensions.filter (fun extension ↦ extension.baseRecord = id)

/-- The entry with the sizes of all its extensions. -/
def fullyGrown (records : List ParsedRecordOutcome) (entry : ParsedNtfsEntry) : ParsedNtfsEntry :=
  growBy (extensionsFor entry.fileId.val (extensionsOf records)) entry

/-- Directory entries for the root's number only repeat the root. -/
def isKept (entry : ParsedNtfsEntry) : Bool :=
  !(entry.isDirectory && entry.fileId.val = ntfsRootRecord)

def keptEntries (records : List ParsedRecordOutcome) : List ParsedNtfsEntry :=
  (entriesOf records).filter isKept

/-- The root and the other entries have different numbers. -/
def DistinctRecords (records : List ParsedRecordOutcome) : Prop :=
  (ntfsRootRecord :: (keptEntries records).map (fun entry ↦ entry.fileId.val)).Nodup

instance DistinctRecords.decidable (records : List ParsedRecordOutcome) :
    Decidable (DistinctRecords records) :=
  inferInstanceAs (Decidable (List.Nodup _))

/-- What sizes do not touch. -/
theorem growBy_eq {β : Type} {f : ParsedNtfsEntry → β}
    (h : ∀ entry sizes, f (ParsedNtfsEntry.withSizes entry sizes) = f entry)
    (extensions : List ExtensionSizes) (entry : ParsedNtfsEntry) :
    f (growBy extensions entry) = f entry := by
  rw [growBy]
  induction extensions generalizing entry with
  | nil => rfl
  | cons extension rest ih => rw [List.foldl_cons, ih, h]

section GrowBy

variable (extensions : List ExtensionSizes) (entry : ParsedNtfsEntry)

@[simp] theorem growBy_fileId : (growBy extensions entry).fileId = entry.fileId :=
  growBy_eq (fun _ _ ↦ rfl) extensions entry

@[simp] theorem growBy_isDirectory : (growBy extensions entry).isDirectory = entry.isDirectory :=
  growBy_eq (fun _ _ ↦ rfl) extensions entry

@[simp] theorem growBy_parentDirectoryId :
    (growBy extensions entry).parentDirectoryId = entry.parentDirectoryId :=
  growBy_eq (fun _ _ ↦ rfl) extensions entry

@[simp] theorem growBy_name : (growBy extensions entry).name = entry.name :=
  growBy_eq (fun _ _ ↦ rfl) extensions entry

@[simp] theorem growBy_hasAttributeList :
    (growBy extensions entry).hasAttributeList = entry.hasAttributeList :=
  growBy_eq (fun _ _ ↦ rfl) extensions entry

end GrowBy

theorem growBy_nil : growBy [] = id := rfl

theorem growBy_append (first second : List ExtensionSizes) (entry : ParsedNtfsEntry) :
    growBy (first ++ second) entry = growBy second (growBy first entry) :=
  List.foldl_append

/-- The records of an entry's number are this entry. -/
theorem DistinctRecords.eq_of_fileId {records : List ParsedRecordOutcome}
    (h : DistinctRecords records) {entry other : ParsedNtfsEntry} (hentry : entry ∈ entriesOf records)
    (hother : other ∈ entriesOf records) (hkept : isKept entry = true)
    (hid : other.fileId.val = entry.fileId.val) : other = entry := by
  obtain ⟨hroot, hnodup⟩ := List.nodup_cons.mp h
  have hentry' : entry ∈ keptEntries records := List.mem_filter.mpr ⟨hentry, hkept⟩
  have hother' : other ∈ keptEntries records := by
    refine List.mem_filter.mpr ⟨hother, ?_⟩
    by_contra hdropped
    apply hroot
    have hvalue : other.fileId.val = ntfsRootRecord := by
      simp only [isKept, Bool.not_eq_true', Bool.not_eq_false] at hdropped
      exact of_decide_eq_true (Bool.and_eq_true_iff.mp hdropped).2
    exact List.mem_map.mpr ⟨entry, hentry', hid.symm.trans hvalue⟩
  exact List.inj_on_of_nodup_map hnodup hother' hentry' hid

/-- Entries for the root's number are directories. -/
theorem DistinctRecords.isDirectory_of_root {records : List ParsedRecordOutcome}
    (h : DistinctRecords records) {entry : ParsedNtfsEntry} (hentry : entry ∈ entriesOf records)
    (hid : entry.fileId.val = ntfsRootRecord) : entry.isDirectory = true := by
  by_contra hfile
  have hkept : isKept entry = true := by simp [isKept, Bool.eq_false_iff.mpr hfile]
  apply (List.nodup_cons.mp h).1
  exact List.mem_map.mpr ⟨entry, List.mem_filter.mpr ⟨hentry, hkept⟩, hid⟩

/-! ## The enumerated entries -/

def collectOutcomes (records : List ParsedRecordOutcome) : CollectedRecords :=
  records.foldl CollectedRecords.add {}

theorem foldl_add (records : List ParsedRecordOutcome) (collected : CollectedRecords) :
    records.foldl CollectedRecords.add collected =
      ⟨(entriesOf records).foldl KeyedArena.insert collected.entries,
        collected.extensions ++ extensionsOf records⟩ := by
  induction records generalizing collected with
  | nil => simp [entriesOf, extensionsOf]
  | cons outcome rest ih =>
      rw [List.foldl_cons, ih]
      cases outcome with
      | none => rfl
      | entry entry => rfl
      | extension extension =>
          have happend : collected.extensions ++ [extension] ++ extensionsOf rest =
              collected.extensions ++ (extension :: extensionsOf rest) := by
            rw [List.append_assoc, List.singleton_append]
          exact congrArg (CollectedRecords.mk _) happend

theorem collectOutcomes_eq (records : List ParsedRecordOutcome) :
    collectOutcomes records = ⟨.ofList (entriesOf records), extensionsOf records⟩ := by
  rw [collectOutcomes, foldl_add, List.nil_append]
  rfl

/-- The entries the batch backend enumerates. -/
def batchEntries (records : List ParsedRecordOutcome) : Entries :=
  withRootEntry (applyExtensionSizes (collectOutcomes records).entries
    (collectOutcomes records).extensions)

theorem get?_applyExtensionSize (entries : Entries) (extension : ExtensionSizes) (id : UInt64) :
    (applyExtensionSize entries extension).get? id =
      (entries.get? id).map (growBy (extensionsFor id [extension])) := by
  rw [applyExtensionSize]
  by_cases hid : extension.baseRecord = id
  · subst hid
    cases hbase : entries.get? extension.baseRecord with
    | none => simp [hbase]
    | some entry =>
        obtain ⟨-, hentry⟩ := (KeyedArena.get?_eq_some_iff entries _ entry).mp hbase
        have hself := KeyedArena.get?_insert_self entries (entry.withSizes extension)
        dsimp only at hentry hself ⊢
        rw [ParsedNtfsEntry.withSizes_fileId, hentry] at hself
        rw [hself]
        simp [extensionsFor, growBy]
  · have hnone : extensionsFor id [extension] = [] := by simp [extensionsFor, hid]
    rw [hnone, growBy_nil, Option.map_id]
    cases hbase : entries.get? extension.baseRecord with
    | none => rfl
    | some entry =>
        obtain ⟨-, hentry⟩ := (KeyedArena.get?_eq_some_iff entries _ entry).mp hbase
        have hne : id ≠ (entry.withSizes extension).fileId.val := by
          rw [ParsedNtfsEntry.withSizes_fileId, hentry]
          exact Ne.symm hid
        exact KeyedArena.get?_insert_of_ne entries (entry.withSizes extension) hne

theorem get?_applyExtensionSizes (entries : Entries) (extensions : List ExtensionSizes)
    (id : UInt64) :
    (applyExtensionSizes entries extensions).get? id =
      (entries.get? id).map (growBy (extensionsFor id extensions)) := by
  rw [applyExtensionSizes]
  induction extensions generalizing entries with
  | nil =>
      rw [extensionsFor, List.filter_nil, growBy_nil, Option.map_id]
      rfl
  | cons extension rest ih =>
      have hfilter : extensionsFor id (extension :: rest) =
          extensionsFor id [extension] ++ extensionsFor id rest := by
        rw [extensionsFor, ← List.singleton_append, List.filter_append]
        rfl
      rw [List.foldl_cons, ih, get?_applyExtensionSize, Option.map_map, hfilter]
      refine congrFun (congrArg _ (funext fun entry ↦ ?_)) _
      exact (growBy_append _ _ entry).symm

section Distinct

variable {records : List ParsedRecordOutcome}

theorem isKept_of_ne {entry : ParsedNtfsEntry} (h : entry.fileId.val ≠ ntfsRootRecord) :
    isKept entry = true := by
  simp [isKept, h]

/-- Kept entries are the entries with other numbers than the root. -/
theorem DistinctRecords.mem_keptEntries_iff (h : DistinctRecords records) (entry : ParsedNtfsEntry) :
    entry ∈ keptEntries records ↔ entry ∈ entriesOf records ∧ entry.fileId.val ≠ ntfsRootRecord := by
  rw [keptEntries, List.mem_filter]
  constructor
  · rintro ⟨hmem, hkept⟩
    refine ⟨hmem, fun hid ↦ ?_⟩
    apply (List.nodup_cons.mp h).1
    exact List.mem_map.mpr ⟨entry, List.mem_filter.mpr ⟨hmem, hkept⟩, hid⟩
  · rintro ⟨hmem, hid⟩
    exact ⟨hmem, isKept_of_ne hid⟩

theorem get?_batchEntries_of_ne {id : UInt64} (hid : id ≠ ntfsRootRecord) :
    (batchEntries records).get? id = ((collectOutcomes records).entries.get? id).map
      (growBy (extensionsFor id (extensionsOf records))) := by
  have hextensions : (collectOutcomes records).extensions = extensionsOf records := by
    rw [collectOutcomes_eq]
  rw [batchEntries, withRootEntry]
  split
  case isTrue => rw [get?_applyExtensionSizes, hextensions]
  case isFalse =>
    rw [KeyedArena.get?_insert_of_ne _ rootEntry hid, get?_applyExtensionSizes, hextensions]

theorem DistinctRecords.get?_collected_iff (h : DistinctRecords records) {id : UInt64}
    (hid : id ≠ ntfsRootRecord) (entry : ParsedNtfsEntry) :
    (collectOutcomes records).entries.get? id = some entry ↔
      entry ∈ entriesOf records ∧ entry.fileId.val = id := by
  rw [collectOutcomes_eq]
  constructor
  · intro hget
    obtain ⟨hmem, hkey⟩ := (KeyedArena.get?_eq_some_iff _ id entry).mp hget
    exact ⟨KeyedArena.mem_of_mem_ofList hmem, hkey⟩
  · rintro ⟨hmem, rfl⟩
    cases hget : (KeyedArena.ofList (entriesOf records) : Entries).get? entry.fileId.val with
    | none =>
        have hnot := (KeyedArena.get?_ofList_eq_none_iff _ _).mp hget
        exact (hnot (List.mem_map.mpr ⟨entry, hmem, rfl⟩)).elim
    | some other =>
        obtain ⟨hother, hkey⟩ := (KeyedArena.get?_eq_some_iff _ _ other).mp hget
        rw [h.eq_of_fileId hmem (KeyedArena.mem_of_mem_ofList hother) (isKept_of_ne hid) hkey]

theorem DistinctRecords.get?_batchEntries_iff (h : DistinctRecords records) {id : UInt64}
    (hid : id ≠ ntfsRootRecord) (grown : ParsedNtfsEntry) :
    (batchEntries records).get? id = some grown ↔
      ∃ entry ∈ entriesOf records, entry.fileId.val = id ∧ fullyGrown records entry = grown := by
  rw [get?_batchEntries_of_ne hid, Option.map_eq_some_iff]
  constructor
  · rintro ⟨entry, hget, hgrown⟩
    obtain ⟨hmem, rfl⟩ := (h.get?_collected_iff hid entry).mp hget
    exact ⟨entry, hmem, rfl, hgrown⟩
  · rintro ⟨entry, hmem, rfl, hgrown⟩
    exact ⟨entry, (h.get?_collected_iff hid entry).mpr ⟨hmem, rfl⟩, hgrown⟩

/-- The root is among the enumerated entries, as a directory. -/
theorem DistinctRecords.exists_root (h : DistinctRecords records) :
    ∃ root, (batchEntries records).get? ntfsRootRecord = some root ∧ root.isDirectory = true := by
  rw [batchEntries, withRootEntry]
  split
  case isTrue hsome =>
    obtain ⟨root, hroot⟩ := Option.isSome_iff_exists.mp hsome
    refine ⟨root, hroot, ?_⟩
    rw [get?_applyExtensionSizes] at hroot
    obtain ⟨entry, hentry, rfl⟩ := Option.map_eq_some_iff.mp hroot
    rw [collectOutcomes_eq] at hentry
    obtain ⟨hmem, hid⟩ := (KeyedArena.get?_eq_some_iff _ _ entry).mp hentry
    rw [growBy_isDirectory]
    exact h.isDirectory_of_root (KeyedArena.mem_of_mem_ofList hmem) hid
  case isFalse => exact ⟨rootEntry, KeyedArena.get?_insert_self _ rootEntry, rfl⟩

theorem DistinctRecords.nodup_fullyGrown (h : DistinctRecords records) :
    (((keptEntries records).map (fullyGrown records)).map (fun entry ↦ entry.fileId.val)).Nodup := by
  have hids : (fun entry : ParsedNtfsEntry ↦ entry.fileId.val) ∘ fullyGrown records =
      fun entry ↦ entry.fileId.val := by
    funext entry
    simp [fullyGrown]
  rw [List.map_map, hids]
  exact (List.nodup_cons.mp h).2

/-- The enumerated entries are the root and the grown kept entries. -/
theorem DistinctRecords.batchEntries_perm (h : DistinctRecords records) :
    ∃ root : ParsedNtfsEntry, root.isDirectory = true ∧ root.fileId.val = ntfsRootRecord ∧
      (batchEntries records).records.Perm (root :: (keptEntries records).map (fullyGrown records)) := by
  obtain ⟨root, hroot, hdirectory⟩ := h.exists_root
  obtain ⟨-, hid⟩ := (KeyedArena.get?_eq_some_iff _ _ root).mp hroot
  refine ⟨root, hdirectory, hid, ?_⟩
  have hnot : root ∉ (keptEntries records).map (fullyGrown records) := by
    intro hmem
    obtain ⟨entry, hentry, rfl⟩ := List.mem_map.mp hmem
    exact ((h.mem_keptEntries_iff entry).mp hentry).2 (by simpa [fullyGrown] using hid)
  have hnodup : (root :: (keptEntries records).map (fullyGrown records)).Nodup :=
    List.nodup_cons.mpr ⟨hnot, List.Nodup.of_map _ h.nodup_fullyGrown⟩
  apply (List.perm_ext_iff_of_nodup (List.Nodup.of_map _ (batchEntries records).nodup_keys)
    hnodup).mpr
  intro entry
  have hget : entry ∈ (batchEntries records).records ↔
      (batchEntries records).get? entry.fileId.val = some entry := by
    rw [KeyedArena.get?_eq_some_iff]
    exact (and_iff_left rfl).symm
  rw [hget, List.mem_cons, List.mem_map]
  by_cases hentry : entry.fileId.val = ntfsRootRecord
  · rw [hentry, hroot]
    constructor
    · intro heq
      exact Or.inl (Option.some.inj heq).symm
    · rintro (rfl | ⟨other, hother, rfl⟩)
      · rfl
      · exact (((h.mem_keptEntries_iff other).mp hother).2 (by simpa [fullyGrown] using hentry)).elim
  · rw [h.get?_batchEntries_iff hentry]
    constructor
    · rintro ⟨other, hmem, hid', hgrown⟩
      exact Or.inr ⟨other, (h.mem_keptEntries_iff other).mpr ⟨hmem, hid' ▸ hentry⟩, hgrown⟩
    · rintro (rfl | ⟨other, hother, hgrown⟩)
      · exact (hentry hid).elim
      · refine ⟨other, ((h.mem_keptEntries_iff other).mp hother).1, ?_, hgrown⟩
        rw [← hgrown]
        simp [fullyGrown]

/-! ## Counts -/

theorem mem_keys_batchEntries_iff (records : List ParsedRecordOutcome) (id : UInt64) :
    id ∈ (batchEntries records).records.map (fun entry ↦ entry.fileId.val) ↔
      id ∈ ntfsRootRecord :: (keptEntries records).map (fun entry ↦ entry.fileId.val) := by
  have hkeys : id ∉ (batchEntries records).records.map (fun entry ↦ entry.fileId.val) ↔
      (batchEntries records).get? id = none := by
    rw [KeyedArena.get?_eq_none_iff]
    simp
  rw [← not_iff_not, hkeys, List.mem_cons, not_or]
  by_cases hid : id = ntfsRootRecord
  · have hroot : (batchEntries records).get? id ≠ none := by
      rw [hid, batchEntries, withRootEntry]
      split
      case isTrue hsome => exact Option.isSome_iff_ne_none.mp hsome
      case isFalse =>
        have hself := KeyedArena.get?_insert_self (applyExtensionSizes
          (collectOutcomes records).entries (collectOutcomes records).extensions) rootEntry
        exact Option.isSome_iff_ne_none.mp (Option.isSome_iff_exists.mpr ⟨rootEntry, hself⟩)
    exact iff_of_false hroot fun h ↦ h.1 hid
  · rw [get?_batchEntries_of_ne hid, Option.map_eq_none_iff, and_iff_right hid, collectOutcomes_eq]
    have hnone : (KeyedArena.ofList (entriesOf records) : Entries).get? id = none ↔
        id ∉ (entriesOf records).map (fun entry ↦ entry.fileId.val) :=
      KeyedArena.get?_ofList_eq_none_iff _ _
    rw [hnone, not_iff_not, List.mem_map, List.mem_map]
    constructor
    · rintro ⟨entry, hmem, rfl⟩
      exact ⟨entry, List.mem_filter.mpr ⟨hmem, isKept_of_ne hid⟩, rfl⟩
    · rintro ⟨entry, hmem, rfl⟩
      exact ⟨entry, List.mem_of_mem_filter hmem, rfl⟩

theorem length_batchEntries (records : List ParsedRecordOutcome) :
    (batchEntries records).records.length =
      (ntfsRootRecord :: (keptEntries records).map (fun entry ↦ entry.fileId.val)).toFinset.card := by
  have hset : ((batchEntries records).records.map (fun entry ↦ entry.fileId.val)).toFinset =
      (ntfsRootRecord :: (keptEntries records).map (fun entry ↦ entry.fileId.val)).toFinset := by
    ext id
    rw [List.mem_toFinset, List.mem_toFinset, mem_keys_batchEntries_iff]
  rw [← hset, List.toFinset_card_of_nodup (batchEntries records).nodup_keys, List.length_map]

/-- There are as many enumerated entries as parsed ones and the root exactly
when no number is used twice. -/
theorem length_batchEntries_eq_iff (records : List ParsedRecordOutcome) :
    (batchEntries records).records.length = (keptEntries records).length + 1 ↔
      DistinctRecords records := by
  have hnodup := Multiset.toFinset_card_eq_card_iff_nodup
    (m := (ntfsRootRecord :: (keptEntries records).map (fun entry ↦ entry.fileId.val) :
      Multiset UInt64))
  rw [DistinctRecords, ← Multiset.coe_nodup, ← hnodup, length_batchEntries, Multiset.coe_card,
    List.length_cons, List.length_map]
  rfl

theorem length_batchEntries_le (records : List ParsedRecordOutcome) :
    (batchEntries records).records.length ≤ records.length + 1 := by
  have hkept : (keptEntries records).length ≤ records.length :=
    (List.length_filter_le _ _).trans (List.length_filterMap_le _ _)
  have hcard := List.toFinset_card_le
    (ntfsRootRecord :: (keptEntries records).map (fun entry ↦ entry.fileId.val))
  rw [← length_batchEntries, List.length_cons, List.length_map] at hcard
  omega

def fileCount (records : List ParsedRecordOutcome) : ℕ :=
  (entriesOf records).countP (fun entry ↦ !entry.isDirectory)

def directoryCount (records : List ParsedRecordOutcome) : ℕ := (entriesOf records).countP isStreamed

theorem isKept_eq (entry : ParsedNtfsEntry) :
    isKept entry = (!entry.isDirectory || isStreamed entry) := by
  rw [isKept, isStreamed]
  cases entry.isDirectory <;> simp

theorem countP_files_keptEntries (records : List ParsedRecordOutcome) :
    (keptEntries records).countP (fun entry ↦ !entry.isDirectory) = fileCount records := by
  rw [keptEntries, List.countP_filter, fileCount]
  apply List.countP_congr
  intro entry _
  rw [isKept_eq]
  cases entry.isDirectory <;> simp

theorem countP_directories_keptEntries (records : List ParsedRecordOutcome) :
    (keptEntries records).countP (fun entry ↦ entry.isDirectory) = directoryCount records := by
  rw [keptEntries, List.countP_filter, directoryCount]
  apply List.countP_congr
  intro entry _
  rw [isKept_eq, isStreamed]
  cases entry.isDirectory <;> simp

theorem length_eq_counts (entries : List ParsedNtfsEntry) :
    entries.length = entries.countP (fun entry ↦ !entry.isDirectory) +
      entries.countP (fun entry ↦ entry.isDirectory) := by
  rw [List.length_eq_countP_add_countP (fun entry : ParsedNtfsEntry ↦ !entry.isDirectory)]
  simp

/-- With different numbers, files and directories are counted as parsed. -/
theorem DistinctRecords.counts (h : DistinctRecords records) :
    (batchEntries records).records.countP (fun entry ↦ !entry.isDirectory) = fileCount records ∧
      (batchEntries records).records.countP (fun entry ↦ entry.isDirectory) =
        directoryCount records + 1 := by
  obtain ⟨root, hdirectory, -, hperm⟩ := h.batchEntries_perm
  have hfiles : (fun entry : ParsedNtfsEntry ↦ !entry.isDirectory) ∘ fullyGrown records =
      fun entry ↦ !entry.isDirectory := by
    funext entry
    simp [fullyGrown]
  have hdirectories : (fun entry : ParsedNtfsEntry ↦ entry.isDirectory) ∘ fullyGrown records =
      fun entry ↦ entry.isDirectory := by
    funext entry
    simp [fullyGrown]
  constructor
  · rw [hperm.countP_eq, List.countP_cons, List.countP_map, hfiles, countP_files_keptEntries]
    simp [hdirectory]
  · rw [hperm.countP_eq, List.countP_cons, List.countP_map, hdirectories,
      countP_directories_keptEntries]
    simp [hdirectory]

/-- The counts add up to the parsed entries and the root exactly when no number
is used twice. -/
theorem counts_eq_iff (records : List ParsedRecordOutcome) :
    ((batchEntries records).records.countP (fun entry ↦ !entry.isDirectory) = fileCount records ∧
      (batchEntries records).records.countP (fun entry ↦ entry.isDirectory) =
        directoryCount records + 1) ↔ DistinctRecords records := by
  constructor
  · rintro ⟨hfiles, hdirectories⟩
    rw [← length_batchEntries_eq_iff, length_eq_counts, length_eq_counts (keptEntries records),
      countP_files_keptEntries, countP_directories_keptEntries, hfiles, hdirectories]
    exact (Nat.add_assoc _ _ _).symm
  · exact DistinctRecords.counts

end Distinct

end Ntfs

end WinBlaze
