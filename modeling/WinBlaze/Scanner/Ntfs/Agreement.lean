import WinBlaze.Scanner.Ntfs.StreamPaths
import WinBlaze.Scanner.Ntfs.StreamTotals

/-!
# When the two backends agree

Fed the same records, the streaming and the batch backend agree exactly when no
record number is used twice, no directory is above itself, the two rules for
paths meet at every directory, and no extension comes too late to be totalled.
-/

namespace WinBlaze

namespace Ntfs

open ParentChain Saturating

/-! ## Totals of the batch backend -/

def fullFiles (records : List ParsedRecordOutcome) : List ParsedNtfsEntry :=
  (fileEntries records).map (fullyGrown records)

theorem files_foldl_visitEntry (entries : Entries) (rootText : String) (l : List ParsedNtfsEntry)
    (state : BatchState) :
    (l.foldl (visitEntry entries rootText) state).files =
      state.files ++ (l.filter (fun entry ↦ !entry.isDirectory)).map ParsedNtfsEntry.toFileRecord := by
  induction l generalizing state with
  | nil => simp
  | cons entry rest ih =>
      rw [List.foldl_cons, ih]
      cases hdirectory : entry.isDirectory <;> simp [visitEntry, hdirectory]

/-- Order does not matter for a total. -/
theorem toNat_sumSaturating_perm {values others : List UInt64} (h : values.Perm others) :
    (sumSaturating values).toNat = min (others.map UInt64.toNat).sum maxValue := by
  rw [sumSaturating, toNat_foldl_satAdd, (h.map UInt64.toNat).sum_eq, UInt64.toNat_zero, Nat.zero_add]

theorem DistinctRecords.files_perm {records : List ParsedRecordOutcome} (h : DistinctRecords records) :
    ((batchEntries records).records.filter (fun entry ↦ !entry.isDirectory)).Perm
      (fullFiles records) := by
  obtain ⟨root, hdirectory, -, hperm⟩ := h.batchEntries_perm
  have hfiles : ((keptEntries records).map (fullyGrown records)).filter
      (fun entry ↦ !entry.isDirectory) = fullFiles records := by
    have hkind : (fun entry : ParsedNtfsEntry ↦ !entry.isDirectory) ∘ fullyGrown records =
        fun entry ↦ !entry.isDirectory := by
      funext entry
      simp [fullyGrown]
    rw [List.filter_map, hkind, fullFiles, fileEntries, keptEntries, List.filter_filter]
    refine congrArg (List.map _) (List.filter_congr fun entry _ ↦ ?_)
    rw [isKept_eq]
    cases entry.isDirectory <;> simp
  have hfiltered := hperm.filter (fun entry ↦ !entry.isDirectory)
  rw [List.filter_cons, hdirectory] at hfiltered
  exact hfiltered.trans (List.Perm.of_eq hfiles)

/-- What the batch backend returns, read off its entries. -/
theorem parseEntries_eq_some {fuel : ℕ} {rootText : String} {records : List ParsedRecordOutcome}
    {enumeration : NtfsEnumeration}
    (h : parseEntries fuel rootText (applyExtensionSizes (collectOutcomes records).entries
      (collectOutcomes records).extensions) = some enumeration) :
    (∃ files, aggregateDirectoryRecords fuel (enumeratedDirectories rootText (batchEntries records))
      files = some enumeration.directories) ∧
    enumeration.summary.filesSeen =
      .ofNat ((batchEntries records).records.countP (fun entry ↦ !entry.isDirectory)) ∧
    enumeration.summary.directoriesSeen =
      .ofNat ((batchEntries records).records.countP (fun entry ↦ entry.isDirectory)) ∧
    ∃ files : List FileRecord, files.Perm
        (((batchEntries records).records.filter (fun entry ↦ !entry.isDirectory)).map
          ParsedNtfsEntry.toFileRecord) ∧
      enumeration.summary.totalSizeBytes = sumSaturating (files.map FileRecord.sizeBytes) ∧
      enumeration.summary.totalAllocationBytes =
        sumSaturating (files.map FileRecord.allocationBytes) := by
  obtain ⟨directories, hdirectories, rfl⟩ := Option.map_eq_some_iff.mp h
  refine ⟨⟨_, hdirectories⟩, rfl, rfl, _, ?_, rfl, rfl⟩
  refine (KeyOrder.sortByKey_perm _ _).trans ?_
  rw [visitEntries, files_foldl_visitEntry, List.nil_append]
  apply List.Perm.map
  exact (KeyOrder.sortByKey_perm _ _).filter _

/-- The batch backend gives the root and every directory its path of the batch rule. -/
theorem givesPath_parseEntries_iff {fuel : ℕ} {rootText : String}
    {records : List ParsedRecordOutcome} {enumeration : NtfsEnumeration}
    (h : parseEntries fuel rootText (applyExtensionSizes (collectOutcomes records).entries
      (collectOutcomes records).extensions) = some enumeration)
    (hdistinct : DistinctRecords records) (id : UInt64) (path : String) :
    GivesPath enumeration.directories id path ↔
      (id = ntfsRootRecord ∧ path = rootText) ∨
        IsDirectory (recordGraph records) id ∧
          BatchPath (cutGraph (recordGraph records)) rootText id path := by
  obtain ⟨⟨files, haggregate⟩, -⟩ := parseEntries_eq_some h
  have hgraph := hdistinct.entryGraph_batchEntries
  rw [givesPath_aggregateDirectoryRecords haggregate, givesPath_enumeratedDirectories_iff, HasPath, hgraph]
  constructor
  · rintro ⟨⟨entry, hmem, hdirectory, rfl⟩, hroot | hpath⟩
    · exact Or.inl hroot
    · refine Or.inr ⟨⟨infoOf entry, ?_, hdirectory⟩, hpath⟩
      obtain ⟨cut, hcut⟩ := hpath.exists_info
      obtain ⟨info, hinfo, -⟩ := exists_info_of_cutGraph hcut
      have hne : entry.fileId.val ≠ ntfsRootRecord :=
        ((hdistinct.recordGraph_eq_some_iff _ info).mp hinfo).1
      have hget := (KeyedArena.get?_eq_some_iff (batchEntries records) entry.fileId.val entry).mpr
        ⟨hmem, rfl⟩
      rw [← hgraph, entryGraph_of_ne _ hne, hget, Option.map_some]
  · rintro (⟨rfl, rfl⟩ | ⟨⟨info, hinfo, hdirectory⟩, hpath⟩)
    · obtain ⟨root, hroot, hdirectory⟩ := hdistinct.exists_root
      obtain ⟨hmem, hid⟩ := (KeyedArena.get?_eq_some_iff _ _ root).mp hroot
      exact ⟨⟨root, hmem, hdirectory, hid⟩, Or.inl ⟨rfl, rfl⟩⟩
    · refine ⟨?_, Or.inr hpath⟩
      rw [← hgraph] at hinfo
      rw [entryGraph_of_ne _ (ne_root_of_entryGraph hinfo)] at hinfo
      obtain ⟨entry, hget, rfl⟩ := Option.map_eq_some_iff.mp hinfo
      obtain ⟨hmem, hid⟩ := (KeyedArena.get?_eq_some_iff _ _ entry).mp hget
      exact ⟨entry, hmem, hdirectory, hid⟩

/-! ## Extensions that come too late -/

/-- No extension fed after a file without an attribute list enlarges it, when
`before` was fed before. -/
def CoveredFrom (size : ParsedNtfsEntry → UInt64) (before : List ExtensionSizes) :
    List ParsedRecordOutcome → Prop
  | [] => True
  | .entry entry :: rest =>
      (entry.isDirectory = false → entry.hasAttributeList = false →
        size (growBy (extensionsFor entry.fileId.val before) entry) =
          size (growBy (extensionsFor entry.fileId.val (before ++ extensionsOf rest)) entry)) ∧
        CoveredFrom size before rest
  | .extension sizes :: rest => CoveredFrom size (before ++ [sizes]) rest
  | .none :: rest => CoveredFrom size before rest

/-- Every size of a file is known when the file is totalled for the last time. -/
def LateSizesCovered (size : ParsedNtfsEntry → UInt64) (fed : List ParsedRecordOutcome) : Prop :=
  CoveredFrom size [] fed

section Late

variable {size : ParsedNtfsEntry → UInt64}
  (hmono : ∀ entry sizes, size entry ≤ size (ParsedNtfsEntry.withSizes entry sizes))

include hmono

theorem le_growBy (extensions : List ExtensionSizes) (entry : ParsedNtfsEntry) :
    (size entry).toNat ≤ (size (growBy extensions entry)).toNat := by
  induction extensions generalizing entry with
  | nil => exact le_rfl
  | cons extension rest ih =>
      exact (UInt64.le_iff_toNat_le.mp (hmono entry extension)).trans (ih _)

/-- Known sizes add up to at most the full ones, and to as much exactly when no
extension comes too late. -/
theorem sum_knownFilesFrom (before : List ExtensionSizes) (fed : List ParsedRecordOutcome) :
    ((knownFilesFrom before fed).map (fun entry ↦ (size entry).toNat)).sum ≤
        ((fileEntries fed).map (fun entry ↦ (size (growBy (extensionsFor entry.fileId.val
          (before ++ extensionsOf fed)) entry)).toNat)).sum ∧
      (((knownFilesFrom before fed).map (fun entry ↦ (size entry).toNat)).sum =
          ((fileEntries fed).map (fun entry ↦ (size (growBy (extensionsFor entry.fileId.val
            (before ++ extensionsOf fed)) entry)).toNat)).sum ↔
        CoveredFrom size before fed) := by
  induction fed generalizing before with
  | nil => exact ⟨le_rfl, iff_of_true rfl trivial⟩
  | cons outcome rest ih =>
      cases outcome with
      | none => exact ih before
      | extension extension =>
          have hrest := ih (before ++ [extension])
          rw [List.append_assoc] at hrest
          exact hrest
      | entry entry =>
          obtain ⟨hle, heq⟩ := ih before
          rw [knownFilesFrom, CoveredFrom]
          cases hdirectory : entry.isDirectory with
          | true =>
              have hfiles : fileEntries (.entry entry :: rest) = fileEntries rest := by
                simp [fileEntries, entriesOf, ParsedRecordOutcome.entry?, hdirectory]
              rw [hfiles, if_pos rfl]
              refine ⟨hle, heq.trans (and_iff_right ?_).symm⟩
              intro h
              cases h
          | false =>
              have hfiles : fileEntries (.entry entry :: rest) = entry :: fileEntries rest := by
                simp [fileEntries, entriesOf, ParsedRecordOutcome.entry?, hdirectory]
              have hextensions : extensionsOf (.entry entry :: rest) = extensionsOf rest := rfl
              rw [hfiles, if_neg Bool.false_ne_true, List.map_cons, List.map_cons, List.sum_cons,
                List.sum_cons, hextensions]
              cases hlist : entry.hasAttributeList with
              | true =>
                  rw [if_pos rfl]
                  refine ⟨Nat.add_le_add_left hle _, ?_⟩
                  rw [Nat.add_left_cancel_iff, heq]
                  refine (and_iff_right ?_).symm
                  intro _ h
                  cases h
              | false =>
                  rw [if_neg Bool.false_ne_true, List.append_nil, extensionsFor_append, growBy_append]
                  have hgrows := le_growBy hmono
                    (extensionsFor entry.fileId.val (extensionsOf rest))
                    (growBy (extensionsFor entry.fileId.val before) entry)
                  refine ⟨Nat.add_le_add hgrows hle, ?_⟩
                  rw [← heq]
                  constructor
                  · intro hsum
                    exact ⟨fun _ _ ↦ UInt64.toNat_inj.mp (by omega), by omega⟩
                  · rintro ⟨hcovered, hsum⟩
                    rw [hcovered rfl rfl, hsum]

end Late

theorem withSizes_sizeBytes_le (entry : ParsedNtfsEntry) (sizes : ExtensionSizes) :
    entry.sizeBytes ≤ (entry.withSizes sizes).sizeBytes := Saturating.le_max_left _ _

theorem withSizes_allocationBytes_le (entry : ParsedNtfsEntry) (sizes : ExtensionSizes) :
    entry.allocationBytes ≤ (entry.withSizes sizes).allocationBytes := Saturating.le_max_left _ _

/-- The order of extensions does not matter for a file. -/
theorem growBy_perm {first second : List ExtensionSizes} (h : first.Perm second)
    (entry : ParsedNtfsEntry) : growBy first entry = growBy second entry := by
  refine h.foldl_eq' (fun sizes _ others _ other ↦ ?_) entry
  simp only [ParsedNtfsEntry.withSizes, max_right_comm]

theorem fullFiles_perm {fed records : List ParsedRecordOutcome} (h : fed.Perm records) :
    (fullFiles fed).Perm (fullFiles records) := by
  have hfiles : (fileEntries fed).Perm (fileEntries records) := (h.filterMap _).filter _
  have hgrown : fullyGrown fed = fullyGrown records := by
    funext entry
    apply growBy_perm
    exact (h.filterMap _).filter _
  rw [fullFiles, hgrown]
  exact hfiles.map _

/-- A streamed total equals the full one exactly when nothing comes too late or
both saturate. -/
theorem min_sum_eq_iff {size : ParsedNtfsEntry → UInt64}
    (hmono : ∀ entry sizes, size entry ≤ size (ParsedNtfsEntry.withSizes entry sizes))
    (fed : List ParsedRecordOutcome) :
    min ((knownFiles fed).map (fun entry ↦ (size entry).toNat)).sum maxValue =
        min ((fullFiles fed).map (fun entry ↦ (size entry).toNat)).sum maxValue ↔
      LateSizesCovered size fed ∨
        maxValue ≤ ((knownFiles fed).map (fun entry ↦ (size entry).toNat)).sum := by
  obtain ⟨hle, heq⟩ := sum_knownFilesFrom hmono [] fed
  rw [List.nil_append] at hle heq
  have hfull : (fullFiles fed).map (fun entry ↦ (size entry).toNat) = (fileEntries fed).map
      (fun entry ↦ (size (growBy (extensionsFor entry.fileId.val (extensionsOf fed)) entry)).toNat) := by
    rw [fullFiles, List.map_map]
    rfl
  rw [LateSizesCovered, ← heq, hfull, knownFiles]
  omega

/-! ## Agreement -/

/-- The batch backend returns for `records`, and gives every directory the path
and the same summary as the streaming backend fed with `fed`. -/
def AgreesWithBatch (rootText : String) (fed records : List ParsedRecordOutcome) : Prop :=
  ∃ fuel enumeration,
    parseEntries fuel rootText (applyExtensionSizes (collectOutcomes records).entries
      (collectOutcomes records).extensions) = some enumeration ∧
    (∀ id path, GivesPath (NtfsStreamState.enumerateOutcomes rootText fed).emittedDirectories id path ↔
      GivesPath enumeration.directories id path) ∧
    (NtfsStreamState.enumerateOutcomes rootText fed).intoSummary = enumeration.summary

structure AgreementCondition (rootText : String) (fed : List ParsedRecordOutcome) : Prop where
  distinct : DistinctRecords fed
  acyclic : DirectoriesAcyclic (recordGraph fed)
  rulesMeet : ∀ id info, cutGraph (recordGraph fed) id = some info → info.isDirectory = true →
    RulesMeet (cutGraph (recordGraph fed)) rootText id info
  cuts : CutsNameless (recordGraph fed)
  sizes : LateSizesCovered ParsedNtfsEntry.sizeBytes fed ∨
    maxValue ≤ ((knownFiles fed).map (fun entry ↦ entry.sizeBytes.toNat)).sum
  allocations : LateSizesCovered ParsedNtfsEntry.allocationBytes fed ∨
    maxValue ≤ ((knownFiles fed).map (fun entry ↦ entry.allocationBytes.toNat)).sum

section Agreement

variable {rootText : String} {fed records : List ParsedRecordOutcome}

theorem toNat_ofNat_countP (hlength : fed.length + 1 < 2 ^ 64) (hperm : fed.Perm records)
    (p : ParsedNtfsEntry → Bool) :
    (UInt64.ofNat ((batchEntries records).records.countP p)).toNat =
      (batchEntries records).records.countP p := by
  have hbound := length_batchEntries_le records
  have hcount := List.countP_le_length (p := p) (l := (batchEntries records).records)
  rw [← hperm.length_eq] at hbound
  rw [UInt64.toNat_ofNat']
  exact Nat.mod_eq_of_lt (by omega)

theorem fileCount_le (records : List ParsedRecordOutcome) : fileCount records ≤ records.length :=
  List.countP_le_length.trans (List.length_filterMap_le _ _)

theorem directoryCount_le (records : List ParsedRecordOutcome) :
    directoryCount records ≤ records.length :=
  List.countP_le_length.trans (List.length_filterMap_le _ _)

/-- The counts of the two summaries agree exactly when no number is used twice. -/
theorem summary_counts_iff (rootText : String) (hperm : fed.Perm records) (hlength : fed.length + 1 < 2 ^ 64) :
    ((NtfsStreamState.enumerateOutcomes rootText fed).filesSeen =
        .ofNat ((batchEntries records).records.countP (fun entry ↦ !entry.isDirectory)) ∧
      (NtfsStreamState.enumerateOutcomes rootText fed).directoriesSeen =
        .ofNat ((batchEntries records).records.countP (fun entry ↦ entry.isDirectory))) ↔
      DistinctRecords records := by
  have hmax : maxValue = 2 ^ 64 - 1 := rfl
  obtain ⟨hfiles, hdirectories⟩ := NtfsStreamState.toNat_counts_enumerateOutcomes rootText fed
  have hfilesLe := fileCount_le fed
  have hdirectoriesLe := directoryCount_le fed
  rw [Nat.min_eq_left (by omega)] at hfiles hdirectories
  have hentries : (entriesOf fed).Perm (entriesOf records) := hperm.filterMap _
  rw [← counts_eq_iff, ← UInt64.toNat_inj, ← UInt64.toNat_inj, hfiles, hdirectories,
    toNat_ofNat_countP hlength hperm, toNat_ofNat_countP hlength hperm, fileCount, fileCount,
    directoryCount, directoryCount, hentries.countP_eq, hentries.countP_eq]
  exact and_congr eq_comm eq_comm

/-- The paths of the two backends agree exactly when the rules meet everywhere once cycles through
files are cut, and no cut takes away a name. -/
theorem paths_agree_iff {fuel : ℕ} {enumeration : NtfsEnumeration} (hperm : fed.Perm records)
    (h : parseEntries fuel rootText (applyExtensionSizes (collectOutcomes records).entries
      (collectOutcomes records).extensions) = some enumeration)
    (hdistinct : DistinctRecords fed) (hacyclic : DirectoriesAcyclic (recordGraph fed)) :
    (∀ id path, GivesPath (NtfsStreamState.enumerateOutcomes rootText fed).emittedDirectories id path ↔
        GivesPath enumeration.directories id path) ↔
      (∀ id info, cutGraph (recordGraph fed) id = some info → info.isDirectory = true →
        RulesMeet (cutGraph (recordGraph fed)) rootText id info) ∧ CutsNameless (recordGraph fed) := by
  have hgraph := recordGraph_perm hperm hdistinct
  have hrecords := hdistinct.perm hperm
  have hdirectories := ends_directoryAbove_recordGraph hacyclic
  have hstream := NtfsStreamState.givesPath_enumerateOutcomes_iff rootText hdistinct hdirectories
  have hbatch := givesPath_parseEntries_iff h hrecords
  rw [← hgraph] at hbatch
  have hends : ∀ id, IsDirectory (cutGraph (recordGraph fed)) id →
      Ends (link (cutGraph (recordGraph fed))) id := by
    intro id hid
    rw [hgraph, ← hrecords.entryGraph_batchEntries] at hid ⊢
    exact ends_link_cutGraph hid
  have hnone : recordGraph fed ntfsRootRecord = none := if_pos rfl
  rw [← cut_rules_agree_iff hnone hdirectories hends]
  have hroot : ∀ path, ¬ BatchPath (cutGraph (recordGraph fed)) rootText ntfsRootRecord path := by
    intro path hpath
    obtain ⟨info, hinfo⟩ := hpath.exists_info
    rw [(cutGraph_eq_none_iff _).mpr hnone] at hinfo
    cases hinfo
  constructor
  · intro hagree id path other hpath hother
    have hgiven := (hagree id path).mp ((hstream id path).mpr (Or.inr hpath))
    rcases (hbatch id path).mp hgiven with ⟨rfl, -⟩ | ⟨-, hsame⟩
    · exact (hroot other hother).elim
    · exact hsame.unique hother
  · intro hrules id path
    rw [hstream, hbatch]
    refine or_congr_right ⟨fun hpath ↦ ?_, fun ⟨hdirectory, hpath⟩ ↦ ?_⟩
    · obtain ⟨info, hinfo, hdirectory⟩ := hpath.exists_info
      obtain ⟨cut, hcut, -, hkind⟩ := exists_cutGraph hinfo
      obtain ⟨other, hother⟩ :=
        exists_batchPath rootText (hends id ⟨cut, hcut, hkind.trans hdirectory⟩) hcut
      rw [hrules id path other hpath hother]
      exact ⟨⟨info, hinfo, hdirectory⟩, hother⟩
    · obtain ⟨info, hinfo, hkind⟩ := hdirectory
      obtain ⟨other, hother⟩ := exists_streamPath rootText (hdirectories id) hinfo hkind
      rwa [← hrules id other path hother hpath]

/-- The totals of the two summaries agree exactly when nothing comes too late. -/
theorem summary_totals_iff {fuel : ℕ} {enumeration : NtfsEnumeration} (hperm : fed.Perm records)
    (h : parseEntries fuel rootText (applyExtensionSizes (collectOutcomes records).entries
      (collectOutcomes records).extensions) = some enumeration)
    (hdistinct : DistinctRecords fed) :
    ((NtfsStreamState.enumerateOutcomes rootText fed).totalSizeBytes =
        enumeration.summary.totalSizeBytes ↔
      LateSizesCovered ParsedNtfsEntry.sizeBytes fed ∨
        maxValue ≤ ((knownFiles fed).map (fun entry ↦ entry.sizeBytes.toNat)).sum) ∧
    ((NtfsStreamState.enumerateOutcomes rootText fed).totalAllocationBytes =
        enumeration.summary.totalAllocationBytes ↔
      LateSizesCovered ParsedNtfsEntry.allocationBytes fed ∨
        maxValue ≤ ((knownFiles fed).map (fun entry ↦ entry.allocationBytes.toNat)).sum) := by
  obtain ⟨-, -, -, files, hfiles, hsize, hallocation⟩ := parseEntries_eq_some h
  obtain ⟨hknown, hknownAllocation⟩ :=
    NtfsStreamState.toNat_totals_enumerateOutcomes rootText hdistinct
  have hfull : files.Perm ((fullFiles fed).map ParsedNtfsEntry.toFileRecord) :=
    hfiles.trans (((hdistinct.perm hperm).files_perm.trans (fullFiles_perm hperm).symm).map _)
  constructor
  · rw [← min_sum_eq_iff withSizes_sizeBytes_le, ← UInt64.toNat_inj, hknown, hsize,
      toNat_sumSaturating_perm (hfull.map FileRecord.sizeBytes), List.map_map, List.map_map]
    rfl
  · rw [← min_sum_eq_iff withSizes_allocationBytes_le, ← UInt64.toNat_inj, hknownAllocation,
      hallocation, toNat_sumSaturating_perm (hfull.map FileRecord.allocationBytes), List.map_map,
      List.map_map]
    rfl

theorem AgreesWithBatch.distinct (hperm : fed.Perm records) (hlength : fed.length + 1 < 2 ^ 64)
    (h : AgreesWithBatch rootText fed records) : DistinctRecords fed := by
  obtain ⟨fuel, enumeration, hparse, -, hsummary⟩ := h
  obtain ⟨-, hfiles, hdirectories, -⟩ := parseEntries_eq_some hparse
  refine DistinctRecords.perm hperm.symm ((summary_counts_iff rootText hperm hlength).mp ⟨?_, ?_⟩)
  · exact (congrArg ScanSummary.filesSeen hsummary).trans hfiles
  · exact (congrArg ScanSummary.directoriesSeen hsummary).trans hdirectories

/-- Where the batch backend returns, no directory is above itself. -/
theorem AgreesWithBatch.acyclic (hperm : fed.Perm records) (hdistinct : DistinctRecords fed)
    (h : AgreesWithBatch rootText fed records) : DirectoriesAcyclic (recordGraph fed) := by
  obtain ⟨fuel, enumeration, hparse, -⟩ := h
  have hends := (parseEntries_ends_iff rootText (applyExtensionSizes
    (collectOutcomes records).entries (collectOutcomes records).extensions)).mp
      ⟨fuel, by rw [hparse]; rfl⟩
  rw [AcyclicEntries, ← directoryParent_withRootEntry] at hends
  have hacyclic : AcyclicEntries (batchEntries records) := hends
  rwa [acyclicEntries_iff, (hdistinct.perm hperm).entryGraph_batchEntries,
    ← recordGraph_perm hperm hdistinct] at hacyclic

/-- Agreement forces the rules to meet. -/
theorem AgreesWithBatch.condition (hperm : fed.Perm records) (hlength : fed.length + 1 < 2 ^ 64)
    (h : AgreesWithBatch rootText fed records) : AgreementCondition rootText fed := by
  have hdistinct := h.distinct hperm hlength
  have hacyclic := h.acyclic hperm hdistinct
  obtain ⟨fuel, enumeration, hparse, hpaths, hsummary⟩ := h
  obtain ⟨hsizes, hallocations⟩ := summary_totals_iff hperm hparse hdistinct
  obtain ⟨hrules, hcuts⟩ := (paths_agree_iff hperm hparse hdistinct hacyclic).mp hpaths
  refine ⟨hdistinct, hacyclic, hrules, hcuts, ?_, ?_⟩
  · exact hsizes.mp (congrArg ScanSummary.totalSizeBytes hsummary)
  · exact hallocations.mp (congrArg ScanSummary.totalAllocationBytes hsummary)

theorem agreesWithBatch_iff (rootText : String) {fed records : List ParsedRecordOutcome}
    (hperm : fed.Perm records) (hlength : fed.length + 1 < 2 ^ 64) :
    AgreesWithBatch rootText fed records ↔ AgreementCondition rootText fed := by
  constructor
  · exact AgreesWithBatch.condition hperm hlength
  · intro h
    have hrecords := h.distinct.perm hperm
    have hacyclic : AcyclicEntries (batchEntries records) := by
      rw [acyclicEntries_iff, hrecords.entryGraph_batchEntries,
        ← recordGraph_perm hperm h.distinct]
      exact h.acyclic
    rw [AcyclicEntries, batchEntries, directoryParent_withRootEntry] at hacyclic
    obtain ⟨fuel, hfuel⟩ := (parseEntries_ends_iff rootText _).mpr hacyclic
    obtain ⟨enumeration, hparse⟩ := Option.isSome_iff_exists.mp hfuel
    refine ⟨fuel, enumeration, hparse, ?_, ?_⟩
    · exact (paths_agree_iff hperm hparse h.distinct h.acyclic).mpr ⟨h.rulesMeet, h.cuts⟩
    · obtain ⟨-, hfilesSeen, hdirectoriesSeen, -⟩ := parseEntries_eq_some hparse
      obtain ⟨hsizes, hallocations⟩ := summary_totals_iff hperm hparse h.distinct
      obtain ⟨hfilesAgree, hdirectoriesAgree⟩ :=
        (summary_counts_iff rootText hperm hlength).mpr hrecords
      have hsummary : ∀ s t : ScanSummary, s.filesSeen = t.filesSeen →
          s.directoriesSeen = t.directoriesSeen → s.totalSizeBytes = t.totalSizeBytes →
            s.totalAllocationBytes = t.totalAllocationBytes → s = t := by
        rintro ⟨⟩ ⟨⟩ rfl rfl rfl rfl
        rfl
      apply hsummary
      · exact hfilesAgree.trans hfilesSeen.symm
      · exact hdirectoriesAgree.trans hdirectoriesSeen.symm
      · exact hsizes.mpr h.sizes
      · exact hallocations.mpr h.allocations

end Agreement

open NtfsStreamState in
/-- A directory behind its parent, a file with an earlier extension, and the parent. -/
def sampleFed : List ParsedRecordOutcome :=
  [.entry (sampleDirectory 20 (some 10) "child"), .extension ⟨40, 700, 800⟩,
    .entry { sampleDirectory 40 (some 20) "file" with isDirectory := false },
    .entry (sampleDirectory 10 (some 5) "top")]

theorem agreesWithBatch_sampleFed :
    AgreesWithBatch "C:\\" sampleFed sampleFed.reverse ↔ AgreementCondition "C:\\" sampleFed :=
  agreesWithBatch_iff "C:\\" (List.reverse_perm sampleFed).symm (by decide)

/-- A directory whose parent's record is missing. -/
def orphanRecord : List ParsedRecordOutcome :=
  [.entry (NtfsStreamState.sampleDirectory 30 (some 99) "orphan")]

/-- The streaming backend puts it under the root, the batch backend gives it the
root's own path. -/
theorem orphanRecord_paths_differ :
    GivesPath (NtfsStreamState.enumerateOutcomes "C:\\" orphanRecord).emittedDirectories 30
        "C:\\orphan" ∧
      ¬ AgreesWithBatch "C:\\" orphanRecord orphanRecord := by
  have hinfo : recordGraph orphanRecord 30 = some ⟨some 99, "orphan", true⟩ := by decide
  have hnone : recordGraph orphanRecord 99 = none := by decide
  constructor
  · have hdistinct : DistinctRecords orphanRecord := by decide
    have hends : ∀ id, Ends (directoryAbove (recordGraph orphanRecord)) id := by
      intro id
      cases habove : directoryAbove (recordGraph orphanRecord) id with
      | none => exact ends_of_none habove
      | some parent =>
          obtain ⟨info, h, -⟩ := Option.bind_eq_some_iff.mp habove
          have hmem := exists_entry_of_recordGraph h
          obtain rfl := List.mem_singleton.mp hmem
          exact ⟨2, by decide⟩
    refine (NtfsStreamState.givesPath_enumerateOutcomes_iff "C:\\" hdistinct hends 30 _).mpr
      (Or.inr ?_)
    exact .top hinfo rfl fun parent above habove _ hfound ↦ by
      cases habove
      rw [hnone] at hfound
      cases hfound
  · intro h
    have hcut : ¬ CutOff (recordGraph orphanRecord) 30 := by
      rintro ⟨first, -, hback, -⟩
      exact hback.onCycle.not_ends ⟨2, by decide⟩
    have hmeet := (h.condition (List.Perm.refl _) (by decide)).rulesMeet 30 _
      ((cutGraph_of_not hcut).trans hinfo) rfl
    unfold RulesMeet at hmeet
    dsimp only [EntryInfo.above, Option.filter_some] at hmeet
    simp [(cutGraph_eq_none_iff 99).mpr hnone, ntfsRootRecord] at hmeet

end Ntfs

end WinBlaze
