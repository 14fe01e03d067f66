import WinBlaze.Scanner.Ntfs.Agreement

/-!
# Every order of entries and extensions

A file is emitted again when an extension corrects its sizes. Where every file
with extensions has an attribute list, the last record of each file and the
summary do not depend on the order in which records arrive, and are those of
the batch backend.
-/

namespace WinBlaze

namespace Ntfs

open Saturating

/-- The record a reader keeps that replaces records by id. -/
def lastFile (files : List FileRecord) (id : FileId) : Option FileRecord :=
  files.reverse.find? (fun file ↦ file.id = id)

/-- Every file entry that is the base of an extension has an attribute list. -/
def BasesListed (records : List ParsedRecordOutcome) : Prop :=
  ∀ entry ∈ fileEntries records, ∀ extension ∈ extensionsOf records,
    extension.baseRecord = entry.fileId.val → entry.hasAttributeList = true

theorem lastFile_concat (files : List FileRecord) (file : FileRecord) (id : FileId) :
    lastFile (files ++ [file]) id = if file.id = id then some file else lastFile files id := by
  unfold lastFile
  by_cases h : file.id = id <;> simp [h]

namespace NtfsStreamState

/-- The last record of every file is that of the known file. -/
def EmitsLast (fed : List ParsedRecordOutcome) (state : NtfsStreamState) : Prop :=
  ∀ id file, lastFile state.emittedFiles id = some file ↔
    ∃ entry ∈ knownFiles fed, entry.fileId = id ∧ entry.toFileRecord = file

section Step

variable {fed : List ParsedRecordOutcome} {state : NtfsStreamState}

theorem EmitsLast.frame {next : NtfsStreamState} {more : List ParsedRecordOutcome}
    (h : EmitsLast fed state) (hknown : knownFiles more = knownFiles fed)
    (hemitted : next.emittedFiles = state.emittedFiles) : EmitsLast more next := by
  intro id file
  rw [hemitted, hknown]
  exact h id file

/-- A file emitted for the first time. -/
theorem EmitsLast.emitFile (h : EmitsLast fed state) {next : NtfsStreamState}
    (entry : ParsedNtfsEntry) (hfresh : ∀ known ∈ knownFiles fed, known.fileId ≠ entry.fileId)
    {more : List ParsedRecordOutcome} (hknown : knownFiles more = knownFiles fed ++ [entry])
    (hemitted : next.emittedFiles = state.emittedFiles ++ [entry.toFileRecord]) :
    EmitsLast more next := by
  intro id file
  have hid : entry.toFileRecord.id = entry.fileId := rfl
  rw [hemitted, lastFile_concat, hknown, hid]
  split
  case isTrue hsame =>
    simp only [List.mem_append, List.mem_singleton, Option.some.injEq]
    constructor
    · intro hfile
      exact ⟨entry, Or.inr rfl, hsame, hfile⟩
    · rintro ⟨known, hmem | rfl, hknownId, hfile⟩
      · exact (hfresh known hmem (hknownId.trans hsame.symm)).elim
      · exact hfile
  case isFalse hother =>
    rw [h id file]
    simp only [List.mem_append, List.mem_singleton]
    constructor
    · rintro ⟨known, hmem, hrest⟩
      exact ⟨known, Or.inl hmem, hrest⟩
    · rintro ⟨known, hmem | rfl, hknownId, hfile⟩
      · exact ⟨known, hmem, hknownId, hfile⟩
      · exact (hother hknownId).elim

/-- A known file emitted again. -/
theorem EmitsLast.growFile (h : EmitsLast fed state) {extension : ExtensionSizes}
    (hdistinct : DistinctRecords fed) {entry : ParsedNtfsEntry} (hmem : entry ∈ knownFiles fed)
    (hlist : entry.hasAttributeList = true) (hbase : extension.baseRecord = entry.fileId.val) :
    EmitsLast (fed ++ [.extension extension])
      (state.growFile entry (entry.withSizes extension)) := by
  have hnodup := hdistinct.nodup_knownFiles
  have hgrown : ∀ known, known ∈ knownFiles (fed ++ [.extension extension]) ↔
      known = entry.withSizes extension ∨ known ∈ knownFiles fed ∧ known.fileId ≠ entry.fileId := by
    intro known
    simp only [knownFiles_concat_extension, List.mem_map, learn_extension]
    constructor
    · rintro ⟨other, hother, rfl⟩
      by_cases hsame : other.fileId = entry.fileId
      · have heq : other = entry :=
          List.inj_on_of_nodup_map hnodup hother hmem (congrArg FileId.val hsame)
        left
        rw [heq, if_pos ⟨hlist, hbase⟩]
      · have hne : ¬ (other.hasAttributeList = true ∧ extension.baseRecord = other.fileId.val) :=
          fun hgrows ↦ hsame (FileId.val_injective (hgrows.2.symm.trans hbase))
        right
        rw [if_neg hne]
        exact ⟨hother, hsame⟩
    · rintro (rfl | ⟨hother, hne⟩)
      · exact ⟨entry, hmem, if_pos ⟨hlist, hbase⟩⟩
      · refine ⟨known, hother, if_neg fun hgrows ↦ hne ?_⟩
        exact FileId.val_injective (hgrows.2.symm.trans hbase)
  have hemitted : (state.growFile entry (entry.withSizes extension)).emittedFiles =
      state.emittedFiles ++ [(entry.withSizes extension).toFileRecord] := List.filterMap_append
  intro id file
  have hid : (entry.withSizes extension).toFileRecord.id = entry.fileId := rfl
  rw [hemitted, lastFile_concat, hid]
  simp only [hgrown]
  split
  case isTrue hsame =>
    rw [Option.some.injEq]
    constructor
    · intro hfile
      exact ⟨_, Or.inl rfl, hsame, hfile⟩
    · rintro ⟨known, rfl | ⟨-, hne⟩, hknownId, hfile⟩
      · exact hfile
      · exact (hne (hknownId.trans hsame.symm)).elim
  case isFalse hother =>
    rw [h id file]
    constructor
    · rintro ⟨known, hknown, hknownId, hfile⟩
      exact ⟨known, Or.inr ⟨hknown, fun hsame ↦ hother (hsame.symm.trans hknownId)⟩, hknownId, hfile⟩
    · rintro ⟨known, rfl | ⟨hknown, -⟩, hknownId, hfile⟩
      · exact (hother hknownId).elim
      · exact ⟨known, hknown, hknownId, hfile⟩

theorem EmitsLast.ingestEntry (h : EmitsLast fed state) (htallied : Tallied fed state)
    {entry : ParsedNtfsEntry} (hdistinct : DistinctRecords (fed ++ [.entry entry])) :
    EmitsLast (fed ++ [.entry entry]) (state.ingestEntry entry) := by
  have hemitted := (emittedFiles_ingestSized { state with
    pendingExtensions := state.pendingExtensions.remove entry.fileId.val } (state.pendingEntry entry)).2
  have hkind : (state.pendingEntry entry).isDirectory = entry.isDirectory :=
    congrArg (fun key ↦ key.2.isDirectory) (entryKey_pendingEntry state entry)
  cases hdirectory : entry.isDirectory with
  | true =>
      refine h.frame ?_ (hemitted.trans ?_)
      · simp [knownFiles_concat_entry, hdirectory]
      · simp only [hkind, hdirectory, List.filter_cons, List.filter_nil, Bool.not_true]
        exact List.append_nil _
  | false =>
      obtain ⟨hroot, hfresh⟩ := hdistinct.fresh hdirectory
      have hpending := htallied.pending entry hroot hfresh
      have hid : (state.pendingEntry entry).fileId = entry.fileId := by
        rw [hpending, growBy_fileId]
      refine h.emitFile (state.pendingEntry entry) (fun known hmem hsame ↦ ?_) ?_
        (hemitted.trans ?_)
      · apply hfresh
        rw [← hid, ← hsame]
        exact mem_entries_of_mem_knownFiles hmem
      · simp [knownFiles_concat_entry, hdirectory, hpending]
      · simp only [hkind, hdirectory, List.filter_cons, List.filter_nil, Bool.not_false, if_true]
        rfl

theorem EmitsLast.ingestExtension (h : EmitsLast fed state) (htallied : Tallied fed state)
    (hdistinct : DistinctRecords fed) (extension : ExtensionSizes) :
    EmitsLast (fed ++ [.extension extension]) (state.ingestExtension extension) := by
  have hunchanged : (∀ entry ∈ knownFiles fed, entry.hasAttributeList = true →
      extension.baseRecord = entry.fileId.val → entry.withSizes extension = entry) →
        EmitsLast (fed ++ [.extension extension]) state := by
    intro hsame
    refine h.frame ?_ rfl
    rw [knownFiles_concat_extension]
    exact map_learn_eq_self hsame
  have hmissing : state.retainedFiles.get? extension.baseRecord = none →
      EmitsLast (fed ++ [.extension extension]) state := by
    intro hnone
    refine hunchanged fun entry hmem hlist hbase ↦ ?_
    rw [(htallied.retained _ entry).mpr ⟨hmem, hlist, hbase.symm⟩] at hnone
    cases hnone
  obtain ⟨entry, hretained, ⟨hsame, hnext⟩ | hnext⟩ | ⟨hnone, -, hnext⟩ | ⟨hnone, -, hnext⟩ :=
    ingestExtension_cases state extension
  · obtain ⟨hmem, -, hid⟩ := (htallied.retained _ entry).mp hretained
    rw [hnext]
    refine hunchanged fun other hother _ hbase ↦ ?_
    have heq : other = entry := List.inj_on_of_nodup_map hdistinct.nodup_knownFiles hother hmem
      (hbase.symm.trans hid.symm)
    rw [heq, hsame]
  · obtain ⟨hmem, hlist, hid⟩ := (htallied.retained _ entry).mp hretained
    rw [hnext]
    exact h.growFile hdistinct hmem hlist hid.symm
  · rw [hnext]
    exact hmissing hnone
  · rw [hnext]
    exact (hmissing hnone).frame rfl rfl

end Step

theorem EmitsLast.foldl {rootText : String} {fed : List ParsedRecordOutcome} {state : NtfsStreamState}
    (h : EmitsLast fed state) (htallied : Tallied fed state) (hfed : Fed rootText fed state)
    (rest : List ParsedRecordOutcome) (hdistinct : DistinctRecords (fed ++ rest)) :
    EmitsLast (fed ++ rest) (rest.foldl NtfsStreamState.ingestOutcome state) := by
  induction rest generalizing fed state with
  | nil => rwa [List.append_nil]
  | cons outcome rest ih =>
      rw [← List.singleton_append, ← List.append_assoc] at hdistinct ⊢
      rw [List.singleton_append, List.foldl_cons]
      have hstep := hdistinct.of_append
      refine ih ?_ (htallied.foldl hfed [outcome] hstep) (hfed.ingestOutcome outcome) hdistinct
      cases outcome with
      | none => exact h.frame (knownFiles_concat_none fed) rfl
      | entry entry => exact h.ingestEntry htallied hstep
      | extension extension => exact h.ingestExtension htallied hstep.of_append extension

theorem emitsLast_emitRoot (rootText : String) :
    EmitsLast [] (emitRoot { rootText := rootText }) := by
  intro id file
  have hnone : (emitRoot { rootText := rootText }).emittedFiles = [] := rfl
  rw [hnone]
  simp [lastFile, knownFiles, knownFilesFrom]

theorem emitsLast_enumerateOutcomes (rootText : String) {fed : List ParsedRecordOutcome}
    (hdistinct : DistinctRecords fed) : EmitsLast fed (enumerateOutcomes rootText fed) := by
  have hrun := (emitsLast_emitRoot rootText).foldl (tallied_emitRoot rootText)
    (fed_emitRoot rootText) fed hdistinct
  rw [List.nil_append] at hrun
  exact hrun.frame rfl (sameFiles_finish _).emitted

end NtfsStreamState

/-! ## The batch backend -/

/-- Where every base is listed, all sizes of a file are known in the end. -/
theorem knownFilesFrom_eq_map (before : List ExtensionSizes) {fed : List ParsedRecordOutcome}
    (h : ∀ entry ∈ fileEntries fed, ∀ extension ∈ before ++ extensionsOf fed,
      extension.baseRecord = entry.fileId.val → entry.hasAttributeList = true) :
    knownFilesFrom before fed = (fileEntries fed).map (fun entry ↦
      growBy (extensionsFor entry.fileId.val (before ++ extensionsOf fed)) entry) := by
  induction fed generalizing before with
  | nil => rfl
  | cons outcome rest ih =>
      cases outcome with
      | none => exact ih before h
      | extension extension =>
          have hextensions : before ++ extensionsOf (.extension extension :: rest) =
              before ++ [extension] ++ extensionsOf rest := by
            rw [List.append_assoc]
            rfl
          rw [hextensions] at h ⊢
          exact ih _ h
      | entry entry =>
          have hextensions : extensionsOf (.entry entry :: rest) = extensionsOf rest := rfl
          rw [hextensions] at h ⊢
          cases hdirectory : entry.isDirectory with
          | true =>
              have hfiles : fileEntries (.entry entry :: rest) = fileEntries rest := by
                simp [fileEntries, entriesOf, ParsedRecordOutcome.entry?, hdirectory]
              rw [hfiles] at h ⊢
              rw [knownFilesFrom, if_pos hdirectory, ih before h]
          | false =>
              have hfiles : fileEntries (.entry entry :: rest) = entry :: fileEntries rest := by
                simp [fileEntries, entriesOf, ParsedRecordOutcome.entry?, hdirectory]
              rw [hfiles] at h ⊢
              rw [knownFilesFrom, hdirectory, if_neg Bool.false_ne_true, List.map_cons,
                ih before fun other hother ↦ h other (List.mem_cons_of_mem entry hother)]
              refine congrArg (growBy · entry :: _) ?_
              cases hlist : entry.hasAttributeList with
              | true => rfl
              | false =>
                  have hnone : extensionsFor entry.fileId.val (before ++ extensionsOf rest) = [] := by
                    apply List.filter_eq_nil_iff.mpr
                    intro extension hextension hbase
                    have hlisted := h entry List.mem_cons_self extension hextension
                      (of_decide_eq_true hbase)
                    rw [hlist] at hlisted
                    cases hlisted
                  rw [extensionsFor_append, List.append_eq_nil_iff] at hnone
                  simp [extensionsFor_append, hnone]

section Orders

variable {rootText : String} {records fed other : List ParsedRecordOutcome}

theorem BasesListed.perm (h : BasesListed records) (hperm : fed.Perm records) : BasesListed fed := by
  intro entry hentry extension hextension
  have hentries : (fileEntries fed).Perm (fileEntries records) := (hperm.filterMap _).filter _
  have hextensions : (extensionsOf fed).Perm (extensionsOf records) := hperm.filterMap _
  exact h entry (hentries.mem_iff.mp hentry) extension (hextensions.mem_iff.mp hextension)

theorem BasesListed.knownFiles_eq (h : BasesListed fed) : knownFiles fed = fullFiles fed :=
  knownFilesFrom_eq_map [] h

theorem lastFile_eq_some_iff {files : List FileRecord} (hids : (files.map FileRecord.id).Nodup)
    (id : FileId) (file : FileRecord) :
    lastFile files id = some file ↔ file ∈ files ∧ file.id = id := by
  unfold lastFile
  constructor
  · intro hfind
    exact ⟨List.mem_reverse.mp (List.mem_of_find?_eq_some hfind), by simpa using List.find?_some hfind⟩
  · rintro ⟨hmem, hid⟩
    cases hfind : files.reverse.find? (fun file ↦ file.id = id) with
    | none =>
        have hnot := List.find?_eq_none.mp hfind file (List.mem_reverse.mpr hmem)
        exact (hnot (decide_eq_true hid)).elim
    | some found =>
        have hfound := List.mem_reverse.mp (List.mem_of_find?_eq_some hfind)
        have hfoundId : found.id = id := by simpa using List.find?_some hfind
        exact congrArg some (List.inj_on_of_nodup_map hids hfound hmem (hfoundId.trans hid.symm))

/-- The last records read off the files with all their sizes. -/
theorem lastFile_emittedFiles (hdistinct : DistinctRecords records) (hlisted : BasesListed records)
    (hperm : fed.Perm records) (id : FileId) (file : FileRecord) :
    lastFile (NtfsStreamState.enumerateOutcomes rootText fed).emittedFiles id = some file ↔
      file ∈ (fullFiles records).map ParsedNtfsEntry.toFileRecord ∧ file.id = id := by
  have hemits := NtfsStreamState.emitsLast_enumerateOutcomes rootText (hdistinct.perm hperm.symm)
  rw [hemits id file, (hlisted.perm hperm).knownFiles_eq, List.mem_map]
  have hfull : ∀ entry, entry ∈ fullFiles fed ↔ entry ∈ fullFiles records := fun entry ↦
    (fullFiles_perm hperm).mem_iff
  simp only [hfull]
  constructor
  · rintro ⟨entry, hmem, rfl, rfl⟩
    exact ⟨⟨entry, hmem, rfl⟩, rfl⟩
  · rintro ⟨⟨entry, hmem, rfl⟩, rfl⟩
    exact ⟨entry, hmem, rfl, rfl⟩

theorem lastFile_of_perm (hdistinct : DistinctRecords records) {files : List FileRecord}
    (hfiles : files.Perm ((fullFiles records).map ParsedNtfsEntry.toFileRecord)) (id : FileId)
    (file : FileRecord) :
    lastFile files id = some file ↔
      file ∈ (fullFiles records).map ParsedNtfsEntry.toFileRecord ∧ file.id = id := by
  have hids : (files.map FileRecord.id).Nodup := by
    apply ((hfiles.map FileRecord.id).nodup_iff).mpr
    have hfileIds : ((fileEntries records).map (fun entry ↦ entry.fileId.val)).Nodup := by
      rw [← knownFilesFrom_fileId []]
      exact hdistinct.nodup_knownFiles
    rw [fullFiles, List.map_map, List.map_map]
    apply List.Nodup.of_map FileId.val
    rw [List.map_map]
    convert hfileIds using 2
    funext entry
    simp [fullyGrown, ParsedNtfsEntry.toFileRecord]
  rw [lastFile_eq_some_iff hids, hfiles.mem_iff]

theorem summary_eq {first second : ScanSummary} (hfiles : first.filesSeen = second.filesSeen)
    (hdirectories : first.directoriesSeen = second.directoriesSeen)
    (hsize : first.totalSizeBytes = second.totalSizeBytes)
    (hallocation : first.totalAllocationBytes = second.totalAllocationBytes) : first = second := by
  cases first
  cases second
  simp_all

/-- In every order the streaming backend ends with the same files and summary. -/
theorem intoSummary_perm (hdistinct : DistinctRecords records) (hlisted : BasesListed records)
    (hfed : fed.Perm records) (hother : other.Perm records) :
    (NtfsStreamState.enumerateOutcomes rootText fed).intoSummary =
      (NtfsStreamState.enumerateOutcomes rootText other).intoSummary := by
  have hperm : fed.Perm other := hfed.trans hother.symm
  have hentries : (entriesOf fed).Perm (entriesOf other) := hperm.filterMap _
  obtain ⟨hfiles, hdirectories⟩ := NtfsStreamState.toNat_counts_enumerateOutcomes rootText fed
  obtain ⟨hfiles', hdirectories'⟩ := NtfsStreamState.toNat_counts_enumerateOutcomes rootText other
  obtain ⟨hsize, hallocation⟩ := NtfsStreamState.toNat_totals_enumerateOutcomes rootText
    (hdistinct.perm hfed.symm)
  obtain ⟨hsize', hallocation'⟩ := NtfsStreamState.toNat_totals_enumerateOutcomes rootText
    (hdistinct.perm hother.symm)
  rw [(hlisted.perm hfed).knownFiles_eq] at hsize hallocation
  rw [(hlisted.perm hother).knownFiles_eq] at hsize' hallocation'
  have hfull := fullFiles_perm hperm
  apply summary_eq
  · apply UInt64.toNat_inj.mp
    exact hfiles.trans (Eq.trans (by rw [fileCount, fileCount, hentries.countP_eq]) hfiles'.symm)
  · apply UInt64.toNat_inj.mp
    exact hdirectories.trans
      (Eq.trans (by rw [directoryCount, directoryCount, hentries.countP_eq]) hdirectories'.symm)
  · apply UInt64.toNat_inj.mp
    exact hsize.trans (Eq.trans (by rw [(hfull.map _).sum_eq]) hsize'.symm)
  · apply UInt64.toNat_inj.mp
    exact hallocation.trans (Eq.trans (by rw [(hfull.map _).sum_eq]) hallocation'.symm)

/-- In every order the streaming backend ends with the summary of the batch backend. -/
theorem intoSummary_eq_batch {fuel : ℕ} {enumeration : NtfsEnumeration}
    (hdistinct : DistinctRecords records) (hlisted : BasesListed records)
    (hlength : records.length + 1 < 2 ^ 64) (hfed : fed.Perm records)
    (h : parseEntries fuel rootText (applyExtensionSizes (collectOutcomes records).entries
      (collectOutcomes records).extensions) = some enumeration) :
    (NtfsStreamState.enumerateOutcomes rootText fed).intoSummary = enumeration.summary := by
  obtain ⟨-, hfiles, hdirectories, -⟩ := parseEntries_eq_some h
  obtain ⟨hsizes, hallocations⟩ := summary_totals_iff hfed h (hdistinct.perm hfed.symm)
  obtain ⟨hfilesAgree, hdirectoriesAgree⟩ := (summary_counts_iff rootText hfed
    (by rwa [hfed.length_eq])).mpr hdistinct
  have hknown := (hlisted.perm hfed).knownFiles_eq
  apply summary_eq
  · exact hfilesAgree.trans hfiles.symm
  · exact hdirectoriesAgree.trans hdirectories.symm
  · exact hsizes.mpr ((min_sum_eq_iff withSizes_sizeBytes_le fed).mp (by rw [hknown]))
  · exact hallocations.mpr ((min_sum_eq_iff withSizes_allocationBytes_le fed).mp (by rw [hknown]))

/-- The file records the batch backend hands to its callback. -/
theorem DistinctRecords.files_visitEntries_perm (h : DistinctRecords records) (rootText : String) :
    (visitEntries rootText (batchEntries records)).files.Perm
      ((fullFiles records).map ParsedNtfsEntry.toFileRecord) := by
  rw [visitEntries, files_foldl_visitEntry, List.nil_append]
  apply List.Perm.map
  exact ((KeyOrder.sortByKey_perm _ _).filter _).trans h.files_perm

/-- The streaming backend ends with the same files and summary in every order,
and they are those of the batch backend, which returns where no directory is
above itself. -/
theorem interleavings_agree (rootText : String) (hdistinct : DistinctRecords records)
    (hlisted : BasesListed records) (hlength : records.length + 1 < 2 ^ 64) (hfed : fed.Perm records)
    (hother : other.Perm records) :
    ((∀ id, lastFile (NtfsStreamState.enumerateOutcomes rootText fed).emittedFiles id =
        lastFile (NtfsStreamState.enumerateOutcomes rootText other).emittedFiles id) ∧
      (NtfsStreamState.enumerateOutcomes rootText fed).intoSummary =
        (NtfsStreamState.enumerateOutcomes rootText other).intoSummary) ∧
    (∀ id, lastFile (NtfsStreamState.enumerateOutcomes rootText fed).emittedFiles id =
      lastFile (visitEntries rootText (batchEntries records)).files id) ∧
    (∀ fuel enumeration, parseEntries fuel rootText (applyExtensionSizes
        (collectOutcomes records).entries (collectOutcomes records).extensions) = some enumeration →
      (∀ id, lastFile (NtfsStreamState.enumerateOutcomes rootText fed).emittedFiles id =
        lastFile enumeration.files id) ∧
      (NtfsStreamState.enumerateOutcomes rootText fed).intoSummary = enumeration.summary) ∧
    (DirectoriesAcyclic (recordGraph records) → ∃ fuel enumeration, parseEntries fuel rootText
      (applyExtensionSizes (collectOutcomes records).entries (collectOutcomes records).extensions) =
        some enumeration) := by
  have hstream : ∀ order : List ParsedRecordOutcome, order.Perm records → ∀ {files : List FileRecord},
      files.Perm ((fullFiles records).map ParsedNtfsEntry.toFileRecord) → ∀ id,
        lastFile (NtfsStreamState.enumerateOutcomes rootText order).emittedFiles id =
          lastFile files id := by
    intro order horder files hfiles id
    apply Option.ext
    intro file
    rw [lastFile_emittedFiles hdistinct hlisted horder, lastFile_of_perm hdistinct hfiles]
  have hvisited := hdistinct.files_visitEntries_perm rootText
  refine ⟨⟨fun id ↦ ?_, intoSummary_perm hdistinct hlisted hfed hother⟩, hstream fed hfed hvisited,
    fun fuel enumeration hparse ↦ ⟨?_, intoSummary_eq_batch hdistinct hlisted hlength hfed hparse⟩,
    fun hacyclic ↦ ?_⟩
  · exact (hstream fed hfed hvisited id).trans (hstream other hother hvisited id).symm
  · obtain ⟨directories, -, rfl⟩ := Option.map_eq_some_iff.mp hparse
    exact hstream fed hfed ((KeyOrder.sortByKey_perm _ _).trans hvisited)
  · have hentries : AcyclicEntries (batchEntries records) := by
      rw [acyclicEntries_iff, hdistinct.entryGraph_batchEntries]
      exact hacyclic
    rw [AcyclicEntries, batchEntries, directoryParent_withRootEntry] at hentries
    obtain ⟨fuel, hfuel⟩ := (parseEntries_ends_iff rootText _).mpr hentries
    obtain ⟨enumeration, hparse⟩ := Option.isSome_iff_exists.mp hfuel
    exact ⟨fuel, enumeration, hparse⟩

end Orders

open NtfsStreamState in
/-- A file between two of its extensions, and its directory. -/
def sampleOrder : List ParsedRecordOutcome :=
  [.extension ⟨40, 700, 800⟩,
    .entry { sampleDirectory 40 (some 20) "file" with isDirectory := false, hasAttributeList := true },
    .extension ⟨40, 900, 100⟩, .entry (sampleDirectory 20 (some 5) "top")]

theorem interleavings_agree_sampleOrder :
    (∀ id, lastFile (NtfsStreamState.enumerateOutcomes "C:\\" sampleOrder).emittedFiles id =
        lastFile (NtfsStreamState.enumerateOutcomes "C:\\" sampleOrder.reverse).emittedFiles id) ∧
      (NtfsStreamState.enumerateOutcomes "C:\\" sampleOrder).intoSummary =
        (NtfsStreamState.enumerateOutcomes "C:\\" sampleOrder.reverse).intoSummary :=
  (interleavings_agree "C:\\" (by decide) (by unfold BasesListed; decide) (by decide)
    (List.Perm.refl sampleOrder) (List.reverse_perm sampleOrder)).1

end Ntfs

end WinBlaze
