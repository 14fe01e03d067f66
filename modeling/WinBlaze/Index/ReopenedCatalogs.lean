import WinBlaze.Index.ReopenedTrees

/-!
# Exported catalogs are opened again

The texts in columns separated by commas or tabs, and the one with further columns,
are read as trees of the same directories, totals and files.
-/

namespace WinBlaze

namespace CatalogText

open Attempts

/-! ## Lower case -/

section Backslash

variable {unicode : UnicodeCase} (hcased : unicode.cased '\\' = false)
  (hignorable : unicode.caseIgnorable '\\' = false)

include hcased hignorable

theorem caseIgnorableThenCased_append (text rest : List Char) :
    unicode.caseIgnorableThenCased (text ++ '\\' :: rest) = unicode.caseIgnorableThenCased text := by
  induction text with
  | nil => simp [UnicodeCase.caseIgnorableThenCased, hcased, hignorable]
  | cons c after ih =>
      cases hc : unicode.caseIgnorable c with
      | true => simpa [UnicodeCase.caseIgnorableThenCased, hc] using ih
      | false => simp [UnicodeCase.caseIgnorableThenCased, hc]

/-- What was passed before a backslash does not matter. -/
theorem lowerFrom_passed (before passed text : List Char) :
    unicode.lowerFrom (before ++ '\\' :: passed) text = unicode.lowerFrom before text := by
  induction text generalizing before with
  | nil => rfl
  | cons c after ih =>
      have hrest := ih (c :: before)
      rw [List.cons_append] at hrest
      rw [UnicodeCase.lowerFrom, UnicodeCase.lowerFrom, hrest, UnicodeCase.mapUppercaseSigma,
        caseIgnorableThenCased_append hcased hignorable]
      rfl

theorem lowerFrom_append (before front rest : List Char) :
    unicode.lowerFrom before (front ++ '\\' :: rest) =
      unicode.lowerFrom before front ++ '\\' :: unicode.lowerFrom [] rest := by
  induction front generalizing before with
  | nil =>
      calc
        unicode.lowerFrom before ('\\' :: rest) =
            unicode.lower '\\' ++ unicode.lowerFrom ('\\' :: before) rest := by
          rw [UnicodeCase.lowerFrom, if_neg (by decide)]
        _ = '\\' :: unicode.lowerFrom ('\\' :: before) rest := by
          rw [unicode.lower_ascii _ (by decide)]
          rfl
        _ = '\\' :: unicode.lowerFrom [] rest :=
          congrArg _ (lowerFrom_passed hcased hignorable [] before rest)
  | cons c after ih =>
      rw [List.cons_append, UnicodeCase.lowerFrom, UnicodeCase.lowerFrom, ih, UnicodeCase.mapUppercaseSigma,
        caseIgnorableThenCased_append hcased hignorable, List.append_assoc]
      rfl

theorem splitsPaths_toLowercase : SplitsPaths unicode.toLowercase :=
  lowerFrom_append hcased hignorable []

end Backslash

/-! ## Totals -/

section Catalogs

variable {toLowercase : List Char → List Char} {tree : TreeIndex} {root : DirectoryRecord}
  (h : Exportable toLowercase tree root) {plan : ImportPlan} (hplan : Mirrors tree root plan)

include h hplan

/-- The totals that were written are those of the tree that is read. -/
theorem Exportable.checkTotals_eq {read : TreeIndex} (hrecords : RecordsOf plan.layout read.directories)
    (hreopens : Reopens tree read) {row : Row} (hrow : row ∈ exportedRows tree) :
    checkTotals read plan.layout.directories row = .ok () := by
  rcases h.mem_exportedRows hrow with ⟨directory, hmem, rfl⟩ | ⟨file, -, rfl⟩
  · obtain ⟨id, hid⟩ := h.exists_number hplan hmem
    obtain ⟨same, hsame, rfl, hrecord⟩ := hrecords.record _ id hid
    obtain ⟨first, second, hfirst, hsecond, htotals⟩ :=
      hreopens.totals directory hmem same hsame (h.directoryKey_record hplan hrecord).1
    have hwritten : totalsOf tree directory = first := by rw [totalsOf, hfirst, Option.getD_some]
    have hdirectory : isDirectory (directoryRow tree directory) = true := rfl
    rw [checkTotals, if_pos hdirectory]
    refine bind_eq_ok_iff.mpr ⟨_, rfl, bind_eq_ok_iff.mpr ⟨_, orPanic_eq_ok_iff.mpr hid, ?_⟩⟩
    refine bind_eq_ok_iff.mpr ⟨_, orInvalid_eq_ok_iff.mpr hsecond, ?_⟩
    refine bind_eq_ok_iff.mpr ⟨_, rfl, bind_eq_ok_iff.mpr
      ⟨_, orPanic_eq_ok_iff.mpr (parseU64_unsignedText (totalsOf tree directory).logicalBytes), ?_⟩⟩
    refine bind_eq_ok_iff.mpr ⟨_, rfl, bind_eq_ok_iff.mpr
      ⟨_, orPanic_eq_ok_iff.mpr (parseU64_unsignedText (totalsOf tree directory).physicalBytes), ?_⟩⟩
    refine bind_eq_ok_iff.mpr ⟨_, rfl, bind_eq_ok_iff.mpr
      ⟨_, orPanic_eq_ok_iff.mpr (parseU64_unsignedText (totalsOf tree directory).fileCount), ?_⟩⟩
    apply ensure_eq_ok_iff.mpr
    rw [hwritten]
    simp [htotals.logicalBytes, htotals.physicalBytes, htotals.fileCount]
  · rfl

theorem Exportable.exists_finishImport (hplanned : Planned plan)
    (htimes : plan.transaction.files.records.map timedFacts = plan.rows.filterMap timedOf)
    {metadata : Metadata}
    (hdetails : ∀ file ∈ plan.transaction.files.records, HasDetails metadata file)
    {fuel : ℕ} (hfuel : tree.directories.length ≤ fuel) :
    ∃ catalog, finishImport fuel metadata plan = .ok catalog ∧ Reopens tree catalog.tree ∧
      ∀ file ∈ catalog.tree.files, HasMetadata metadata catalog file := by
  have hfits := h.fits hplan
  have hlength := hplanned.records.length
  have hsteps : plan.transaction.directories.records.length ≤ fuel := by
    rw [hlength, h.length_directories hplan]
    exact hfuel
  obtain ⟨read, hread, hdirectories, hfiles, hbuilt⟩ := TreeIndex.exists_build plan.transaction
    (hlength ▸ hfits.directories) (hplanned.length_files_lt hfits) hsteps
  have hdirectories : read.directories.Perm plan.transaction.directories.records :=
    hdirectories ▸ KeyOrder.sortByKey_perm _ _
  have hfiles : read.files.Perm plan.transaction.files.records :=
    hfiles ▸ KeyOrder.sortByKey_perm _ _
  have hreopens := h.reopens hplan hplanned hbuilt hdirectories hfiles htimes
  obtain ⟨top, hspelled⟩ := h.exists_spelledTree hplan hplanned hbuilt hdirectories hfiles
  obtain ⟨rollup, hentry⟩ := hspelled.exists_rootEntry
  have hids : (read.files.map FileRecord.id).Nodup :=
    (hfiles.map _).nodup_iff.mpr plan.transaction.files.nodup_keys
  have hbuild : (TreeIndex.build fuel plan.transaction).elim (.error .unfinished) .ok =
      (.ok read : Import TreeIndex) := by
    rw [hread]
    rfl
  have hroot : ensure read.rootEntry.isSome "No scan records" = .ok () := by
    rw [hentry]
    rfl
  have hchecks : plan.rows.forM (checkTotals read plan.layout.directories) = .ok () := by
    have hrecords := hplanned.records.perm hdirectories
    have hall : Succeeds (plan.rows.forM (checkTotals read plan.layout.directories)) := by
      rw [hplan.rows]
      exact FailsOnly.forM fun row hrow ↦
        failsOnly_of_eq_ok (h.checkTotals_eq hplan hrecords hreopens hrow)
    obtain ⟨⟨⟩, hdone⟩ := hall.exists_ok
    exact hdone
  refine ⟨_, bind_eq_ok_iff.mpr ⟨read, hbuild, bind_eq_ok_iff.mpr ⟨(), hroot,
    bind_eq_ok_iff.mpr ⟨(), hchecks, rfl⟩⟩⟩, hreopens, fun file hmem ↦ ?_⟩
  have hpath : (read.fileDisplayPath file).toList = file.fullPath.toList :=
    congrArg (fun facts ↦ facts.1.1) (timedFile_eq_timedFacts hplanned hfiles hmem)
  have hexported := find?_supplemental hids metadata hmem
  rw [hpath] at hexported
  exact ⟨hdetails file (hfiles.mem_iff.mp hmem), hpath, hexported⟩

omit hplan in
/-- A table of the rows of the tree is opened as the tree. -/
theorem Exportable.exists_readDelimited (hsplit : SplitsPaths toLowercase) (order : HashOrder) {fuel : ℕ}
    (hfuel : tree.directories.length ≤ fuel) {localToUtc : ℤ → Import ℤ} {timezone : CsvTimeZone}
    {delimiter : Char} {text : List Char} {table : Table}
    (htable : readTable localToUtc timezone delimiter text = .ok table)
    (hrows : table.rows.tail.mapM trimRow = .ok (exportedRows tree))
    (hallow : table.allowLegacyTicks = true) :
    ∃ catalog, readDelimited toLowercase order fuel localToUtc timezone delimiter text = .ok catalog ∧
      Reopens tree catalog.tree ∧ ∀ file ∈ catalog.tree.files, HasMetadata table.metadata catalog file := by
  obtain ⟨plan, hplan, hmirrors⟩ := h.exists_planImport hsplit order hrows hallow
  have hfits := h.fits hmirrors
  obtain ⟨htimes, hdetails⟩ := details_of_planImport hplan hfits hallow
  obtain ⟨catalog, hcatalog, hopened⟩ :=
    h.exists_finishImport hmirrors (of_planImport hplan hfits).2 htimes hdetails hfuel
  have hread : readPlan toLowercase order localToUtc timezone delimiter text = .ok (table, plan) :=
    bind_eq_ok_iff.mpr ⟨table, htable, bind_eq_ok_iff.mpr ⟨plan, hplan, rfl⟩⟩
  exact ⟨catalog, bind_eq_ok_iff.mpr ⟨(table, plan), hread, hcatalog⟩, hopened⟩

end Catalogs

/-- A tree is opened again from the text in columns separated by commas or tabs, and
from the one with the metadata that are provided for its files, which are kept. -/
theorem exported_reopens (unicode : UnicodeCase) (hcased : unicode.cased '\\' = false)
    (hignorable : unicode.caseIgnorable '\\' = false) (order : HashOrder) {tree : TreeIndex}
    {root : DirectoryRecord} (h : Exportable unicode.toLowercase tree root) {fuel : ℕ}
    (hfuel : tree.directories.length ≤ fuel) :
    (∃ catalog, readCsv unicode.toLowercase order fuel (writeCsv tree).flatten = .ok catalog ∧
      Reopens tree catalog.tree) ∧
    (∀ localToUtc timezone, ∃ catalog,
      readTsvWithTimezone unicode.toLowercase order fuel localToUtc timezone (writeTsv tree) =
        .ok catalog ∧ Reopens tree catalog.tree) ∧
    ∀ {σ ε : Type} (metadata : FileRecord → StateT σ (Except ε) (Option FileExportMetadata))
      (before after : σ) (text : List Char),
      (writeCsvWithMetadata tree metadata).run before = .ok (text, after) →
      (∀ file ∈ tree.files, ∀ extras, Provides metadata file extras → HasIdentities extras) →
      (∀ file ∈ tree.files, ∀ ticks, (file.timestamps.created = some ticks ∨
        file.timestamps.accessed = some ticks) → InCalendar ticks) →
      ∃ catalog extras, readCsv unicode.toLowercase order fuel text = .ok catalog ∧
        Reopens tree catalog.tree ∧ List.Forall₂ (Provides metadata) tree.files extras ∧
        KeepsDetails tree extras catalog := by
  have hsplit := splitsPaths_toLowercase hcased hignorable
  refine ⟨?_, fun localToUtc timezone ↦ ?_, fun metadata before after text htext hextras htimes ↦ ?_⟩
  · obtain ⟨catalog, hread, hreopens, -⟩ := h.exists_readDelimited hsplit order hfuel
      (readTable_catalogLines separates_comma tree) (trimRow_catalogLines tree) rfl
    rw [writeCsv_eq]
    exact ⟨catalog, hread, hreopens⟩
  · obtain ⟨catalog, hread, hreopens, -⟩ := h.exists_readDelimited hsplit order hfuel
      (readTable_catalogLines separates_tab tree) (trimRow_catalogLines tree) rfl
    rw [writeTsv_eq]
    exact ⟨catalog, hread, hreopens⟩
  · obtain ⟨extras, hprovided, rfl⟩ := writeCsvWithMetadata_eq htext
    have hall := List.forall₂_iff_get.mp hprovided
    have hidentities : ∀ value ∈ extras, HasIdentities value := by
      intro value hvalue
      obtain ⟨index, hindex, rfl⟩ := List.getElem_of_mem hvalue
      have hlt : index < tree.files.length := hall.1.symm ▸ hindex
      exact hextras _ (List.getElem_mem hlt) _ (hall.2 index hlt hindex)
    obtain ⟨catalog, hread, hreopens, hmetadata⟩ := h.exists_readDelimited hsplit order hfuel
      (readTable_detailedLines hidentities htimes hall.1) (trimRow_catalogLines tree) rfl
    exact ⟨catalog, extras, hread, hreopens, hprovided, h.keeps_metadataOf hall.1 keptExtras hmetadata⟩

/-! ## A drive -/

def driveRoot : DirectoryRecord := ⟨⟨5⟩, none, "C:", "C:\\", 0, 0, 0, 0⟩

def driveDirectories : List DirectoryRecord :=
  [driveRoot, ⟨⟨7⟩, some ⟨5⟩, "a,b", "C:\\a,b", 0, 0, 0, 0⟩]

def driveFiles : List FileRecord :=
  [⟨⟨20⟩, ⟨7⟩, "x\"y", "", 7, 4096, .archive, ⟨some 130000000000000001, some 130000000000000001, none⟩⟩]

/-- A folder with a comma in its name and a file with a quote. -/
def drive : TreeIndex := (MultipleRoots.catalogOf driveDirectories driveFiles (by decide +kernel)).tree

theorem directories_drive : drive.directories = driveDirectories := by decide +kernel

theorem files_drive : drive.files = driveFiles := by decide +kernel

theorem displayedPaths_drive : displayedPaths drive =
    ["C:\\".toList, "C:\\a,b".toList, "C:\\a,b\\x\"y".toList] := by
  decide +kernel

theorem times_drive : ∀ file ∈ drive.files, ∀ ticks, (file.timestamps.created = some ticks ∨
    file.timestamps.modified = some ticks ∨ file.timestamps.accessed = some ticks) → InCalendar ticks := by
  rw [files_drive]
  intro file hmem ticks hticks
  obtain rfl := List.mem_singleton.mp hmem
  rcases hticks with htime | htime | htime
  · exact Option.some.inj htime ▸ ⟨by decide, by decide⟩
  · exact Option.some.inj htime ▸ ⟨by decide, by decide⟩
  · cases htime

theorem exportable_drive : Exportable UnicodeCase.ascii.toLowercase drive driveRoot where
  records := MultipleRoots.fromRecords_catalogOf _ _ _
  directoryCount := by
    rw [directories_drive]
    decide
  fileCount := by
    rw [files_drive]
    decide
  rootMem := by
    rw [directories_drive]
    decide
  rootLike parent hparent := by cases hparent
  above := by
    rw [directories_drive]
    decide +kernel
  files := by
    rw [files_drive, directories_drive]
    decide +kernel
  noNul := by
    rw [displayedPaths_drive]
    decide
  distinct := by
    rw [displayedPaths_drive]
    decide +kernel
  rootTrims := ⟨⟨'C', by decide, by decide⟩, fun hends ↦
    absurd (List.isSuffixOf_iff_suffix.mpr hends) (by decide)⟩
  notMultiple := by
    rw [directories_drive]
    decide +kernel
  times file hmem time htime := times_drive file hmem time (.inr (.inl htime))

/-- What is written for the drive with these metadata. -/
def driveText (extras : FileExportMetadata) : List Char :=
  (headerLine detailedHeader :: detailedLines drive [extras]).flatMap (Line.text ',')

def provideAll (extras : FileExportMetadata) (_ : FileRecord) :
    StateT Unit (Except Unit) (Option FileExportMetadata) := pure (some extras)

theorem run_driveText (extras : FileExportMetadata) :
    (writeCsvWithMetadata drive (provideAll extras)).run () = .ok (driveText extras, ()) := by
  have hwritten : ∃ text, (writeCsvWithMetadata drive (provideAll extras)).run () = .ok (text, ()) := by
    rw [writeCsvWithMetadata, files_drive]
    exact ⟨_, rfl⟩
  obtain ⟨text, htext⟩ := hwritten
  obtain ⟨values, hvalues, rfl⟩ := writeCsvWithMetadata_eq htext
  rw [files_drive] at hvalues
  obtain ⟨value, others, ⟨_, provided, _, hprovided, rfl⟩, hnil, rfl⟩ :=
    List.forall₂_cons_left_iff.mp hvalues
  obtain rfl := List.forall₂_nil_left_iff.mp hnil
  obtain ⟨rfl, -⟩ := Prod.mk.inj (Except.ok.inj hprovided)
  exact htext

/-- An identity that is no number is written, but not read. -/
theorem exported_refused : Exportable UnicodeCase.ascii.toLowercase drive driveRoot ∧
    (∀ file ∈ drive.files, ∀ ticks, (file.timestamps.created = some ticks ∨
      file.timestamps.modified = some ticks ∨ file.timestamps.accessed = some ticks) → InCalendar ticks) ∧
    ∃ text, (writeCsvWithMetadata drive (provideAll ⟨none, some "x", none, none⟩)).run () =
      .ok (text, ()) ∧
      ∀ catalog, readCsv UnicodeCase.ascii.toLowercase arenaOrder 2 text ≠ .ok catalog := by
  refine ⟨exportable_drive, times_drive, _, run_driveText _, fun catalog hread ↦ ?_⟩
  have hnone : (readCsv UnicodeCase.ascii.toLowercase arenaOrder 2
      (driveText ⟨none, some "x", none, none⟩)).toOption.isSome = false := by
    decide +kernel
  rw [hread] at hnone
  cases hnone

theorem exported_reopens_drive :
    (∃ catalog, readCsv UnicodeCase.ascii.toLowercase arenaOrder 2 (writeCsv drive).flatten =
      .ok catalog ∧ Reopens drive catalog.tree) ∧
    ∃ catalog extras, readCsv UnicodeCase.ascii.toLowercase arenaOrder 2
        (driveText ⟨some "me", some "12", some "", some 1⟩) = .ok catalog ∧
      Reopens drive catalog.tree ∧
      List.Forall₂ (Provides (provideAll ⟨some "me", some "12", some "", some 1⟩)) drive.files extras ∧
      KeepsDetails drive extras catalog := by
  have hdrive := exported_reopens .ascii rfl rfl arenaOrder exportable_drive
    (show drive.directories.length ≤ 2 by decide +kernel)
  refine ⟨hdrive.1, hdrive.2.2 (provideAll ⟨some "me", some "12", some "", some 1⟩) () () _
    (run_driveText _) (fun file _ extras hextras ↦ ?_) fun file hmem ticks hticks ↦ ?_⟩
  · obtain ⟨_, provided, _, hprovided, rfl⟩ := hextras
    obtain ⟨rfl, -⟩ := Prod.mk.inj (Except.ok.inj hprovided)
    refine ⟨fun text htext ↦ .inr ?_, fun text htext ↦ .inl (Option.some.inj htext).symm⟩
    obtain rfl := Option.some.inj htext
    decide
  · exact times_drive file hmem ticks (hticks.imp_right .inr)

end CatalogText

end WinBlaze
