import WinBlaze.Index.JsonCatalogs

/-!
# Exported JSON is opened again

The entries of a written tree are the rows of the other texts. Identities that are no numbers
are written, but not read.
-/

namespace WinBlaze

namespace CatalogText

open Attempts

/-! ## Rows -/

theorem elim_unixSeconds (time : Option Int64) :
    (time.map unixSeconds).elim [] (fun value ↦ signedText value.toInt) = secondsText time := by
  simp only [secondsText, Option.elim_map, Function.comp_def]

theorem entryRow_directoryEntry (tree : TreeIndex) (directory : DirectoryRecord) :
    entryRow (directoryEntry tree directory) = (directoryLine tree directory).values := by
  simp only [entryRow, directoryEntry, elim_unixSeconds, directoryLine, values_pathLine, directoryColumns]

theorem entryRow_fileEntry {tree : TreeIndex} {file : FileRecord} (extras : FileExportMetadata)
    (h : jsonPath tree file = (tree.fileDisplayPath file).toList) :
    entryRow (fileEntry tree file extras) = (fileLine tree file).values := by
  have hzero : unsignedText (0 : UInt64).toNat = ['0'] := by decide
  simp only [entryRow, fileEntry, elim_unixSeconds, h, hzero, fileLine, values_pathLine, fileColumns]
/-! ## Identities -/

/-- Identities are numbers of 64 and 128 bits, if there are any. -/
def hasNumbers (extras : FileExportMetadata) : Bool :=
  isIdentity (2 ^ 64) extras.volumeIdentity && isIdentity (2 ^ 128) extras.fileIdentity

/-- Nothing of a file is lost but parts of seconds. -/
def retainedDetails (file : FileRecord) (extras : FileExportMetadata) : ImportedMetadata where
  attributes := some file.attributes.bits
  created := file.timestamps.created.map wholeSeconds
  accessed := file.timestamps.accessed.map wholeSeconds
  exported := extras

def retainedMetadata (tree : TreeIndex) (extras : List FileExportMetadata) : Metadata :=
  .ofPairs ((tree.files.zip extras).map fun entry ↦
    ((tree.fileDisplayPath entry.1).toList, retainedDetails entry.1 entry.2))

theorem optionalTicks_unixSeconds {time : Option Int64}
    (h : ∀ ticks, time = some ticks → InCalendar ticks) :
    optionalTicks (time.map unixSeconds) = .ok (time.map wholeSeconds) := by
  cases time with
  | none => rfl
  | some ticks =>
      have hticks : toTicks (unixSeconds ticks) = .ok (wholeSeconds ticks) := by
        rw [toTicks, unixToTicks_unixSeconds (h ticks rfl).1]
        rfl
      exact map_eq_ok_iff.mpr ⟨_, hticks, rfl⟩

theorem entryMetadata_directory (metadata : Metadata) (tree : TreeIndex) (directory : DirectoryRecord) :
    entryMetadata metadata (directoryEntry tree directory) = .ok metadata := by
  have hkind : "Directory".toList ≠ "File".toList := by decide
  exact bind_eq_ok_iff.mpr ⟨(), rfl, if_neg hkind⟩

theorem entryMetadata_file (metadata : Metadata) {tree : TreeIndex} {file : FileRecord}
    (extras : FileExportMetadata) (hpath : jsonPath tree file = (tree.fileDisplayPath file).toList)
    (hcreated : ∀ ticks, file.timestamps.created = some ticks → InCalendar ticks)
    (haccessed : ∀ ticks, file.timestamps.accessed = some ticks → InCalendar ticks) :
    entryMetadata metadata (fileEntry tree file extras) =
      if hasNumbers extras then
        .ok (metadata.set (tree.fileDisplayPath file).toList (retainedDetails file extras))
      else .error (.invalid "Invalid physical identity metadata") := by
  have hnumbers : (isIdentity (2 ^ 64) (fileEntry tree file extras).volumeIdentity &&
      isIdentity (2 ^ 128) (fileEntry tree file extras).fileIdentity) = hasNumbers extras := rfl
  have hkind : (fileEntry tree file extras).kind = "File".toList := rfl
  rw [entryMetadata, hnumbers]
  cases hasNumbers extras with
  | true =>
      refine bind_eq_ok_iff.mpr ⟨(), rfl, (if_pos hkind).trans ?_⟩
      refine bind_eq_ok_iff.mpr ⟨_, optionalTicks_unixSeconds hcreated, ?_⟩
      refine bind_eq_ok_iff.mpr ⟨_, optionalTicks_unixSeconds haccessed, ?_⟩
      rw [← hpath]
      rfl
  | false => rfl

/-- The first that is refused ends it. -/
theorem foldlM_eq_ite {σ α ε : Type} {f : σ → α → Except ε σ} {g : σ → α → σ} {accepts : α → Bool} {e : ε}
    {l : List α} (h : ∀ s, ∀ a ∈ l, f s a = if accepts a then .ok (g s a) else .error e) (s : σ) :
    l.foldlM f s = if l.all accepts then .ok (l.foldl g s) else .error e := by
  induction l generalizing s with
  | nil => rfl
  | cons a rest ih =>
      obtain ⟨hfirst, hrest⟩ := forall_and.mp fun s ↦ List.forall_mem_cons.mp (h s)
      rw [List.foldlM_cons, hfirst, List.all_cons]
      cases accepts a with
      | true => exact ih hrest (g s a)
      | false => rfl

theorem mapM_congr {α β ε : Type} {f g : α → Except ε β} {l : List α} (h : ∀ a ∈ l, f a = g a) :
    l.mapM f = l.mapM g := by
  induction l with
  | nil => rfl
  | cons a rest ih =>
      obtain ⟨hfirst, hrest⟩ := List.forall_mem_cons.mp h
      rw [List.mapM_cons, List.mapM_cons, hfirst, ih hrest]

/-! ## Tables -/

section Tables

variable {toLowercase : List Char → List Char} {tree : TreeIndex} {root : DirectoryRecord}
  (h : Exportable toLowercase tree root)

include h

/-- No path of a directory ends in two backslashes. -/
theorem Exportable.jsonPath_eq {file : FileRecord} (hmem : file ∈ tree.files) :
    jsonPath tree file = (tree.fileDisplayPath file).toList := by
  refine (jsonPath_eq_iff tree file).mpr fun _ path hpath hends ↦ ?_
  obtain ⟨-, -, parent, hparent, hid⟩ := h.files file hmem
  obtain ⟨index, hget, hindex⟩ := h.spelledDirectories.exists_index hparent
  rw [← hid, MultipleRoots.directoryFullPath_eq h.isBuilt hindex, hget, Option.map_some,
    Option.some.injEq] at hpath
  subst hpath
  by_cases hroot : parent = root
  · exact h.rootTrims.2 (hroot ▸ hends)
  · obtain ⟨front, hfront⟩ := hends
    refine (h.fullPath_ends hparent hroot).2 ?_
    rw [← hfront]
    simp

theorem Exportable.entryRow_writtenEntries {extras : List FileExportMetadata}
    (hlength : tree.files.length = extras.length) :
    (writtenEntries tree extras).map entryRow = (catalogLines tree).map Line.values := by
  have hfiles : ((tree.files.zip extras).map fun entry ↦ entryRow (fileEntry tree entry.1 entry.2)) =
      tree.files.map fun file ↦ (fileLine tree file).values := by
    nth_rewrite 2 [← List.map_fst_zip hlength.le]
    rw [List.map_map]
    exact List.map_congr_left fun entry hentry ↦
      entryRow_fileEntry entry.2 (h.jsonPath_eq (List.of_mem_zip hentry).1)
  rw [writtenEntries, catalogLines, List.map_append, List.map_append, List.map_map, List.map_map,
    List.map_map, List.map_map]
  refine congrArg₂ _ (List.map_congr_left fun directory _ ↦ ?_) hfiles
  exact entryRow_directoryEntry tree directory

/-- The table of a written tree, unless an identity is no number. -/
theorem Exportable.documentTable_writtenEntries {extras : List FileExportMetadata}
    (hlength : tree.files.length = extras.length)
    (htimes : ∀ file ∈ tree.files, ∀ ticks, (file.timestamps.created = some ticks ∨
      file.timestamps.accessed = some ticks) → InCalendar ticks) :
    documentTable (.winBlaze ⟨1, writtenEntries tree extras⟩) =
      if extras.all hasNumbers then
        .ok ⟨texts ["Path"] :: (catalogLines tree).map Line.values, false, retainedMetadata tree extras⟩
      else .error (.invalid "Invalid physical identity metadata") := by
  have hdirectories : ((exportedDirectories tree).map (directoryEntry tree)).foldlM entryMetadata .empty =
      .ok .empty := by
    refine foldlM_eq_self fun entry hentry ↦ ?_
    obtain ⟨directory, -, rfl⟩ := List.mem_map.mp hentry
    exact entryMetadata_directory .empty tree directory
  have hfiles : ((tree.files.zip extras).map fun entry ↦ fileEntry tree entry.1 entry.2).foldlM
      entryMetadata .empty =
        if (tree.files.zip extras).all fun entry ↦ hasNumbers entry.2 then
          .ok (retainedMetadata tree extras)
        else .error (.invalid "Invalid physical identity metadata") := by
    rw [List.foldlM_map, retainedMetadata, IdMap.ofPairs, KeyedArena.ofList, List.foldl_map]
    refine foldlM_eq_ite (fun metadata entry hentry ↦ ?_) _
    have hfile := (List.of_mem_zip hentry).1
    exact entryMetadata_file metadata entry.2 (h.jsonPath_eq hfile)
      (fun ticks hticks ↦ htimes _ hfile ticks (.inl hticks))
      (fun ticks hticks ↦ htimes _ hfile ticks (.inr hticks))
  have hall : ((tree.files.zip extras).all fun entry ↦ hasNumbers entry.2) = extras.all hasNumbers := by
    nth_rewrite 2 [← List.map_snd_zip hlength.ge]
    rw [List.all_map]
    rfl
  have hmetadata : (writtenEntries tree extras).foldlM entryMetadata .empty =
      if extras.all hasNumbers then .ok (retainedMetadata tree extras)
      else .error (.invalid "Invalid physical identity metadata") := by
    rw [writtenEntries, List.foldlM_append, hdirectories, ← hall, ← hfiles]
    rfl
  simp only [documentTable, hmetadata, h.entryRow_writtenEntries hlength]
  cases extras.all hasNumbers with
  | true => rfl
  | false => rfl

omit h in
theorem modifiedTime_strict {time : Option Int64} (h : ∀ ticks, time = some ticks → InCalendar ticks) :
    modifiedTime false (secondsText time) = modifiedTime true (secondsText time) := by
  rw [modifiedTime_secondsText h]
  cases time with
  | none => rfl
  | some ticks =>
      have himport : importTimestamp (secondsText (some ticks)) false = .ok (wholeSeconds ticks) := by
        rw [importTimestamp, parseI64_secondsText]
        exact unixToTicks_unixSeconds (h ticks rfl).1
      rw [modifiedTime, isEmpty_secondsText, if_neg Bool.false_ne_true, himport]
      rfl

/-- It makes no difference for the rows of a tree whether ticks are read as times. -/
theorem Exportable.fileRecord_strict (layout : Layout) (metadata : Metadata) {row : Row}
    (hrow : row ∈ exportedRows tree) (index : ℕ) :
    fileRecord layout false metadata (row, index) = fileRecord layout true metadata (row, index) := by
  rcases h.mem_exportedRows hrow with ⟨directory, -, rfl⟩ | ⟨file, hmem, rfl⟩
  · have hdirectory : isDirectory (directoryRow tree directory) = true := rfl
    simp only [fileRecord, hdirectory, if_true]
  · have htime : ∀ (allow : Bool) (f : Option Int64 → Import (Option FileRecord)),
        (column (fileRow tree file) 6 >>= fun text ↦ modifiedTime allow text >>= f) =
          modifiedTime allow (secondsText file.timestamps.modified) >>= f := fun _ _ ↦ rfl
    simp only [fileRecord, htime, modifiedTime_strict (h.times file hmem)]

theorem Exportable.planImport_strict (order : HashOrder) {table : Table}
    (htable : table.rows.tail.mapM trimRow = .ok (exportedRows tree))
    (hallow : table.allowLegacyTicks = false) :
    planImport toLowercase order table =
      planImport toLowercase order { table with allowLegacyTicks := true } := by
  have hfiles : ∀ layout, (exportedRows tree).zipIdx.mapM (fileRecord layout false table.metadata) =
      (exportedRows tree).zipIdx.mapM (fileRecord layout true table.metadata) := fun layout ↦
    mapM_congr fun entry hentry ↦
      h.fileRecord_strict layout table.metadata (List.fst_mem_of_mem_zipIdx hentry) entry.2
  have hbind : ∀ {α : Type} (f : List Row → Import α), (Except.ok (exportedRows tree) >>= f) =
      f (exportedRows tree) := fun _ ↦ rfl
  simp only [planImport, htable, hallow, hbind, hfiles]

end Tables

/-! ## Catalogs -/

/-- A file of the same path has the same attributes and metadata, and its times to the second. -/
def Retains (tree : TreeIndex) (extras : List FileExportMetadata) (catalog : TreeCatalog) : Prop :=
  ∀ entry ∈ tree.files.zip extras, ∀ same ∈ catalog.tree.files,
    catalog.tree.fileDisplayPath same = tree.fileDisplayPath entry.1 →
      same.attributes = entry.1.attributes ∧
      same.timestamps.created = entry.1.timestamps.created.map wholeSeconds ∧
      same.timestamps.accessed = entry.1.timestamps.accessed.map wholeSeconds ∧
      catalog.exportMetadata.find? same.id.val = (some entry.2).filter (· ≠ ⟨none, none, none, none⟩)

/-- The tree is opened again with these metadata, or refused where an identity is no number. -/
def ReadBack (tree : TreeIndex) (extras : List FileExportMetadata) (read : Import TreeCatalog) : Prop :=
  if extras.all hasNumbers then
    ∃ catalog, read = .ok catalog ∧ Reopens tree catalog.tree ∧ Retains tree extras catalog
  else read = .error (.invalid "Invalid physical identity metadata")

/-- The metadata the catalog has of its files. -/
def ownMetadata (catalog : TreeCatalog) : List FileExportMetadata :=
  catalog.tree.files.map fun file ↦ (catalog.exportMetadata.find? file.id.val).getD ⟨none, none, none, none⟩

theorem writeJson_text (catalog : TreeCatalog) :
    writeJson catalog = (catalogJson catalog.tree (ownMetadata catalog)).text ++ ['\n'] := by
  have hdirectories : jsonDirectoryEntries catalog.tree =
      ((exportedDirectories catalog.tree).map fun directory ↦
        objectOf entryNames (directoryValues catalog.tree directory)).map Json.text := by
    rw [jsonDirectoryEntries, List.map_map]
    exact List.map_congr_left fun directory _ ↦ text_directoryEntry catalog.tree directory
  have hfiles : jsonFileEntries catalog = ((catalog.tree.files.zip (ownMetadata catalog)).map
      fun entry ↦ objectOf entryNames (fileValues catalog.tree entry.1 entry.2)).map Json.text := by
    rw [jsonFileEntries, ownMetadata, ← List.map_prod_left_eq_zip, List.map_map, List.map_map]
    exact List.map_congr_left fun file _ ↦ text_fileEntry catalog.tree file _
  rw [writeJson, hdirectories, hfiles, ← List.map_append, jsonText_eq, catalogJson]

section Catalogs

variable {unicode : UnicodeCase} (hcased : unicode.cased '\\' = false)
  (hignorable : unicode.caseIgnorable '\\' = false) (order : HashOrder)
  {fromReader : List Char → Except String Document} (hreader : ReadsScans fromReader) {tree : TreeIndex}
  {root : DirectoryRecord} (h : Exportable unicode.toLowercase tree root) {fuel : ℕ}
  (hfuel : tree.directories.length ≤ fuel)
  (htimes : ∀ file ∈ tree.files, ∀ ticks, (file.timestamps.created = some ticks ∨
    file.timestamps.accessed = some ticks) → InCalendar ticks)

include hcased hignorable hreader h hfuel htimes

theorem Exportable.readBack_catalogJson {extras : List FileExportMetadata}
    (hlength : tree.files.length = extras.length) :
    ReadBack tree extras (readJson fromReader unicode.toLowercase order fuel
      ((catalogJson tree extras).text ++ ['\n'])) := by
  have hjson : readJson fromReader unicode.toLowercase order fuel
      ((catalogJson tree extras).text ++ ['\n']) = (do
        let table ← documentTable (.winBlaze ⟨1, writtenEntries tree extras⟩)
        let plan ← planImport unicode.toLowercase order table
        finishImport fuel table.metadata plan) := by
    rw [readJson, hreader _ _ (scanJson_catalogJson tree extras) (plain_catalogJson tree extras)]
    rfl
  rw [ReadBack, hjson, h.documentTable_writtenEntries hlength htimes]
  cases extras.all hasNumbers with
  | false => rfl
  | true =>
      let table : Table :=
        ⟨texts ["Path"] :: (catalogLines tree).map Line.values, false, retainedMetadata tree extras⟩
      have hrows : table.rows.tail.mapM trimRow = .ok (exportedRows tree) := trimRow_catalogLines tree
      have hsplit := splitsPaths_toLowercase hcased hignorable
      have hlegacy : ({ table with allowLegacyTicks := true } : Table).rows.tail.mapM trimRow =
          .ok (exportedRows tree) := hrows
      obtain ⟨plan, hplan, hmirrors⟩ := h.exists_planImport hsplit order hlegacy rfl
      have hfits := h.fits hmirrors
      obtain ⟨hfacts, hdetails⟩ := details_of_planImport hplan hfits rfl
      obtain ⟨catalog, hcatalog, hreopens, hmetadata⟩ :=
        h.exists_finishImport hmirrors (of_planImport hplan hfits).2 hfacts hdetails hfuel
      have hstrict := (h.planImport_strict order hrows rfl).trans hplan
      exact ⟨catalog, bind_eq_ok_iff.mpr ⟨table, rfl, bind_eq_ok_iff.mpr ⟨plan, hstrict, hcatalog⟩⟩,
        hreopens, h.keeps_metadataOf hlength id hmetadata⟩

end Catalogs

/-- A tree is opened again from its JSON, with all the metadata that were written, exactly
when their identities are numbers. -/
theorem exported_json_reopens (unicode : UnicodeCase) (hcased : unicode.cased '\\' = false)
    (hignorable : unicode.caseIgnorable '\\' = false) (order : HashOrder)
    {fromReader : List Char → Except String Document} (hreader : ReadsScans fromReader) {tree : TreeIndex}
    {root : DirectoryRecord} (h : Exportable unicode.toLowercase tree root) {fuel : ℕ}
    (hfuel : tree.directories.length ≤ fuel)
    (htimes : ∀ file ∈ tree.files, ∀ ticks, (file.timestamps.created = some ticks ∨
      file.timestamps.accessed = some ticks) → InCalendar ticks) :
    (∀ catalog, catalog.tree = tree → ReadBack tree (ownMetadata catalog)
      (readJson fromReader unicode.toLowercase order fuel (writeJson catalog))) ∧
    ∀ {σ ε : Type} (metadata : FileRecord → StateT σ (Except ε) (Option FileExportMetadata))
      (before after : σ) (text : List Char),
      (writeJsonWithMetadata tree metadata).run before = .ok (text, after) →
      ∃ extras, List.Forall₂ (Provides metadata) tree.files extras ∧
        ReadBack tree extras (readJson fromReader unicode.toLowercase order fuel text) := by
  have hread : ∀ extras, tree.files.length = extras.length → ReadBack tree extras
      (readJson fromReader unicode.toLowercase order fuel ((catalogJson tree extras).text ++ ['\n'])) :=
    fun _ hlength ↦ h.readBack_catalogJson hcased hignorable order hreader hfuel htimes hlength
  refine ⟨?_, fun metadata before after text htext ↦ ?_⟩
  · rintro catalog rfl
    rw [writeJson_text]
    exact hread _ (List.length_map _).symm
  · obtain ⟨extras, hprovided, rfl⟩ := writeJsonWithMetadata_text htext
    exact ⟨extras, hprovided, hread extras hprovided.length_eq⟩

/-! ## A drive -/

def driveJson (extras : FileExportMetadata) : List Char := (catalogJson drive [extras]).text ++ ['\n']

theorem run_driveJson (extras : FileExportMetadata) :
    (writeJsonWithMetadata drive (provideAll extras)).run () = .ok (driveJson extras, ()) := by
  have hwritten : ∃ text, (writeJsonWithMetadata drive (provideAll extras)).run () = .ok (text, ()) := by
    rw [writeJsonWithMetadata, files_drive]
    exact ⟨_, rfl⟩
  obtain ⟨text, htext⟩ := hwritten
  obtain ⟨values, hvalues, rfl⟩ := writeJsonWithMetadata_text htext
  rw [files_drive] at hvalues
  obtain ⟨value, others, ⟨_, provided, _, hprovided, rfl⟩, hnil, rfl⟩ :=
    List.forall₂_cons_left_iff.mp hvalues
  obtain rfl := List.forall₂_nil_left_iff.mp hnil
  obtain ⟨rfl, -⟩ := Prod.mk.inj (Except.ok.inj hprovided)
  exact htext

/-- An empty identity is kept by the text in columns, and refused here. -/
theorem exported_json_reopens_drive :
    (∃ catalog, readJson Document.fromReader UnicodeCase.ascii.toLowercase arenaOrder 2
        (driveJson ⟨some "me", some "12", none, some 1⟩) = .ok catalog ∧ Reopens drive catalog.tree ∧
      Retains drive [⟨some "me", some "12", none, some 1⟩] catalog) ∧
    readJson Document.fromReader UnicodeCase.ascii.toLowercase arenaOrder 2
      (driveJson ⟨some "me", some "12", some "", some 1⟩) =
        .error (.invalid "Invalid physical identity metadata") := by
  have hread : ∀ extras, ∃ provided, List.Forall₂ (Provides (provideAll extras)) drive.files provided ∧
      ReadBack drive provided
        (readJson Document.fromReader UnicodeCase.ascii.toLowercase arenaOrder 2 (driveJson extras)) := fun extras ↦
    (exported_json_reopens .ascii rfl rfl arenaOrder readsScans_fromReader exportable_drive
      (show drive.directories.length ≤ 2 by decide +kernel) fun file hmem ticks hticks ↦
        times_drive file hmem ticks (hticks.imp_right .inr)).2 (provideAll extras) () () _
          (run_driveJson extras)
  have hback : ∀ extras, ReadBack drive [extras]
      (readJson Document.fromReader UnicodeCase.ascii.toLowercase arenaOrder 2 (driveJson extras)) := by
    intro extras
    obtain ⟨values, hvalues, hback⟩ := hread extras
    rw [files_drive] at hvalues
    obtain ⟨value, others, ⟨_, provided, _, hprovided, rfl⟩, hnil, rfl⟩ :=
      List.forall₂_cons_left_iff.mp hvalues
    obtain rfl := List.forall₂_nil_left_iff.mp hnil
    obtain ⟨rfl, -⟩ := Prod.mk.inj (Except.ok.inj hprovided)
    exact hback
  have hnumbers : [(⟨some "me", some "12", none, some 1⟩ : FileExportMetadata)].all hasNumbers = true := by
    decide
  have hempty : ¬ [(⟨some "me", some "12", some "", some 1⟩ : FileExportMetadata)].all hasNumbers = true := by
    decide
  have hkept := hback ⟨some "me", some "12", none, some 1⟩
  have hrefused := hback ⟨some "me", some "12", some "", some 1⟩
  rw [ReadBack, if_pos hnumbers] at hkept
  rw [ReadBack, if_neg hempty] at hrefused
  exact ⟨hkept, hrefused⟩

end CatalogText

end WinBlaze
