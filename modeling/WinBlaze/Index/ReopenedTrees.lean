import WinBlaze.Index.ReopenedLayout

/-!
# The tree of exported rows

The rows of an exported tree give one record for every directory and file of it, and
these are put together to a tree of the same paths.
-/

namespace WinBlaze

namespace CatalogText

open Attempts

/-! ## Files of rows -/

/-- Path, sizes and time of the file of a row. -/
def timedOf (row : Row) : Option ((List Char × UInt64 × UInt64) × Option Int64) :=
  (fileOf row).bind fun facts ↦ ((row[6]?).bind fun text ↦ (modifiedTime true text).toOption).map
    fun time ↦ (facts, time)

def timedFacts (file : FileRecord) : (List Char × UInt64 × UInt64) × Option Int64 :=
  (fileFacts file, file.timestamps.modified)

theorem times_of_mapM {layout : Layout} {metadata : Metadata} {rows : List Row}
    {results : List (Option FileRecord)}
    (h : rows.zipIdx.mapM (fileRecord layout true metadata) = .ok results) :
    results.reduceOption.map timedFacts = rows.filterMap timedOf := by
  refine map_of_mapM h (fun row hdirectory ↦ ?_) fun entry file hresult ↦ ?_
  · rw [timedOf, fileOf_of_isDirectory hdirectory, Option.bind_none]
  · obtain ⟨hfile, ⟨text, htext, hmodified⟩, -⟩ := of_fileRecord_some hresult
    rw [timedOf, hfile.facts, htext, Option.bind_some, Option.bind_some, hmodified]
    rfl

theorem details_of_planImport {toLowercase : List Char → List Char} {order : HashOrder} {table : Table}
    {plan : ImportPlan} (h : planImport toLowercase order table = .ok plan) (hfits : plan.Fits)
    (hallow : table.allowLegacyTicks = true) :
    plan.transaction.files.records.map timedFacts = plan.rows.filterMap timedOf ∧
      ∀ file ∈ plan.transaction.files.records, HasDetails table.metadata file := by
  obtain ⟨rows, -, h⟩ := bind_eq_ok_iff.mp h
  obtain ⟨layout, hlayout, h⟩ := bind_eq_ok_iff.mp h
  obtain ⟨directories, -, h⟩ := bind_eq_ok_iff.mp h
  obtain ⟨files, hfiles, h⟩ := bind_eq_ok_iff.mp h
  obtain rfl := Except.ok.inj h
  have hcount := (of_layoutOf hlayout).length_lt hfits.directories hfits.files
  rw [foldl_insert_eq, KeyedArena.ofList_records (nodup_of_mapM hfiles hcount)]
  refine ⟨times_of_mapM (hallow ▸ hfiles), fun file hmem ↦ ?_⟩
  obtain ⟨entry, -, hresult⟩ := exists_of_mem_mapM hfiles (List.reduceOption_mem_iff.mp hmem)
  exact (of_fileRecord_some hresult).2.2

theorem fileOf_fileRow (tree : TreeIndex) (file : FileRecord) :
    fileOf (fileRow tree file) = some (displayedFile tree file) := by
  have hlogical : (some (unsignedText file.sizeBytes.toNat)).bind parseU64 = some file.sizeBytes :=
    parseU64_unsignedText file.sizeBytes
  have hallocated : (some (unsignedText file.allocationBytes.toNat)).bind parseU64 =
      some file.allocationBytes := parseU64_unsignedText file.allocationBytes
  have hkind : (fileRow tree file)[1]? = some "File".toList := rfl
  have hcolumns : ((fileRow tree file)[2]?).bind parseU64 = some file.sizeBytes ∧
      ((fileRow tree file)[3]?).bind parseU64 = some file.allocationBytes := ⟨hlogical, hallocated⟩
  rw [fileOf, if_pos hkind, hcolumns.1, hcolumns.2]
  rfl

section Rows

variable {toLowercase : List Char → List Char} {tree : TreeIndex} {root : DirectoryRecord}
  (h : Exportable toLowercase tree root)

include h

theorem Exportable.timedOf_fileRow {file : FileRecord} (hmem : file ∈ tree.files) :
    timedOf (fileRow tree file) =
      some (displayedFile tree file, file.timestamps.modified.map wholeSeconds) := by
  have htime : ((fileRow tree file)[6]?).bind (fun text ↦ (modifiedTime true text).toOption) =
      some (file.timestamps.modified.map wholeSeconds) := by
    change (modifiedTime true (secondsText file.timestamps.modified)).toOption = _
    rw [modifiedTime_secondsText (h.times file hmem)]
    rfl
  rw [timedOf, fileOf_fileRow, Option.bind_some, htime]
  rfl

/-- The rows say of every file what is known of it, to the second. -/
theorem Exportable.filterMap_timedOf : (exportedRows tree).filterMap timedOf =
    tree.files.map fun file ↦ (displayedFile tree file, file.timestamps.modified.map wholeSeconds) := by
  have hdirectories : ((exportedDirectories tree).map (directoryRow tree)).filterMap timedOf = [] := by
    refine List.filterMap_eq_nil_iff.mpr fun row hrow ↦ ?_
    obtain ⟨directory, -, rfl⟩ := List.mem_map.mp hrow
    rw [timedOf, fileOf_of_isDirectory rfl, Option.bind_none]
  have hfiles : (tree.files.map (fileRow tree)).filterMap timedOf = tree.files.map fun file ↦
      (displayedFile tree file, file.timestamps.modified.map wholeSeconds) := by
    rw [List.filterMap_map, ← List.filterMap_eq_map]
    exact List.filterMap_congr fun file hmem ↦ h.timedOf_fileRow hmem
  rw [exportedRows, List.filterMap_append, hdirectories, hfiles, List.nil_append]

/-- A row of the tree is read where the layout has all directories. -/
theorem Exportable.succeeds_fileRecord {layout : Layout} (metadata : Metadata)
    (hpaths : ∀ directory ∈ tree.directories, directoryKey directory ∈ paths layout.directories)
    {row : Row} (hrow : row ∈ exportedRows tree) (index : ℕ) :
    Succeeds (fileRecord layout true metadata (row, index)) := by
  unfold fileRecord
  dsimp only
  rcases h.mem_exportedRows hrow with ⟨directory, -, rfl⟩ | ⟨file, hmem, rfl⟩
  · have hdirectory : isDirectory (directoryRow tree directory) = true := rfl
    rw [if_pos hdirectory]
    exact failsOnly_pure none
  · have hother : isDirectory (fileRow tree file) = false := rfl
    obtain ⟨parent, hparent, -, hstem⟩ := h.stem_fileDisplayPath hmem
    obtain ⟨parts, hparts, hfront⟩ := Option.map_eq_some_iff.mp hstem
    obtain ⟨id, hid⟩ := Option.isSome_iff_exists.mp (find?_isSome_iff.mpr (hpaths parent hparent))
    rw [hother, if_neg Bool.false_ne_true]
    refine failsOnly_bind_of_eq_ok (a := ()) rfl (failsOnly_bind_of_eq_ok rfl ?_)
    refine failsOnly_bind_of_eq_ok (orInvalid_eq_ok_iff.mpr hparts) ?_
    refine failsOnly_bind_of_eq_ok (orInvalid_eq_ok_iff.mpr (hfront ▸ hid)) ?_
    refine failsOnly_bind_of_eq_ok rfl (failsOnly_bind_of_eq_ok
      (orInvalid_eq_ok_iff.mpr (parseU64_unsignedText file.sizeBytes)) ?_)
    refine failsOnly_bind_of_eq_ok rfl (failsOnly_bind_of_eq_ok
      (orInvalid_eq_ok_iff.mpr (parseU64_unsignedText file.allocationBytes)) ?_)
    exact failsOnly_bind_of_eq_ok rfl (failsOnly_bind_of_eq_ok
      (modifiedTime_secondsText (h.times file hmem)) (failsOnly_pure _))

end Rows

/-! ## Plans -/

theorem succeeds_directoryRecord {layout : Layout}
    (h : (layout.directories.find? layout.common).isSome = true) (entry : List Char × DirectoryId) :
    Succeeds (directoryRecord layout entry) := by
  refine FailsOnly.bind ?_ fun _ _ ↦ failsOnly_pure _
  unfold parentOfPath
  split
  case h_1 => exact failsOnly_pure _
  case h_2 =>
    split
    case isTrue =>
      obtain ⟨id, hid⟩ := Option.isSome_iff_exists.mp h
      exact (failsOnly_of_eq_ok (orPanic_eq_ok_iff.mpr hid)).map _
    case isFalse => exact failsOnly_pure _

/-- The plan has the rows and the directories of the tree. -/
structure Mirrors (tree : TreeIndex) (root : DirectoryRecord) (plan : ImportPlan) : Prop where
  rows : plan.rows = exportedRows tree
  common : plan.layout.common = directoryKey root
  paths : paths plan.layout.directories = (exportedDirectories tree).map directoryKey

theorem countP_exportedRows (tree : TreeIndex) : (exportedRows tree).countP isFile = tree.files.length := by
  have hdirectories : ((exportedDirectories tree).map (directoryRow tree)).countP isFile = 0 := by
    refine List.countP_eq_zero.mpr fun row hrow ↦ ?_
    obtain ⟨directory, -, rfl⟩ := List.mem_map.mp hrow
    exact Bool.false_ne_true
  have hfiles : (tree.files.map (fileRow tree)).countP isFile = tree.files.length := by
    refine (List.countP_eq_length.mpr fun row hrow ↦ ?_).trans (List.length_map _)
    obtain ⟨file, -, rfl⟩ := List.mem_map.mp hrow
    rfl
  rw [exportedRows, List.countP_append, hdirectories, hfiles, Nat.zero_add]

section Plans

variable {toLowercase : List Char → List Char} {tree : TreeIndex} {root : DirectoryRecord}
  (h : Exportable toLowercase tree root)

include h

theorem Exportable.exists_planImport (hsplit : SplitsPaths toLowercase) (order : HashOrder) {table : Table}
    (htable : table.rows.tail.mapM trimRow = .ok (exportedRows tree))
    (hallow : table.allowLegacyTicks = true) :
    ∃ plan, planImport toLowercase order table = .ok plan ∧ Mirrors tree root plan := by
  obtain ⟨layout, hlayout, hcommon, hpaths⟩ := h.exists_layoutOf hsplit
  have hkeys : ∀ directory ∈ tree.directories, directoryKey directory ∈ paths layout.directories := by
    intro directory hmem
    rw [hpaths]
    exact List.mem_map_of_mem (h.mem_exportedDirectories.mpr hmem)
  have hroot : (layout.directories.find? layout.common).isSome = true := by
    rw [hcommon]
    exact find?_isSome_iff.mpr (hkeys root h.rootMem)
  have hentries : Succeeds ((order.entries layout.directories).mapM (directoryRecord layout)) :=
    FailsOnly.mapM fun entry _ ↦ succeeds_directoryRecord hroot entry
  obtain ⟨directories, hdirectories⟩ := hentries.exists_ok
  have hrows : Succeeds ((exportedRows tree).zipIdx.mapM
      (fileRecord layout table.allowLegacyTicks table.metadata)) := by
    rw [hallow]
    exact FailsOnly.mapM fun entry hentry ↦
      h.succeeds_fileRecord table.metadata hkeys (List.fst_mem_of_mem_zipIdx hentry) entry.2
  obtain ⟨files, hfiles⟩ := hrows.exists_ok
  refine ⟨_, bind_eq_ok_iff.mpr ⟨_, htable, bind_eq_ok_iff.mpr ⟨_, hlayout, bind_eq_ok_iff.mpr ⟨_,
    hdirectories, bind_eq_ok_iff.mpr ⟨_, hfiles, rfl⟩⟩⟩⟩, rfl, hcommon, hpaths⟩

theorem Exportable.length_directories {plan : ImportPlan} (hplan : Mirrors tree root plan) :
    plan.layout.directories.records.length = tree.directories.length := by
  obtain ⟨others, heq, hperm⟩ := h.exists_exportedDirectories
  have hlength := congrArg List.length hplan.paths
  rwa [paths, List.length_map, List.length_map, heq, hperm.length_eq] at hlength

theorem Exportable.fits {plan : ImportPlan} (hplan : Mirrors tree root plan) : plan.Fits where
  directories := (h.length_directories hplan).trans_lt h.directoryCount
  files := by
    rw [hplan.rows, countP_exportedRows]
    exact h.fileCount

end Plans

/-! ## Directories -/

section Directories

variable {toLowercase : List Char → List Char} {tree : TreeIndex} {root : DirectoryRecord}
  (h : Exportable toLowercase tree root) {plan : ImportPlan} (hplan : Mirrors tree root plan)
  {directories : List DirectoryRecord} (hrecords : RecordsOf plan.layout directories)

include h hplan

theorem Exportable.mem_paths {path : List Char} : path ∈ paths plan.layout.directories ↔
    ∃ directory ∈ tree.directories, directoryKey directory = path := by
  rw [hplan.paths, List.mem_map]
  exact exists_congr fun directory ↦ and_congr_left' h.mem_exportedDirectories

theorem Exportable.exists_number {directory : DirectoryRecord} (hmem : directory ∈ tree.directories) :
    ∃ id, plan.layout.directories.find? (directoryKey directory) = some id :=
  Option.isSome_iff_exists.mp (find?_isSome_iff.mpr ((h.mem_paths hplan).mpr ⟨directory, hmem, rfl⟩))

/-- The record of a path has the path, which is that of a directory of the tree. -/
theorem Exportable.directoryKey_record {path : List Char} {directory : DirectoryRecord}
    (hrecord : IsRecordOf plan.layout path directory) : directoryKey directory = path ∧
      ∃ original ∈ tree.directories, directoryKey original = path := by
  have hpath := find?_isSome_iff.mp (Option.isSome_iff_exists.mpr ⟨_, hrecord.number⟩)
  obtain ⟨original, hmem, rfl⟩ := (h.mem_paths hplan).mp hpath
  refine ⟨?_, original, hmem, rfl⟩
  rw [directoryKey, hrecord.fullPath, trimEndBackslashes_directoryPath, directoryKey,
    trimEndBackslashes_idem]

/-- The root stays without a parent. -/
theorem Exportable.parent_root {top : DirectoryRecord}
    (hrecord : IsRecordOf plan.layout (directoryKey root) top) : top.parentDirectoryId = none := by
  rcases parentOfPath_cases hrecord.parent with ⟨above, id, hstem, hfind, -⟩ |
    ⟨-, ⟨⟨-, hother⟩, -⟩ | ⟨-, hnone⟩⟩
  · have hpath := find?_isSome_iff.mp (Option.isSome_iff_exists.mpr ⟨id, hfind⟩)
    obtain ⟨directory, hmem, rfl⟩ := (h.mem_paths hplan).mp hpath
    have hlt := length_lt_of_stem hstem
    rcases h.directoryKey_root hmem with rfl | ⟨rest, hrest⟩
    · exact (lt_irrefl _ hlt).elim
    · rw [hrest, List.length_append, List.length_cons] at hlt
      omega
  · exact (hother hplan.common.symm).elim
  · exact hnone

include hrecords

theorem Exportable.exists_record {directory : DirectoryRecord} (hmem : directory ∈ tree.directories) :
    ∃ same ∈ directories, IsRecordOf plan.layout (directoryKey directory) same := by
  obtain ⟨id, hid⟩ := h.exists_number hplan hmem
  obtain ⟨same, hsame, -, hrecord⟩ := hrecords.record _ id hid
  exact ⟨same, hsame, hrecord⟩

theorem Exportable.isRecordOf_directoryKey {directory : DirectoryRecord} (hmem : directory ∈ directories) :
    IsRecordOf plan.layout (directoryKey directory) directory := by
  obtain ⟨path, hrecord⟩ := hrecords.path directory hmem
  rwa [(h.directoryKey_record hplan hrecord).1]

theorem Exportable.record_injective {first second : DirectoryRecord} (hfirst : first ∈ directories)
    (hsecond : second ∈ directories) (hkey : directoryKey first = directoryKey second) :
    first = second := by
  have hnumber := (h.isRecordOf_directoryKey hplan hrecords hfirst).number
  rw [hkey, (h.isRecordOf_directoryKey hplan hrecords hsecond).number] at hnumber
  exact List.inj_on_of_nodup_map hrecords.ids hfirst hsecond (Option.some.inj hnumber).symm

/-- The records are spelled by the paths of the tree. -/
theorem Exportable.spelledDirectories_record {top : DirectoryRecord} (htop : top ∈ directories)
    (hrecord : IsRecordOf plan.layout (directoryKey root) top) : SpelledDirectories directories top where
  ids := hrecords.ids
  keys first hfirst second hsecond hkey := h.record_injective hplan hrecords hfirst hsecond hkey
  rootMem := htop
  rootLike parent hparent := by
    rw [h.parent_root hplan hrecord] at hparent
    cases hparent
  above directory hmem hne := by
    have hdirectory := h.isRecordOf_directoryKey hplan hrecords hmem
    obtain ⟨-, original, horiginal, hkey⟩ := h.directoryKey_record hplan hdirectory
    have hother : original ≠ root := by
      rintro rfl
      refine hne (h.record_injective hplan hrecords hmem htop ?_)
      rw [(h.directoryKey_record hplan hrecord).1, hkey]
    obtain ⟨parent, hparent, -, hstem⟩ := h.stem_directoryKey horiginal hother
    obtain ⟨id, hid⟩ := h.exists_number hplan hparent
    obtain ⟨above, habove, rfl, haboveRecord⟩ := hrecords.record _ id hid
    obtain ⟨name, hname, hclean⟩ := stem_eq_some_iff.mp hstem
    have hparentId := hdirectory.parent
    rw [parentOfPath, ← hkey, hstem, Option.bind_some, hid] at hparentId
    refine ⟨above, habove, (Except.ok.inj hparentId).symm, name, hclean, ?_⟩
    rw [(h.directoryKey_record hplan haboveRecord).1, ← hkey, hname]

theorem Exportable.perm_directoryKey :
    (directories.map directoryKey).Perm (tree.directories.map directoryKey) := by
  have hfirst : (directories.map directoryKey).Nodup :=
    List.Nodup.map_on (fun _ ha _ hb hkey ↦ h.record_injective hplan hrecords ha hb hkey)
      hrecords.ids.of_map
  have hsecond : (tree.directories.map directoryKey).Nodup :=
    List.Nodup.map_on (fun _ ha _ hb hkey ↦ h.directoryKey_injective ha hb hkey) h.isBuilt.ids.of_map
  refine (List.perm_ext_iff_of_nodup hfirst hsecond).mpr fun path ↦ ?_
  rw [List.mem_map, List.mem_map]
  constructor
  · rintro ⟨directory, hmem, rfl⟩
    exact (h.directoryKey_record hplan (h.isRecordOf_directoryKey hplan hrecords hmem)).2
  · rintro ⟨directory, hmem, rfl⟩
    obtain ⟨same, hsame, hrecord⟩ := h.exists_record hplan hrecords hmem
    exact ⟨same, hsame, (h.directoryKey_record hplan hrecord).1⟩

end Directories

/-! ## Trees -/

/-- A file of the tree and its time. -/
def timedFile (tree : TreeIndex) (file : FileRecord) : (List Char × UInt64 × UInt64) × Option Int64 :=
  (displayedFile tree file, file.timestamps.modified)

/-- The directories and their totals are the same, and the files to the second. -/
structure Reopens (tree read : TreeIndex) : Prop where
  directories : (read.directories.map directoryKey).Perm (tree.directories.map directoryKey)
  totals : ∀ directory ∈ tree.directories, ∀ same ∈ read.directories,
    directoryKey same = directoryKey directory → ∃ first second,
      tree.rollupFor directory.id.val = some first ∧ read.rollupFor same.id.val = some second ∧
        SameTotals first second
  files : (read.files.map (timedFile read)).Perm (tree.files.map fun file ↦
    (displayedFile tree file, file.timestamps.modified.map wholeSeconds))

section Trees

variable {toLowercase : List Char → List Char} {tree read : TreeIndex} {root : DirectoryRecord}
  (h : Exportable toLowercase tree root) {plan : ImportPlan} (hplan : Mirrors tree root plan)
  (hplanned : Planned plan) (hbuilt : read.IsBuilt)
  (hdirectories : read.directories.Perm plan.transaction.directories.records)
  (hfiles : read.files.Perm plan.transaction.files.records)
  (htimes : plan.transaction.files.records.map timedFacts = plan.rows.filterMap timedOf)

include hplanned hfiles in
theorem timedFile_eq_timedFacts {file : FileRecord} (hmem : file ∈ read.files) :
    timedFile read file = timedFacts file := by
  obtain ⟨above, hstem, -⟩ := hplanned.parents file (hfiles.mem_iff.mp hmem)
  have hne : file.fullPath ≠ "" := by
    intro hempty
    obtain ⟨name, hpath, -⟩ := stem_eq_some_iff.mp hstem
    rw [hempty] at hpath
    exact List.append_ne_nil_of_right_ne_nil _ (List.cons_ne_nil _ _) hpath.symm
  rw [timedFile, displayedFile, TreeIndex.fileDisplayPath, if_pos hne]
  rfl

include h hplan hplanned hbuilt hdirectories hfiles in
theorem Exportable.exists_spelledTree : ∃ top, SpelledTree read top := by
  have hrecords := hplanned.records.perm hdirectories
  obtain ⟨top, htop, hrecord⟩ := h.exists_record hplan hrecords h.rootMem
  refine ⟨top, hbuilt, ?_, h.spelledDirectories_record hplan hrecords htop hrecord, fun file hmem ↦ ?_⟩
  · exact hfiles.length_eq.trans_lt (hplanned.length_files_lt (h.fits hplan))
  · obtain ⟨above, hstem, hfind⟩ := hplanned.parents file (hfiles.mem_iff.mp hmem)
    obtain ⟨parent, hparent, hid, hparentRecord⟩ := hrecords.record above _ hfind
    obtain ⟨name, hpath, hname⟩ := stem_eq_some_iff.mp hstem
    have hdisplay := congrArg Prod.fst (congrArg Prod.fst
      (timedFile_eq_timedFacts hplanned hfiles hmem))
    refine ⟨parent, hparent, hid, name, hname, hdisplay.trans ?_⟩
    rw [(h.directoryKey_record hplan hparentRecord).1]
    exact hpath

include h hplan hplanned hfiles htimes in
theorem Exportable.perm_timedFile : (read.files.map (timedFile read)).Perm (tree.files.map fun file ↦
    (displayedFile tree file, file.timestamps.modified.map wholeSeconds)) := by
  have hfacts : read.files.map (timedFile read) = read.files.map timedFacts :=
    List.map_congr_left fun file hmem ↦ timedFile_eq_timedFacts hplanned hfiles hmem
  rw [hfacts, ← h.filterMap_timedOf, ← hplan.rows, ← htimes]
  exact hfiles.map timedFacts

include h hplan hplanned hbuilt hdirectories hfiles htimes in
/-- What is put together from the plan of the tree has what the tree has. -/
theorem Exportable.reopens : Reopens tree read := by
  have hperm := h.perm_timedFile hplan hplanned hfiles htimes
  obtain ⟨top, hspelled⟩ := h.exists_spelledTree hplan hplanned hbuilt hdirectories hfiles
  refine ⟨h.perm_directoryKey hplan (hplanned.records.perm hdirectories),
    fun directory hmem same hsame hkey ↦ ?_, hperm⟩
  have hdisplayed := (hperm.map Prod.fst).symm
  rw [List.map_map, List.map_map] at hdisplayed
  exact h.spelledTree.sameTotals hspelled hdisplayed hmem hsame hkey.symm

end Trees

/-! ## Details -/

theorem find?_supplemental {tree : TreeIndex} (hids : (tree.files.map FileRecord.id).Nodup)
    (metadata : Metadata) {file : FileRecord} (hmem : file ∈ tree.files) :
    IdMap.find? ((supplemental tree metadata).foldl (fun exported entry ↦
        IdMap.set exported entry.1 entry.2) .empty) file.id.val =
      ((metadata.find? (tree.fileDisplayPath file).toList).map ImportedMetadata.exported).filter
        (· ≠ ⟨none, none, none, none⟩) := by
  have hpairs : supplemental tree metadata = tree.files.filterMap fun file ↦
      (((metadata.find? (tree.fileDisplayPath file).toList).map ImportedMetadata.exported).filter
        (· ≠ ⟨none, none, none, none⟩)).map (file.id.val, ·) := by
    refine List.filterMap_congr fun file _ ↦ ?_
    cases metadata.find? (tree.fileDisplayPath file).toList with
    | none => rfl
    | some details =>
        rw [Option.bind_some, Option.map_some, Option.filter_some]
        by_cases hempty : details.exported = ⟨none, none, none, none⟩ <;> simp [hempty]
  have hkeys : (tree.files.map fun file ↦ file.id.val).Nodup := by
    refine List.Nodup.of_map FileId.mk ?_
    rw [List.map_map]
    exact hids
  rw [hpairs]
  exact IdMap.find?_ofPairs_filterMap hkeys _ hmem

/-- A file of the same path has the same attributes and extras, and its times to the second. -/
def KeepsDetails (tree : TreeIndex) (extras : List FileExportMetadata) (catalog : TreeCatalog) : Prop :=
  ∀ entry ∈ tree.files.zip extras, ∀ same ∈ catalog.tree.files,
    catalog.tree.fileDisplayPath same = tree.fileDisplayPath entry.1 →
      same.attributes = entry.1.attributes ∧
      same.timestamps.created = entry.1.timestamps.created.map wholeSeconds ∧
      same.timestamps.accessed = entry.1.timestamps.accessed.map wholeSeconds ∧
      catalog.exportMetadata.find? same.id.val =
        (some (keptExtras entry.2)).filter (· ≠ ⟨none, none, none, none⟩)

/-- What is known of a file of an opened catalog, besides what its row says. -/
structure HasMetadata (metadata : Metadata) (catalog : TreeCatalog) (file : FileRecord) : Prop where
  details : HasDetails metadata file
  path : (catalog.tree.fileDisplayPath file).toList = file.fullPath.toList
  exported : catalog.exportMetadata.find? file.id.val =
    ((metadata.find? file.fullPath.toList).map ImportedMetadata.exported).filter
      (· ≠ ⟨none, none, none, none⟩)

/-- The metadata of all files by their paths, with what is kept of the further ones. -/
def metadataOf (tree : TreeIndex) (extras : List FileExportMetadata)
    (keep : FileExportMetadata → FileExportMetadata) : Metadata :=
  .ofPairs ((tree.files.zip extras).map fun entry ↦ ((tree.fileDisplayPath entry.1).toList,
    ⟨some entry.1.attributes.bits, entry.1.timestamps.created.map wholeSeconds,
      entry.1.timestamps.accessed.map wholeSeconds, keep entry.2⟩))

section Metadata

variable {toLowercase : List Char → List Char} {tree : TreeIndex} {root : DirectoryRecord}
  (h : Exportable toLowercase tree root) {extras : List FileExportMetadata}
  (hlength : tree.files.length = extras.length)

include h hlength

theorem Exportable.find?_metadataOf (keep : FileExportMetadata → FileExportMetadata)
    {entry : FileRecord × FileExportMetadata} (hmem : entry ∈ tree.files.zip extras) :
    (metadataOf tree extras keep).find? (tree.fileDisplayPath entry.1).toList =
      some ⟨some entry.1.attributes.bits, entry.1.timestamps.created.map wholeSeconds,
        entry.1.timestamps.accessed.map wholeSeconds, keep entry.2⟩ := by
  have hpaths : (tree.files.map fun file ↦ (tree.fileDisplayPath file).toList).Nodup := by
    have hdistinct := h.distinct.of_map
    rw [displayedPaths] at hdistinct
    exact hdistinct.of_append_right
  refine (IdMap.find?_ofPairs_iff ?_ _ _).mpr (List.mem_map_of_mem hmem)
  rw [List.map_map]
  rwa [← List.map_fst_zip hlength.le, List.map_map] at hpaths

/-- A file of the same path has what was written and kept. -/
theorem Exportable.keeps_metadataOf (keep : FileExportMetadata → FileExportMetadata) {catalog : TreeCatalog}
    (hfiles : ∀ file ∈ catalog.tree.files, HasMetadata (metadataOf tree extras keep) catalog file) :
    ∀ entry ∈ tree.files.zip extras, ∀ same ∈ catalog.tree.files,
      catalog.tree.fileDisplayPath same = tree.fileDisplayPath entry.1 →
        same.attributes = entry.1.attributes ∧
        same.timestamps.created = entry.1.timestamps.created.map wholeSeconds ∧
        same.timestamps.accessed = entry.1.timestamps.accessed.map wholeSeconds ∧
        catalog.exportMetadata.find? same.id.val =
          (some (keep entry.2)).filter (· ≠ ⟨none, none, none, none⟩) := by
  intro entry hentry same hsame hpath
  obtain ⟨⟨hattributes, hcreated, haccessed⟩, hdisplay, hexported⟩ := hfiles same hsame
  have hfind := h.find?_metadataOf hlength keep hentry
  rw [← hpath, hdisplay] at hfind
  rw [hfind] at hattributes hcreated haccessed hexported
  exact ⟨hattributes, hcreated, haccessed, hexported⟩

end Metadata

end CatalogText

end WinBlaze
