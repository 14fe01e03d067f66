import Mathlib.Data.List.DropRight
import Mathlib.Data.List.ReduceOption
import WinBlaze.Index.ImportLayout

/-!
# The tree of an imported catalog

The files of the tree are those of the rows, each beneath the directory its path
names, every directory row has its totals, and the root has those of all files.
-/

namespace WinBlaze

namespace CatalogText

open Attempts

/-! ## Records of a transaction -/

theorem foldl_insertDirectory_eq (directories : List DirectoryRecord) (tx : BufferedIndexTransaction) :
    directories.foldl BufferedIndexTransaction.insertDirectory tx =
      { tx with directories := directories.foldl KeyedArena.insert tx.directories } := by
  induction directories generalizing tx with
  | nil => rfl
  | cons directory rest ih => exact ih (tx.insertDirectory directory)

theorem foldl_insertFile_eq (files : List FileRecord) (tx : BufferedIndexTransaction) :
    files.foldl BufferedIndexTransaction.insertFile tx =
      { tx with files := files.foldl KeyedArena.insert tx.files } := by
  induction files generalizing tx with
  | nil => rfl
  | cons file rest ih => exact ih (tx.insertFile file)

/-- A number from one on, for what is at this place. -/
theorem number_injective {i j : ℕ} (hi : i < 2 ^ 64) (hj : j < 2 ^ 64)
    (h : UInt64.ofNat i + 1 = UInt64.ofNat j + 1) : i = j := by
  have hsame := congrArg UInt64.toNat (add_right_cancel h)
  simp only [UInt64.toNat_ofNat'] at hsame
  omega

theorem Numbered.nodup {directories : Directories} (h : Numbered directories)
    (hlength : directories.records.length < 2 ^ 32) : (directories.records.map Prod.snd).Nodup := by
  rw [h]
  refine List.Nodup.map_on (fun i hi j hj heq ↦ ?_) List.nodup_range
  rw [List.mem_range] at hi hj
  exact number_injective (by omega) (by omega) (congrArg DirectoryId.val heq)

/-! ## Directories -/

/-- The directory record of a path. -/
structure IsRecordOf (layout : Layout) (path : List Char) (directory : DirectoryRecord) : Prop where
  number : layout.directories.find? path = some directory.id
  fullPath : directory.fullPath.toList = directoryPath path
  parent : parentOfPath layout path = .ok directory.parentDirectoryId

theorem of_directoryRecord {layout : Layout} {entry : List Char × DirectoryId}
    (hentry : entry ∈ layout.directories.records) {directory : DirectoryRecord}
    (h : directoryRecord layout entry = .ok directory) :
    directory.id = entry.2 ∧ IsRecordOf layout entry.1 directory := by
  obtain ⟨parent, hparent, h⟩ := bind_eq_ok_iff.mp h
  obtain rfl := Except.ok.inj h
  exact ⟨rfl, (IdMap.find?_eq_some_iff _ _ _).mpr hentry, String.toList_ofList, hparent⟩

/-- The paths of the layout and the directory records are one to one. -/
structure RecordsOf (layout : Layout) (directories : List DirectoryRecord) : Prop where
  ids : (directories.map DirectoryRecord.id).Nodup
  length : directories.length = layout.directories.records.length
  injective : ∀ first second id, layout.directories.find? first = some id →
    layout.directories.find? second = some id → first = second
  path : ∀ directory ∈ directories, ∃ path, IsRecordOf layout path directory
  record : ∀ path id, layout.directories.find? path = some id →
    ∃ directory ∈ directories, directory.id = id ∧ IsRecordOf layout path directory

theorem RecordsOf.perm {layout : Layout} {directories others : List DirectoryRecord}
    (h : RecordsOf layout directories) (hperm : others.Perm directories) : RecordsOf layout others where
  ids := (hperm.map _).nodup_iff.mpr h.ids
  length := hperm.length_eq.trans h.length
  injective := h.injective
  path directory hmem := h.path directory (hperm.mem_iff.mp hmem)
  record path id hfind := by
    obtain ⟨directory, hmem, hrecord⟩ := h.record path id hfind
    exact ⟨directory, hperm.mem_iff.mpr hmem, hrecord⟩

theorem recordsOf_of_mapM {rows : List Row} {layout : Layout} (hlaid : LaidOut rows layout)
    (hlength : layout.directories.records.length < 2 ^ 32) (order : HashOrder)
    {directories : List DirectoryRecord}
    (h : (order.entries layout.directories).mapM (directoryRecord layout) = .ok directories) :
    RecordsOf layout directories := by
  have hperm := order.perm layout.directories
  have hnodup := hlaid.numbered.nodup hlength
  have hids : directories.map DirectoryRecord.id =
      (order.entries layout.directories).map Prod.snd :=
    map_eq_of_mapM h fun entry hentry directory hrecord ↦
      (of_directoryRecord (hperm.mem_iff.mp hentry) hrecord).1
  refine ⟨?_, ?_, fun first second id hfirst hsecond ↦ ?_, fun directory hmem ↦ ?_,
    fun path id hfind ↦ ?_⟩
  · rw [hids]
    exact (hperm.map Prod.snd).nodup_iff.mpr hnodup
  · exact (forall₂_of_mapM h).length_eq.symm.trans hperm.length_eq
  · rw [IdMap.find?_eq_some_iff] at hfirst hsecond
    exact congrArg Prod.fst (List.inj_on_of_nodup_map hnodup hfirst hsecond rfl)
  · obtain ⟨entry, hentry, hrecord⟩ := exists_of_mem_mapM h hmem
    exact ⟨entry.1, (of_directoryRecord (hperm.mem_iff.mp hentry) hrecord).2⟩
  · have hentry := (IdMap.find?_eq_some_iff _ _ _).mp hfind
    obtain ⟨directory, hmem, hrecord⟩ := exists_mem_of_mapM h (hperm.mem_iff.mpr hentry)
    exact ⟨directory, hmem, of_directoryRecord hentry hrecord⟩

/-! ## Parents -/

/-- The parent is the directory above, else the common one of several roots. -/
theorem parentOfPath_cases {layout : Layout} {path : List Char} {parent : Option DirectoryId}
    (h : parentOfPath layout path = .ok parent) :
    (∃ above id, stem path = some above ∧ layout.directories.find? above = some id ∧ parent = some id) ∨
      (stem path).bind layout.directories.find? = none ∧
        ((layout.multiple = true ∧ path ≠ layout.common) ∧
            (∃ id, layout.directories.find? layout.common = some id ∧ parent = some id) ∨
          ¬ (layout.multiple = true ∧ path ≠ layout.common) ∧ parent = none) := by
  unfold parentOfPath at h
  split at h
  case h_1 id hstem =>
    obtain ⟨above, habove, hfind⟩ := Option.bind_eq_some_iff.mp hstem
    exact .inl ⟨above, id, habove, hfind, (Except.ok.inj h).symm⟩
  case h_2 hstem =>
    refine .inr ⟨hstem, ?_⟩
    simp only [Bool.and_eq_true, decide_eq_true_iff] at h
    split at h
    case isTrue hmultiple =>
      obtain ⟨id, hid, hsome⟩ := map_eq_ok_iff.mp h
      exact .inl ⟨hmultiple, id, orPanic_eq_ok_iff.mp hid, hsome.symm⟩
    case isFalse hsingle => exact .inr ⟨hsingle, (Except.ok.inj h).symm⟩

/-- The directory that all others hang off has none above it. -/
def RootOnTop (layout : Layout) : Prop :=
  layout.multiple = true → (stem layout.common).bind layout.directories.find? = none

def pathRank (layout : Layout) (path : List Char) : ℕ :=
  if layout.multiple = true ∧ path = layout.common then 0 else path.length + 1

/-- A parent is another directory, of a smaller rank where the root is on top. -/
theorem exists_of_parentOfPath {layout : Layout} {path : List Char} {parent : DirectoryId}
    (h : parentOfPath layout path = .ok (some parent)) :
    ∃ parentPath, layout.directories.find? parentPath = some parent ∧ parentPath ≠ path ∧
      (RootOnTop layout → pathRank layout parentPath < pathRank layout path) := by
  rcases parentOfPath_cases h with ⟨above, id, habove, hfind, hid⟩ |
    ⟨-, ⟨⟨hmultiple, hpath⟩, id, hfind, hid⟩ | ⟨-, hnone⟩⟩
  · obtain rfl := Option.some.inj hid
    have hlt := length_lt_of_stem habove
    refine ⟨above, hfind, fun heq ↦ hlt.ne (congrArg List.length heq), fun hroot ↦ ?_⟩
    have hpath : ¬ (layout.multiple = true ∧ path = layout.common) := by
      rintro ⟨hmultiple, rfl⟩
      have hnone := hroot hmultiple
      rw [habove, Option.bind_some, hfind] at hnone
      cases hnone
    unfold pathRank
    rw [if_neg hpath]
    split <;> omega
  · obtain rfl := Option.some.inj hid
    refine ⟨layout.common, hfind, hpath.symm, fun _ ↦ ?_⟩
    unfold pathRank
    rw [if_pos ⟨hmultiple, rfl⟩, if_neg fun hboth ↦ hpath hboth.2]
    exact Nat.succ_pos _
  · cases hnone

section Records

variable {layout : Layout} {directories : List DirectoryRecord} (h : RecordsOf layout directories)

include h

theorem acyclicParents_of_recordsOf (hroot : RootOnTop layout) : AcyclicParents directories := by
  classical
  let rank : DirectoryId → ℕ := fun id ↦
    if hid : ∃ path, layout.directories.find? path = some id then pathRank layout hid.choose else 0
  have hrank : ∀ path id, layout.directories.find? path = some id → rank id = pathRank layout path := by
    intro path id hfind
    have hexists : ∃ path, layout.directories.find? path = some id := ⟨path, hfind⟩
    have hsame := h.injective _ _ _ hexists.choose_spec hfind
    exact (dif_pos hexists).trans (congrArg (pathRank layout) hsame)
  refine acyclicParents_of_rank rank fun directory hmem parent hparent _ ↦ ?_
  obtain ⟨path, hrecord⟩ := h.path directory hmem
  obtain ⟨parentPath, hfind, -, hlt⟩ := exists_of_parentOfPath (hparent ▸ hrecord.parent)
  rw [hrank path _ hrecord.number, hrank parentPath _ hfind]
  exact hlt hroot

/-- Only the directory on top is without a parent. -/
theorem rootOnTop_of_rootLike {directory : DirectoryRecord} (hmem : directory ∈ directories)
    (hlike : RootLike directories directory) : RootOnTop layout := by
  intro hmultiple
  obtain ⟨path, hrecord⟩ := h.path directory hmem
  cases hparent : directory.parentDirectoryId with
  | some parent =>
      obtain ⟨parentPath, hfind, hne, -⟩ := exists_of_parentOfPath (hparent ▸ hrecord.parent)
      rcases hlike parent hparent with rfl | habsent
      · exact (hne (h.injective _ _ _ hfind hrecord.number)).elim
      · obtain ⟨above, haboveMem, rfl, -⟩ := h.record parentPath parent hfind
        have hall := List.findIdx?_eq_none_iff.mp habsent above haboveMem
        simp at hall
  | none =>
      rcases parentOfPath_cases (hparent ▸ hrecord.parent) with ⟨above, id, -, -, hid⟩ |
        ⟨hstem, ⟨-, id, -, hid⟩ | ⟨hnot, -⟩⟩
      · cases hid
      · cases hid
      · have hpath : path = layout.common := by
          by_contra hne
          exact hnot ⟨hmultiple, hne⟩
        exact hpath ▸ hstem

end Records

/-! ## Files -/

/-- Path, logical and allocated bytes of the file of a row. -/
def fileOf (row : Row) : Option (List Char × UInt64 × UInt64) :=
  if row[1]? = some "File".toList then
    (row[0]?).bind fun path ↦ ((row[2]?).bind parseU64).bind fun logical ↦
      ((row[3]?).bind parseU64).map fun allocated ↦ (path, logical, allocated)
  else none

def fileFacts (file : FileRecord) : List Char × UInt64 × UInt64 :=
  (file.fullPath.toList, file.sizeBytes, file.allocationBytes)

/-- The file record of a row and its place. -/
structure IsFileOf (layout : Layout) (entry : Row × ℕ) (file : FileRecord) : Prop where
  id : file.id = ⟨.ofNat entry.2 + 1⟩
  facts : fileOf entry.1 = some (fileFacts file)
  parent : ∃ above, stem file.fullPath.toList = some above ∧
    layout.directories.find? above = some file.parentDirectoryId

theorem fileOf_of_isDirectory {row : Row} (h : isDirectory row = true) : fileOf row = none := by
  rw [fileOf, of_decide_eq_true h]
  exact if_neg (by decide)

/-- Attributes and times are those of the details of the path. -/
structure HasDetails (metadata : Metadata) (file : FileRecord) : Prop where
  attributes : file.attributes = (((metadata.find? file.fullPath.toList).bind
    ImportedMetadata.attributes).map FileAttributes.mk).getD .archive
  created : file.timestamps.created =
    (metadata.find? file.fullPath.toList).bind ImportedMetadata.created
  accessed : file.timestamps.accessed =
    (metadata.find? file.fullPath.toList).bind ImportedMetadata.accessed

section Record

variable {layout : Layout} {allowLegacyTicks : Bool} {metadata : Metadata} {entry : Row × ℕ}

/-- Only directories have no file record, and all a record has is in its row and its details. -/
theorem fileRecord_cases {result : Option FileRecord}
    (h : fileRecord layout allowLegacyTicks metadata entry = .ok result) :
    isDirectory entry.1 = true ∧ result = none ∨
      isDirectory entry.1 = false ∧ ∃ file, result = some file ∧ IsFileOf layout entry file ∧
        (∃ text, entry.1[6]? = some text ∧
          modifiedTime allowLegacyTicks text = .ok file.timestamps.modified) ∧
        HasDetails metadata file := by
  unfold fileRecord at h
  dsimp only at h
  split at h
  case isTrue hdirectory => exact .inl ⟨hdirectory, (Except.ok.inj h).symm⟩
  case isFalse hfile =>
    simp only [bind_eq_ok_iff, ensure_eq_ok_iff, column_eq_ok_iff, orInvalid_eq_ok_iff,
      pure_eq_ok_iff] at h
    obtain ⟨_, hkind, path, hpath, parts, hparts, parent, hparent, logical, hlogical, size, hsize,
      physical, hphysical, allocation, hallocation, text, htext, modified, hmodified, rfl⟩ := h
    refine .inr ⟨Bool.not_eq_true _ ▸ hfile, _, rfl, ⟨rfl, ?_, parts.1, ?_, hparent⟩,
      ⟨text, htext, hmodified⟩, ?_⟩
    · rw [fileOf, if_pos (of_decide_eq_true hkind), hpath, hlogical, hphysical]
      simp only [Option.bind_some, hsize, hallocation, Option.map_some, fileFacts, String.toList_ofList]
    · rw [String.toList_ofList, stem, hparts, Option.map_some]
    · constructor <;> rw [String.toList_ofList]

theorem of_fileRecord {result : Option FileRecord}
    (h : fileRecord layout allowLegacyTicks metadata entry = .ok result) :
    isDirectory entry.1 = true ∧ result = none ∨
      isDirectory entry.1 = false ∧ ∃ file, result = some file ∧ IsFileOf layout entry file := by
  rcases fileRecord_cases h with hdirectory | ⟨hother, file, hsome, hfile, -⟩
  · exact .inl hdirectory
  · exact .inr ⟨hother, file, hsome, hfile⟩

theorem of_fileRecord_some {file : FileRecord}
    (h : fileRecord layout allowLegacyTicks metadata entry = .ok (some file)) :
    IsFileOf layout entry file ∧ (∃ text, entry.1[6]? = some text ∧
      modifiedTime allowLegacyTicks text = .ok file.timestamps.modified) ∧ HasDetails metadata file := by
  rcases fileRecord_cases h with ⟨-, hnone⟩ | ⟨-, other, hsome, hfile⟩
  · cases hnone
  · exact Option.some.inj hsome ▸ hfile

end Record

section Files

variable {layout : Layout} {allowLegacyTicks : Bool} {metadata : Metadata} {rows : List Row}
  {results : List (Option FileRecord)}
  (h : rows.zipIdx.mapM (fileRecord layout allowLegacyTicks metadata) = .ok results)

include h

/-- What the files of the rows have is what the rows say of them. -/
theorem map_of_mapM {β : Type} {view : FileRecord → β} {of : Row → Option β}
    (hdirectories : ∀ row, isDirectory row = true → of row = none)
    (hfiles : ∀ entry file, fileRecord layout allowLegacyTicks metadata entry = .ok (some file) →
      of entry.1 = some (view file)) : results.reduceOption.map view = rows.filterMap of := by
  have hmap : results.map (Option.map view) = rows.zipIdx.map fun entry ↦ of entry.1 := by
    refine map_eq_of_mapM h fun entry _ result hresult ↦ ?_
    rcases of_fileRecord hresult with ⟨hdirectory, rfl⟩ | ⟨-, file, rfl, -⟩
    · exact (hdirectories _ hdirectory).symm
    · exact (hfiles entry file hresult).symm
  have hrows : (rows.zipIdx.map fun entry ↦ of entry.1) = rows.map of := by
    rw [← Function.comp_def of, ← List.map_map, List.zipIdx_map_fst]
  rw [← List.reduceOption_map, hmap, hrows, List.reduceOption, List.filterMap_map]
  rfl

theorem map_fileFacts_of_mapM : results.reduceOption.map fileFacts = rows.filterMap fileOf := by
  refine map_of_mapM h (fun row ↦ fileOf_of_isDirectory) fun entry file hresult ↦ ?_
  exact (of_fileRecord_some hresult).1.facts

theorem nodup_of_mapM (hlength : rows.length < 2 ^ 64) :
    (results.reduceOption.map FileRecord.id).Nodup := by
  have hmap : results.map (Option.map FileRecord.id) = rows.zipIdx.map fun entry ↦
      if isDirectory entry.1 then none else some ⟨.ofNat entry.2 + 1⟩ := by
    refine map_eq_of_mapM h fun entry _ result hresult ↦ ?_
    rcases of_fileRecord hresult with ⟨hdirectory, rfl⟩ | ⟨hother, file, rfl, hfile⟩
    · rw [hdirectory, if_pos rfl, Option.map_none]
    · rw [hother, if_neg Bool.false_ne_true, Option.map_some, hfile.id]
  have hplaces : rows.zipIdx.Pairwise (fun a b ↦ a.2 < b.2) := by
    refine List.pairwise_map.mp ?_
    rw [List.zipIdx_map_snd]
    exact List.pairwise_lt_range'
  rw [← List.reduceOption_map, hmap, List.reduceOption, List.filterMap_map, List.Nodup,
    List.pairwise_filterMap]
  refine hplaces.imp_of_mem fun {a b} ha hb hlt id hid other hother heq ↦ ?_
  have hside : ∀ {entry : Row × ℕ} {id : FileId}, id ∈ (if isDirectory entry.1 then none
      else some (⟨.ofNat entry.2 + 1⟩ : FileId)) → id = ⟨.ofNat entry.2 + 1⟩ := by
    intro entry id hid
    split at hid
    · cases hid
    · exact (Option.some.inj hid).symm
  have hfirst := (List.getElem?_eq_some_iff.mp (List.mem_zipIdx_iff_getElem?.mp ha)).1
  have hsecond := (List.getElem?_eq_some_iff.mp (List.mem_zipIdx_iff_getElem?.mp hb)).1
  have hsame := (hside hid).symm.trans (heq.trans (hside hother))
  exact hlt.ne (number_injective (by omega) (by omega) (congrArg FileId.val hsame))

theorem parents_of_mapM : ∀ file ∈ results.reduceOption, ∃ above,
    stem file.fullPath.toList = some above ∧
      layout.directories.find? above = some file.parentDirectoryId := by
  intro file hmem
  obtain ⟨entry, -, hresult⟩ := exists_of_mem_mapM h (List.reduceOption_mem_iff.mp hmem)
  exact (of_fileRecord_some hresult).1.parent

theorem kinds_of_mapM : ∀ row ∈ rows, isDirectory row = true ∨ (fileOf row).isSome = true := by
  intro row hrow
  obtain ⟨index, hindex⟩ := List.mem_iff_getElem?.mp hrow
  obtain ⟨result, -, hresult⟩ := exists_mem_of_mapM h (List.mk_mem_zipIdx_iff_getElem?.mpr hindex)
  rcases of_fileRecord hresult with ⟨hdirectory, -⟩ | ⟨-, file, -, hfile⟩
  · exact .inl hdirectory
  · exact .inr (hfile.facts ▸ rfl)

end Files

/-! ## Plans -/

def isFile (row : Row) : Bool := !isDirectory row

structure Planned (plan : ImportPlan) : Prop where
  laid : LaidOut plan.rows plan.layout
  records : RecordsOf plan.layout plan.transaction.directories.records
  files : plan.transaction.files.records.map fileFacts = plan.rows.filterMap fileOf
  kinds : ∀ row ∈ plan.rows, isDirectory row = true ∨ (fileOf row).isSome = true
  parents : ∀ file ∈ plan.transaction.files.records, ∃ above,
    stem file.fullPath.toList = some above ∧
      plan.layout.directories.find? above = some file.parentDirectoryId

/-- Directories and files each have a number of 32 bits. -/
structure ImportPlan.Fits (plan : ImportPlan) : Prop where
  directories : plan.layout.directories.records.length < 2 ^ 32
  files : plan.rows.countP isFile < 2 ^ 32

theorem foldl_insert_eq (directories : List DirectoryRecord) (files : List FileRecord) :
    files.foldl BufferedIndexTransaction.insertFile
        (directories.foldl BufferedIndexTransaction.insertDirectory {}) =
      { directories := KeyedArena.ofList directories, files := KeyedArena.ofList files } := by
  rw [foldl_insertDirectory_eq, foldl_insertFile_eq]
  rfl

theorem LaidOut.length_lt {rows : List Row} {layout : Layout} (h : LaidOut rows layout)
    (hdirectories : layout.directories.records.length < 2 ^ 32) (hfiles : rows.countP isFile < 2 ^ 32) :
    rows.length < 2 ^ 64 := by
  have hothers : rows.countP isFile = rows.countP fun row ↦ ¬ isDirectory row = true :=
    List.countP_congr fun row _ ↦ by simp [isFile]
  have hsplit := List.length_eq_countP_add_countP isDirectory (l := rows)
  have hold := h.count
  omega

theorem of_planImport {toLowercase : List Char → List Char} {order : HashOrder} {table : Table}
    {plan : ImportPlan} (h : planImport toLowercase order table = .ok plan) (hfits : plan.Fits) :
    table.rows.tail.mapM trimRow = .ok plan.rows ∧ Planned plan := by
  obtain ⟨rows, hrows, h⟩ := bind_eq_ok_iff.mp h
  obtain ⟨layout, hlayout, h⟩ := bind_eq_ok_iff.mp h
  obtain ⟨directories, hdirectories, h⟩ := bind_eq_ok_iff.mp h
  obtain ⟨files, hfiles, h⟩ := bind_eq_ok_iff.mp h
  obtain rfl := Except.ok.inj h
  have hlaid := of_layoutOf hlayout
  have hrecords := recordsOf_of_mapM hlaid hfits.directories order hdirectories
  have hcount := hlaid.length_lt hfits.directories hfits.files
  have hstored := foldl_insert_eq directories files.reduceOption
  refine ⟨hrows, hlaid, ?_, ?_, kinds_of_mapM hfiles, ?_⟩
  · rw [hstored]
    exact (KeyedArena.ofList_records hrecords.ids).symm ▸ hrecords
  · rw [hstored, KeyedArena.ofList_records (nodup_of_mapM hfiles hcount)]
    exact map_fileFacts_of_mapM hfiles
  · rw [hstored, KeyedArena.ofList_records (nodup_of_mapM hfiles hcount)]
    exact parents_of_mapM hfiles

/-! ## Trees -/

/-- The tree has what the rows say. -/
structure Describes (tree : TreeIndex) (rows : List Row) : Prop where
  kinds : ∀ row ∈ rows, isDirectory row = true ∨ (fileOf row).isSome = true
  files : (tree.files.map fileFacts).Perm (rows.filterMap fileOf)
  directories : ∀ row ∈ rows, isDirectory row = true → ∃ path, row[0]? = some path ∧
    ∃ directory ∈ tree.directories,
      trimEndBackslashes directory.fullPath.toList = trimEndBackslashes path ∧
      ∃ rollup, tree.rollupFor directory.id.val = some rollup ∧
        (row[2]?).bind parseU64 = some rollup.logicalBytes ∧
        (row[3]?).bind parseU64 = some rollup.physicalBytes ∧
        (row[4]?).bind parseU64 = some rollup.fileCount
  parents : ∀ file ∈ tree.files, ∃ above, stem file.fullPath.toList = some above ∧
    ∃ directory ∈ tree.directories, directory.id = file.parentDirectoryId ∧
      (directory.fullPath.toList = above ∨ directory.fullPath.toList = above ++ ['\\'])
  root : ∃ root rollup, tree.rootEntry = some (root, rollup) ∧
    rollup.logicalBytes.toNat =
      min ((rows.filterMap fileOf).map fun file ↦ file.2.1.toNat).sum (2 ^ 64 - 1) ∧
    rollup.physicalBytes.toNat =
      min ((rows.filterMap fileOf).map fun file ↦ file.2.2.toNat).sum (2 ^ 64 - 1) ∧
    rollup.fileCount.toNat = (rows.filterMap fileOf).length

theorem directoryPath_cases (path : List Char) :
    directoryPath path = path ∨ directoryPath path = path ++ ['\\'] := by
  unfold directoryPath
  split
  · exact .inr rfl
  · exact .inl rfl

theorem trimEndBackslashes_append (path : List Char) :
    trimEndBackslashes (path ++ ['\\']) = trimEndBackslashes path := by
  simp [trimEndBackslashes]

theorem trimEndBackslashes_idem (path : List Char) :
    trimEndBackslashes (trimEndBackslashes path) = trimEndBackslashes path := by
  simp only [trimEndBackslashes, List.reverse_reverse, List.dropWhile_idempotent]

theorem trimEndBackslashes_directoryPath (path : List Char) :
    trimEndBackslashes (directoryPath path) = trimEndBackslashes path := by
  rcases directoryPath_cases path with h | h
  · rw [h]
  · rw [h, trimEndBackslashes_append]

theorem of_checkTotals {tree : TreeIndex} {directories : Directories} {row : Row}
    (hdirectory : isDirectory row = true) (h : checkTotals tree directories row = .ok ()) :
    ∃ path id rollup, row[0]? = some path ∧ directories.find? path = some id ∧
      tree.rollupFor id.val = some rollup ∧ (row[2]?).bind parseU64 = some rollup.logicalBytes ∧
      (row[3]?).bind parseU64 = some rollup.physicalBytes ∧
      (row[4]?).bind parseU64 = some rollup.fileCount := by
  rw [checkTotals, if_pos hdirectory] at h
  simp only [bind_eq_ok_iff, column_eq_ok_iff, orPanic_eq_ok_iff, orInvalid_eq_ok_iff,
    ensure_eq_ok_iff, Bool.and_eq_true, decide_eq_true_iff] at h
  obtain ⟨path, hpath, id, hid, rollup, hrollup, first, hfirst, logical, hlogical, second, hsecond,
    physical, hphysical, third, hthird, count, hcount, ⟨rfl, rfl⟩, rfl⟩ := h
  refine ⟨path, id, rollup, hpath, hid, hrollup, ?_, ?_, ?_⟩
  · rw [hfirst, Option.bind_some, hlogical]
  · rw [hsecond, Option.bind_some, hphysical]
  · rw [hthird, Option.bind_some, hcount]

theorem Planned.length_files_lt {plan : ImportPlan} (h : Planned plan) (hfits : plan.Fits) :
    plan.transaction.files.records.length < 2 ^ 32 := by
  have hlength := congrArg List.length h.files
  rw [List.length_map, List.length_filterMap_eq_countP] at hlength
  rw [hlength]
  refine (List.countP_mono_left fun row _ hsome ↦ ?_).trans_lt hfits.files
  cases hdirectory : isDirectory row with
  | true =>
      rw [fileOf_of_isDirectory hdirectory] at hsome
      cases hsome
  | false => exact congrArg Bool.not hdirectory

/-- The totals of the root are those of all files. -/
theorem rootTotals {tree : TreeIndex} {layout : Layout} {files : List (List Char × UInt64 × UInt64)}
    (h : tree.IsBuilt) (hrecords : RecordsOf layout tree.directories) (hcount : tree.files.length < 2 ^ 32)
    (hfacts : (tree.files.map fileFacts).Perm files) {root : DirectoryRecord} {rollup : DirRollup}
    (hentry : tree.rootEntry = some (root, rollup)) :
    rollup.logicalBytes.toNat = min (files.map fun file ↦ file.2.1.toNat).sum (2 ^ 64 - 1) ∧
      rollup.physicalBytes.toNat = min (files.map fun file ↦ file.2.2.toNat).sum (2 ^ 64 - 1) ∧
      rollup.fileCount.toNat = files.length := by
  obtain ⟨index, hroot, hentry⟩ := Option.bind_eq_some_iff.mp hentry
  obtain ⟨directory, hdirectory, hentry⟩ := Option.bind_eq_some_iff.mp hentry
  obtain ⟨node, hnode, hentry⟩ := Option.map_eq_some_iff.mp hentry
  obtain ⟨rfl, rfl⟩ := Prod.mk.inj hentry
  have hlike : ∃ directory ∈ tree.directories, RootLike tree.directories directory := by
    rcases chooseRoot_cases h.ids h.length with ⟨place, found, hplace, hfound, hlike⟩ | ⟨hnone, -⟩
    · exact ⟨found, List.mem_of_getElem? hfound, hlike⟩
    · rw [← h.root, hroot] at hnone
      cases hnone
  obtain ⟨found, hfound, hlike⟩ := hlike
  have hacyclic := acyclicParents_of_recordsOf hrecords (rootOnTop_of_rootLike hrecords hfound hlike)
  obtain ⟨total, htotal, hrollup⟩ := (h.hasTotals hacyclic hcount).rootRollup index hroot
  obtain rfl := Option.some.inj (hnode.symm.trans htotal)
  refine ⟨hrollup.logicalBytes.trans ?_, hrollup.physicalBytes.trans ?_, hrollup.fileCount.trans ?_⟩
  · have hsum := (hfacts.map fun file ↦ file.2.1.toNat).sum_eq
    rw [List.map_map] at hsum
    exact congrArg (min · _) hsum
  · have hsum := (hfacts.map fun file ↦ file.2.2.toNat).sum_eq
    rw [List.map_map] at hsum
    exact congrArg (min · _) hsum
  · rw [← hfacts.length_eq, List.length_map]

theorem of_finishImport {fuel : ℕ} {metadata : Metadata} {plan : ImportPlan} {catalog : TreeCatalog}
    (h : finishImport fuel metadata plan = .ok catalog) (hplanned : Planned plan) (hfits : plan.Fits)
    (hfuel : plan.layout.directories.records.length ≤ fuel) : Describes catalog.tree plan.rows := by
  obtain ⟨tree, hbuild, h⟩ := bind_eq_ok_iff.mp h
  obtain ⟨_, hroot, h⟩ := bind_eq_ok_iff.mp h
  obtain ⟨_, hchecks, h⟩ := bind_eq_ok_iff.mp h
  obtain rfl := Except.ok.inj h
  have hbuild : TreeIndex.build fuel plan.transaction = some tree := by
    cases hbuilt : TreeIndex.build fuel plan.transaction with
    | none =>
        rw [hbuilt] at hbuild
        cases hbuild
    | some other =>
        rw [hbuilt] at hbuild
        exact congrArg some (Except.ok.inj hbuild)
  have hlength := hplanned.records.length
  obtain ⟨built, hbuilt, hdirectories, hfiles, hisBuilt⟩ := TreeIndex.exists_build plan.transaction
    (hlength ▸ hfits.directories) (hplanned.length_files_lt hfits) (hlength ▸ hfuel)
  obtain rfl := Option.some.inj (hbuild.symm.trans hbuilt)
  have hfilesPerm : tree.files.Perm plan.transaction.files.records :=
    hfiles ▸ KeyOrder.sortByKey_perm _ _
  have hrecords : RecordsOf plan.layout tree.directories :=
    hplanned.records.perm (hdirectories ▸ KeyOrder.sortByKey_perm _ _)
  have hfacts : (tree.files.map fileFacts).Perm (plan.rows.filterMap fileOf) :=
    hplanned.files ▸ hfilesPerm.map fileFacts
  refine ⟨hplanned.kinds, hfacts, fun row hrow hdirectory ↦ ?_, fun file hmem ↦ ?_, ?_⟩
  · obtain ⟨path, id, rollup, hpath, hid, hrollup⟩ :=
      of_checkTotals hdirectory (forall_of_forM hchecks row hrow)
    obtain ⟨directory, hmem, rfl, hrecord⟩ := hrecords.record path id hid
    exact ⟨path, hpath, directory, hmem,
      hrecord.fullPath ▸ trimEndBackslashes_directoryPath path, rollup, hrollup⟩
  · obtain ⟨above, habove, hfind⟩ := hplanned.parents file (hfilesPerm.mem_iff.mp hmem)
    obtain ⟨directory, hdirectory, hid, hrecord⟩ := hrecords.record above _ hfind
    exact ⟨above, habove, directory, hdirectory, hid, hrecord.fullPath ▸ directoryPath_cases above⟩
  · obtain ⟨⟨root, rollup⟩, hentry⟩ := Option.isSome_iff_exists.mp (ensure_eq_ok_iff.mp hroot)
    exact ⟨root, rollup, hentry, rootTotals hisBuilt hrecords
      (hfilesPerm.length_eq ▸ hplanned.length_files_lt hfits) hfacts hentry⟩

theorem safe_checkTotals (tree : TreeIndex) {rows : List Row} {layout : Layout} (h : LaidOut rows layout)
    {row : Row} (hrow : row ∈ rows) : Safe (checkTotals tree layout.directories row) := by
  have hchecked := h.checked row hrow
  have hcount : ∀ {index}, 2 ≤ index → index < 6 → ∀ text, row[index]? = some text →
      Safe (orPanic (parseU64 text)) := by
    intro index hlow hhigh text htext
    obtain ⟨other, value, hother, hvalue⟩ := hchecked.exists_count hlow hhigh
    obtain rfl := Option.some.inj (htext.symm.trans hother)
    exact safe_orPanic (hvalue ▸ rfl)
  have hlength := hchecked.length
  refine safe_ite (fun hdirectory ↦ ?_) fun _ ↦ failsOnly_pure _
  refine safe_column_bind (by omega) fun path hpath ↦ (safe_orPanic ?_).bind fun id _ ↦ ?_
  · obtain ⟨start, hstart, hmem⟩ := h.starts row hrow
    obtain ⟨full, hfull, hstart⟩ := bind_eq_ok_iff.mp hstart
    obtain rfl := Option.some.inj (hpath.symm.trans (column_eq_ok_iff.mp hfull))
    rw [if_pos hdirectory] at hstart
    exact find?_isSome_iff.mpr (Except.ok.inj hstart ▸ hmem)
  · refine safe_orInvalid_bind fun totals _ ↦ ?_
    refine safe_column_bind (by omega) fun _ hfirst ↦ (hcount (by decide) (by decide) _ hfirst).bind
      fun _ _ ↦ ?_
    refine safe_column_bind (by omega) fun _ hsecond ↦ (hcount (by decide) (by decide) _ hsecond).bind
      fun _ _ ↦ ?_
    exact safe_column_bind (by omega) fun _ hthird ↦ (hcount (by decide) (by decide) _ hthird).bind
      fun _ _ ↦ safe_ensure _ _

theorem safe_finishImport {fuel : ℕ} (metadata : Metadata) {plan : ImportPlan} (hplanned : Planned plan)
    (hfits : plan.Fits) (hfuel : plan.layout.directories.records.length ≤ fuel) :
    Safe (finishImport fuel metadata plan) := by
  have hlength := hplanned.records.length
  obtain ⟨tree, hbuild⟩ := Option.isSome_iff_exists.mp (TreeIndex.build_isSome plan.transaction
    (hlength ▸ hfits.directories) (hlength ▸ hfuel))
  refine FailsOnly.bind (hbuild ▸ failsOnly_ok tree) fun tree _ ↦ safe_ensure_bind fun _ ↦ ?_
  exact (FailsOnly.forM fun row hrow ↦ safe_checkTotals tree hplanned.laid hrow).bind fun _ _ ↦
    failsOnly_pure _

/-! ## The rows as they were read -/

theorem of_trimRow {row result : Row} (h : trimRow row = .ok result) :
    isDirectory row = false ∧ result = row ∨ isDirectory row = true ∧ ∃ path,
      row[0]? = some path ∧ result = row.set 0 (trimEndBackslashes path) := by
  unfold trimRow at h
  split at h
  case isTrue hdirectory =>
    obtain ⟨path, hpath, h⟩ := bind_eq_ok_iff.mp h
    exact .inr ⟨hdirectory, path, column_eq_ok_iff.mp hpath, (Except.ok.inj h).symm⟩
  case isFalse hother => exact .inl ⟨Bool.not_eq_true _ ▸ hother, (Except.ok.inj h).symm⟩

theorem isDirectory_set (row : Row) (path : List Char) : isDirectory (row.set 0 path) = isDirectory row := by
  rw [isDirectory, List.getElem?_set_ne (by decide)]
  rfl

theorem fileOf_of_trimRow {row result : Row} (h : trimRow row = .ok result) : fileOf result = fileOf row := by
  rcases of_trimRow h with ⟨-, rfl⟩ | ⟨hdirectory, path, -, rfl⟩
  · rfl
  · rw [fileOf_of_isDirectory hdirectory, fileOf_of_isDirectory ((isDirectory_set _ _).trans hdirectory)]

theorem Describes.of_trimmed {tree : TreeIndex} {rows trimmed : List Row}
    (hrows : rows.mapM trimRow = .ok trimmed) (h : Describes tree trimmed) : Describes tree rows := by
  have hfiles : trimmed.filterMap fileOf = rows.filterMap fileOf := by
    have hmap : trimmed.map fileOf = rows.map fileOf :=
      map_eq_of_mapM hrows fun row _ result hresult ↦ fileOf_of_trimRow hresult
    simpa only [List.filterMap_map, Function.id_comp] using congrArg (List.filterMap id) hmap
  refine ⟨fun row hrow ↦ ?_, hfiles ▸ h.files, fun row hrow hdirectory ↦ ?_, h.parents, hfiles ▸ h.root⟩
  · obtain ⟨result, hresult, htrim⟩ := exists_mem_of_mapM hrows hrow
    have hkind := h.kinds result hresult
    rw [fileOf_of_trimRow htrim] at hkind
    rcases of_trimRow htrim with ⟨-, rfl⟩ | ⟨hdirectory, -⟩
    · exact hkind
    · exact .inl hdirectory
  · obtain ⟨result, hresult, htrim⟩ := exists_mem_of_mapM hrows hrow
    rcases of_trimRow htrim with ⟨hother, -⟩ | ⟨-, path, hpath, rfl⟩
    · rw [hdirectory] at hother
      cases hother
    · obtain ⟨trimmedPath, htrimmed, directory, hmem, hsame, htotals⟩ :=
        h.directories _ hresult ((isDirectory_set _ _).trans hdirectory)
      rw [List.getElem?_set_self (List.getElem?_eq_some_iff.mp hpath).1, Option.some.injEq] at htrimmed
      refine ⟨path, hpath, directory, hmem, ?_, ?_⟩
      · rw [hsame, ← htrimmed, trimEndBackslashes_idem]
      · simpa only [List.getElem?_set_ne (show (0 : ℕ) ≠ 2 by decide),
          List.getElem?_set_ne (show (0 : ℕ) ≠ 3 by decide),
          List.getElem?_set_ne (show (0 : ℕ) ≠ 4 by decide)] using htotals

/-- Rows of the own format that are left over from the further columns are taken as they are. -/
theorem readTable_of_readDetails {localToUtc : ℤ → Import ℤ} {timezone : CsvTimeZone} {delimiter : Char}
    {text : List Char} {all body : List Row} {metadata : Metadata}
    (h : rows (trimStartMark text) delimiter = .ok all)
    (hfirst : all.head?.bind List.head? = some "Path".toList)
    (hdetails : readDetails all = .ok (canonicalHeader :: body, metadata)) :
    readTable localToUtc timezone delimiter text =
      .ok ⟨canonicalHeader :: body, true, metadata⟩ := by
  have hmark : (all.head?.bind List.head?).any (fun value ↦
      startsWith value "Generated by WizTree ".toList) = false := by
    rw [hfirst]
    decide
  have hreorder : reorderColumns (canonicalHeader :: body) = .ok (canonicalHeader :: body) := by
    have hcaptions : (windirstatHeader.all fun caption ↦ canonicalHeader.any fun value ↦
        eqIgnoreAsciiCase value caption) = false := by decide
    refine bind_eq_ok_iff.mpr ⟨canonicalHeader, rfl, ?_⟩
    rw [if_neg (Bool.eq_false_iff.mp hcaptions)]
    rfl
  have hforeign : isForeignWindirstat (canonicalHeader :: body) canonicalHeader = false := by
    have hname : decide (canonicalHeader.head? = some "Name".toList) = false := by decide
    have hwidth : (decide (canonicalHeader.length = 9) || decide (canonicalHeader.length = 10)) =
        false := by decide
    rw [isForeignWindirstat, hname, hwidth]
    rfl
  refine bind_eq_ok_iff.mpr ⟨_, h, ?_⟩
  rw [hmark]
  refine bind_eq_ok_iff.mpr ⟨_, hdetails, ?_⟩
  refine bind_eq_ok_iff.mpr ⟨_, hreorder, ?_⟩
  refine bind_eq_ok_iff.mpr ⟨canonicalHeader, rfl, ?_⟩
  rw [hforeign]
  refine bind_eq_ok_iff.mpr ⟨(), by decide, ?_⟩
  refine bind_eq_ok_iff.mpr ⟨(), by decide, ?_⟩
  exact bind_eq_ok_iff.mpr ⟨canonicalHeader :: body, rfl, rfl⟩

/-- The rows of an own catalog are taken as they are. -/
theorem readTable_canonical {localToUtc : ℤ → Import ℤ} {timezone : CsvTimeZone} {delimiter : Char}
    {text : List Char} {body : List Row}
    (h : rows (trimStartMark text) delimiter = .ok (canonicalHeader :: body)) :
    readTable localToUtc timezone delimiter text = .ok ⟨canonicalHeader :: body, true, .empty⟩ := by
  refine readTable_of_readDetails h rfl ?_
  exact if_neg fun heq ↦ absurd (Option.some.inj heq) (by decide)

theorem of_readPlan {toLowercase : List Char → List Char} {order : HashOrder}
    {localToUtc : ℤ → Import ℤ} {timezone : CsvTimeZone} {delimiter : Char} {text : List Char}
    {table : Table} {plan : ImportPlan}
    (h : readPlan toLowercase order localToUtc timezone delimiter text = .ok (table, plan)) :
    readTable localToUtc timezone delimiter text = .ok table ∧
      planImport toLowercase order table = .ok plan := by
  obtain ⟨first, htable, h⟩ := bind_eq_ok_iff.mp h
  obtain ⟨second, hplan, h⟩ := bind_eq_ok_iff.mp h
  obtain ⟨rfl, rfl⟩ := Prod.mk.inj (Except.ok.inj h)
  exact ⟨htable, hplan⟩

/-- With fewer than `2 ^ 32` directories and files, and as many steps as there are
directories, a text is read or refused with a message, and the tree read from the
own format is the one its rows describe. -/
theorem readCsv_sound (toLowercase : List Char → List Char) (order : HashOrder) (fuel : ℕ)
    (text : List Char)
    (hfits : ∀ table plan,
      readPlan toLowercase order localTimeUnknown .local ',' text = .ok (table, plan) →
        plan.Fits ∧ plan.layout.directories.records.length ≤ fuel) :
    readCsv toLowercase order fuel text ≠ .error .panic ∧
      readCsv toLowercase order fuel text ≠ .error .unfinished ∧
      ∀ body catalog, rows (trimStartMark text) ',' = .ok (canonicalHeader :: body) →
        readCsv toLowercase order fuel text = .ok catalog → Describes catalog.tree body := by
  have hsafe : Safe (readCsv toLowercase order fuel text) := by
    have hlocal : ∀ seconds, Safe (localTimeUnknown seconds) := fun _ ↦ safe_invalid _
    refine FailsOnly.bind ?_ fun entry hentry ↦ ?_
    · exact (safe_readTable hlocal _ _ _).bind fun table _ ↦ (safe_planImport _ _ _).bind
        fun _ _ ↦ failsOnly_pure _
    · obtain ⟨table, plan⟩ := entry
      obtain ⟨hplanFits, hfuel⟩ := hfits table plan hentry
      have hplanned := (of_planImport (of_readPlan hentry).2 hplanFits).2
      exact safe_finishImport _ hplanned hplanFits hfuel
  refine ⟨fun hpanic ↦ hsafe _ hpanic, fun hunfinished ↦ hsafe _ hunfinished,
    fun body catalog hrows hread ↦ ?_⟩
  obtain ⟨⟨table, plan⟩, hentry, hfinish⟩ := bind_eq_ok_iff.mp hread
  obtain ⟨hplanFits, hfuel⟩ := hfits table plan hentry
  obtain ⟨htable, hplan⟩ := of_readPlan hentry
  obtain ⟨htrim, hplanned⟩ := of_planImport hplan hplanFits
  obtain rfl := Except.ok.inj ((readTable_canonical hrows).symm.trans htable)
  exact (of_finishImport hfinish hplanned hplanFits hfuel).of_trimmed htrim

/-- Directories in the order they were added. -/
def arenaOrder : HashOrder := ⟨KeyedArena.records, fun _ ↦ .refl _⟩

def csvText (lines : List String) : List Char := lines.flatMap fun line ↦ line.toList ++ ['\r', '\n']

/-- A drive with a folder and two files. -/
def sampleText : List Char :=
  csvText ["Path,Kind,LogicalBytes,AllocatedBytes,Files,Directories,ModifiedUnixSeconds",
    "\"C:\\\",Directory,15,4096,2,1,0", "\"C:\\a,b\",Directory,10,4096,1,0,",
    "\"C:\\a,b\\x\",File,10,4096,0,0,5", "\"C:\\y\",File,5,0,0,0,"]

theorem readCsv_sound_sampleText : ∃ body catalog,
    rows (trimStartMark sampleText) ',' = .ok (canonicalHeader :: body) ∧
      readCsv (List.map toAsciiLowercase) arenaOrder 2 sampleText = .ok catalog ∧
      Describes catalog.tree body := by
  have hheader : (rows (trimStartMark sampleText) ',').toOption.bind List.head? = some canonicalHeader := by
    decide +kernel
  have hsome : (readCsv (List.map toAsciiLowercase) arenaOrder 2 sampleText).toOption.isSome = true := by
    decide +kernel
  have hplan : (readPlan (List.map toAsciiLowercase) arenaOrder localTimeUnknown .local ','
      sampleText).toOption.all (fun entry ↦ entry.2.layout.directories.records.length ≤ 2 ∧
        entry.2.rows.countP isFile ≤ 2) = true := by
    decide +kernel
  cases hrows : rows (trimStartMark sampleText) ',' with
  | error failure =>
      rw [hrows] at hheader
      cases hheader
  | ok all =>
      rw [hrows] at hheader
      have hall : all = canonicalHeader :: all.tail := (List.cons_head?_tail hheader).symm
      cases hread : readCsv (List.map toAsciiLowercase) arenaOrder 2 sampleText with
      | error failure =>
          rw [hread] at hsome
          cases hsome
      | ok catalog =>
          refine ⟨all.tail, catalog, congrArg Except.ok hall, rfl, ?_⟩
          refine (readCsv_sound (List.map toAsciiLowercase) arenaOrder 2 sampleText
            fun table plan hentry ↦ ?_).2.2 all.tail catalog (hrows.trans (congrArg Except.ok hall)) hread
          rw [hentry] at hplan
          obtain ⟨hdirectories, hfiles⟩ := of_decide_eq_true hplan
          exact ⟨⟨hdirectories.trans_lt (by decide), hfiles.trans_lt (by decide)⟩, hdirectories⟩

/-- The sizes of two files add up to more than the largest number, and the path of
a directory ends in a backslash. -/
def overflowingText : List Char :=
  csvText ["Path,Kind,LogicalBytes,AllocatedBytes,Files,Directories,ModifiedUnixSeconds",
    "\"C:\\d\\\",Directory,0,0,0,0,", "\"C:\\x\",File,18446744073709551615,0,0,0,",
    "\"C:\\y\",File,1,0,0,0,"]

/-- The total of the root is not the sum of the sizes, and no directory has the path
of the directory row. -/
theorem readCsv_total_overflows :
    (readCsv (List.map toAsciiLowercase) arenaOrder 2 overflowingText).toOption.bind (fun catalog ↦
      catalog.tree.rootEntry.map fun entry ↦
        (entry.2.logicalBytes.toNat, catalog.tree.directories.map DirectoryRecord.fullPath)) =
      some (2 ^ 64 - 1, ["C:\\d", "C:\\"]) ∧
    (rows (trimStartMark overflowingText) ',').toOption.map (fun rows ↦ (rows.head?,
      (rows.tail.filter isDirectory).map List.head?,
      ((rows.tail.filterMap fileOf).map fun file ↦ file.2.1.toNat).sum)) =
        some (some canonicalHeader, [some "C:\\d\\".toList], 2 ^ 64) := by
  decide +kernel

end CatalogText

end WinBlaze
