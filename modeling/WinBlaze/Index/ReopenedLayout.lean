import WinBlaze.Index.ExportedTables

/-!
# The layout of an exported tree

The rows of an exported tree are accepted, they have its root in common, and they
name all directories there are.
-/

namespace WinBlaze

namespace CatalogText

open Attempts

/-! ## Accepted rows -/

def rowPath (row : Row) : List Char := row.headD []

structure RowReady (row : Row) : Prop where
  length : row.length = 7
  path : rowPath row ≠ []
  noNul : '\x00' ∉ rowPath row
  counts : ∀ text ∈ (row.drop 2).take 4, (parseU64 text).isSome = true
  time : ∀ text, row[6]? = some text → text = [] ∨ (parseI64 text).isSome = true

section Checks

variable {toLowercase : List Char → List Char}

theorem RowReady.checkRow_eq {row : Row} (h : RowReady row) {state : Directories × List (List Char)}
    (hnew : toLowercase (rowPath row) ∉ state.2) : checkRow toLowercase state row =
      .ok (if isDirectory row then nextDirectory state.1 (rowPath row) else state.1,
        toLowercase (rowPath row) :: state.2) := by
  have hcolumn : ∀ index < 7, ∃ text, column row index = .ok text ∧ row[index]? = some text := by
    intro index hindex
    have hlt : index < row.length := h.length.symm ▸ hindex
    have hget := List.getElem?_eq_getElem hlt
    exact ⟨row[index], column_eq_ok_iff.mpr hget, hget⟩
  obtain ⟨path, hpath, hfirst⟩ := hcolumn 0 (by decide)
  obtain ⟨time, htime, hlast⟩ := hcolumn 6 (by decide)
  obtain rfl : rowPath row = path := by
    rw [rowPath, List.headD_eq_head?_getD, List.head?_eq_getElem?, hfirst, Option.getD_some]
  have hnames : (!(rowPath row).isEmpty && !(rowPath row).contains '\x00' &&
      !state.2.contains (toLowercase (rowPath row))) = true := by
    simp [h.path, h.noNul, hnew]
  have htimes : (time.isEmpty || (parseI64 time).isSome) = true := by
    rcases h.time time hlast with hnil | hsome
    · rw [hnil]
      rfl
    · rw [hsome, Bool.or_true]
  refine bind_eq_ok_iff.mpr ⟨(), ensure_eq_ok_iff.mpr (decide_eq_true h.length), ?_⟩
  refine bind_eq_ok_iff.mpr ⟨rowPath row, hpath, ?_⟩
  refine bind_eq_ok_iff.mpr ⟨(), ensure_eq_ok_iff.mpr hnames, ?_⟩
  refine bind_eq_ok_iff.mpr ⟨(), ensure_eq_ok_iff.mpr (List.all_eq_true.mpr h.counts), ?_⟩
  refine bind_eq_ok_iff.mpr ⟨time, htime, ?_⟩
  exact bind_eq_ok_iff.mpr ⟨(), ensure_eq_ok_iff.mpr htimes, rfl⟩

theorem paths_nextDirectory {directories : Directories} {path : List Char}
    (h : path ∉ paths directories) : paths (nextDirectory directories path) = paths directories ++ [path] := by
  rw [paths, records_nextDirectory h, List.map_append]
  rfl

theorem RowReady.exists_checkRow {row : Row} (h : RowReady row) {state : Directories × List (List Char)}
    (hnew : toLowercase (rowPath row) ∉ state.2)
    (hseen : ∀ path ∈ paths state.1, toLowercase path ∈ state.2) :
    ∃ next, checkRow toLowercase state row = .ok next ∧
      paths next.1 = paths state.1 ++ ([row].filter isDirectory).map rowPath ∧
      next.2 = toLowercase (rowPath row) :: state.2 := by
  have habsent : rowPath row ∉ paths state.1 := fun hmem ↦ hnew (hseen _ hmem)
  refine ⟨_, h.checkRow_eq hnew, ?_, rfl⟩
  cases hdirectory : isDirectory row with
  | false => simp [hdirectory]
  | true => simp [hdirectory, paths_nextDirectory habsent]

/-- Rows of different paths are all accepted, and give the directories among them. -/
theorem exists_foldlM_checkRow {rows : List Row} (hready : ∀ row ∈ rows, RowReady row)
    (hdistinct : (rows.map fun row ↦ toLowercase (rowPath row)).Nodup)
    {state : Directories × List (List Char)}
    (hnew : ∀ row ∈ rows, toLowercase (rowPath row) ∉ state.2)
    (hseen : ∀ path ∈ paths state.1, toLowercase path ∈ state.2) :
    ∃ final, rows.foldlM (checkRow toLowercase) state = .ok final ∧
      paths final.1 = paths state.1 ++ (rows.filter isDirectory).map rowPath := by
  induction rows generalizing state with
  | nil => exact ⟨state, rfl, (List.append_nil _).symm⟩
  | cons row rest ih =>
      obtain ⟨hrow, hrest⟩ := List.forall_mem_cons.mp hready
      obtain ⟨hfirst, hothers⟩ := List.forall_mem_cons.mp hnew
      obtain ⟨hnotMem, hnodup⟩ := List.nodup_cons.mp hdistinct
      obtain ⟨next, hnext, hadded, hmarked⟩ := hrow.exists_checkRow hfirst hseen
      have hnewRest : ∀ other ∈ rest, toLowercase (rowPath other) ∉ next.2 := by
        intro other hother hmem
        rcases List.mem_cons.mp (hmarked ▸ hmem) with hsame | hold
        · exact hnotMem (List.mem_map.mpr ⟨other, hother, hsame⟩)
        · exact hothers other hother hold
      have hseenNext : ∀ path ∈ paths next.1, toLowercase path ∈ next.2 := by
        intro path hpath
        rw [hmarked]
        rcases List.mem_append.mp (hadded ▸ hpath) with hold | hself
        · exact List.mem_cons_of_mem _ (hseen path hold)
        · obtain ⟨other, hother, rfl⟩ := List.mem_map.mp hself
          rw [List.mem_singleton.mp (List.mem_of_mem_filter hother)]
          exact List.mem_cons_self
      obtain ⟨final, hfinal, hpaths⟩ := ih hrest hnodup hnewRest hseenNext
      refine ⟨final, ?_, ?_⟩
      · rw [List.foldlM_cons]
        exact bind_eq_ok_iff.mpr ⟨next, hnext, hfinal⟩
      · rw [hpaths, hadded, List.append_assoc, ← List.map_append, ← List.filter_append,
          List.singleton_append]

end Checks

/-! ## Exported rows -/

theorem mem_of_mem_trimEndBackslashes {path : List Char} {c : Char} (h : c ∈ trimEndBackslashes path) :
    c ∈ path :=
  List.mem_reverse.mp ((List.dropWhile_sublist _).subset (List.mem_reverse.mp h))

theorem trimEndBackslashes_ne_nil {path : List Char} (h : ∃ c ∈ path, c ≠ '\\') :
    trimEndBackslashes path ≠ [] := by
  intro hnil
  obtain ⟨c, hc, hother⟩ := h
  rw [trimEndBackslashes, List.reverse_eq_nil_iff, List.dropWhile_eq_nil_iff] at hnil
  exact hother (of_decide_eq_true (hnil c (List.mem_reverse.mpr hc)))

theorem secondsText_eq_nil_or (time : Option Int64) :
    secondsText time = [] ∨ (parseI64 (secondsText time)).isSome = true := by
  cases time with
  | none => exact .inl rfl
  | some ticks => exact .inr (by rw [parseI64_secondsText, Option.isSome_some])

namespace Exportable

variable {toLowercase : List Char → List Char} {tree : TreeIndex} {root : DirectoryRecord}
  (h : Exportable toLowercase tree root)

include h

theorem exists_exportedDirectories : ∃ others, exportedDirectories tree = root :: others ∧
    (root :: others).Perm tree.directories := by
  obtain ⟨rollup, hentry⟩ := h.spelledTree.exists_rootEntry
  have hids := h.isBuilt.ids
  refine ⟨tree.directories.filter fun directory ↦ some directory.id ≠ some root.id, ?_, ?_⟩
  · rw [exportedDirectories, hentry]
    rfl
  · refine (List.perm_ext_iff_of_nodup (List.nodup_cons.mpr ⟨?_, hids.of_map.filter _⟩)
      hids.of_map).mpr fun directory ↦ ?_
    · simp
    · rw [List.mem_cons, List.mem_filter]
      constructor
      · rintro (rfl | ⟨hmem, -⟩)
        · exact h.rootMem
        · exact hmem
      · intro hmem
        by_cases hid : directory.id = root.id
        · exact .inl (List.inj_on_of_nodup_map hids hmem h.rootMem hid)
        · exact .inr ⟨hmem, by simpa using hid⟩

theorem mem_exportedDirectories {directory : DirectoryRecord} :
    directory ∈ exportedDirectories tree ↔ directory ∈ tree.directories := by
  obtain ⟨others, heq, hperm⟩ := h.exists_exportedDirectories
  rw [heq, hperm.mem_iff]

theorem directoryKey_ne_nil {directory : DirectoryRecord} (hmem : directory ∈ tree.directories) :
    directoryKey directory ≠ [] := by
  by_cases hroot : directory = root
  · exact hroot ▸ trimEndBackslashes_ne_nil h.rootTrims.1
  · obtain ⟨parent, -, -, name, -, hkey⟩ := h.spelledDirectories.above directory hmem hroot
    rw [hkey]
    exact List.append_ne_nil_of_right_ne_nil _ (List.cons_ne_nil _ _)

theorem rowReady_directoryRow {directory : DirectoryRecord} (hmem : directory ∈ tree.directories) :
    RowReady (directoryRow tree directory) where
  length := rfl
  path := h.directoryKey_ne_nil hmem
  noNul hnul := by
    refine h.noNul directory.fullPath.toList ?_ (mem_of_mem_trimEndBackslashes hnul)
    exact List.mem_append_left _ (List.mem_map_of_mem hmem)
  counts := by
    have hcounts : ((directoryRow tree directory).drop 2).take 4 =
        [(totalsOf tree directory).logicalBytes, (totalsOf tree directory).physicalBytes,
          (totalsOf tree directory).fileCount, Saturating.satSub (totalsOf tree directory).itemCount
            (totalsOf tree directory).fileCount].map fun count ↦ unsignedText count.toNat := rfl
    rw [hcounts]
    refine List.forall_mem_map.mpr fun count _ ↦ ?_
    rw [parseU64_unsignedText, Option.isSome_some]
  time text htext := Option.some.inj htext ▸ secondsText_eq_nil_or _

theorem rowReady_fileRow {file : FileRecord} (hmem : file ∈ tree.files) :
    RowReady (fileRow tree file) where
  length := rfl
  path := by
    obtain ⟨-, -, parent, hparent, hid⟩ := h.files file hmem
    change (tree.fileDisplayPath file).toList ≠ []
    rw [h.toList_fileDisplayPath hmem hparent hid]
    exact List.append_ne_nil_of_right_ne_nil _ (List.cons_ne_nil _ _)
  noNul := h.noNul _ (List.mem_append_right _ (List.mem_map_of_mem hmem))
  counts := by
    have hcounts : ((fileRow tree file).drop 2).take 4 = [file.sizeBytes, file.allocationBytes, 0, 0].map
        fun count ↦ unsignedText count.toNat := rfl
    rw [hcounts]
    refine List.forall_mem_map.mpr fun count _ ↦ ?_
    rw [parseU64_unsignedText, Option.isSome_some]
  time text htext := Option.some.inj htext ▸ secondsText_eq_nil_or _

theorem mem_exportedRows {row : Row} (hrow : row ∈ exportedRows tree) :
    (∃ directory ∈ tree.directories, row = directoryRow tree directory) ∨
      ∃ file ∈ tree.files, row = fileRow tree file := by
  rcases List.mem_append.mp hrow with hdirectory | hfile
  · obtain ⟨directory, hmem, rfl⟩ := List.mem_map.mp hdirectory
    exact .inl ⟨directory, h.mem_exportedDirectories.mp hmem, rfl⟩
  · obtain ⟨file, hmem, rfl⟩ := List.mem_map.mp hfile
    exact .inr ⟨file, hmem, rfl⟩

theorem rowReady {row : Row} (hrow : row ∈ exportedRows tree) : RowReady row := by
  rcases h.mem_exportedRows hrow with ⟨directory, hmem, rfl⟩ | ⟨file, hmem, rfl⟩
  · exact h.rowReady_directoryRow hmem
  · exact h.rowReady_fileRow hmem

theorem distinct_exportedRows :
    ((exportedRows tree).map fun row ↦ toLowercase (rowPath row)).Nodup := by
  obtain ⟨others, heq, hperm⟩ := h.exists_exportedDirectories
  have hdirectories : ((exportedDirectories tree).map fun directory ↦
      toLowercase (rowPath (directoryRow tree directory))).Perm
        (tree.directories.map fun directory ↦
          toLowercase (trimEndBackslashes directory.fullPath.toList)) := by
    rw [heq]
    exact hperm.map _
  have hfiles : (tree.files.map fun file ↦ toLowercase (rowPath (fileRow tree file))) =
      tree.files.map fun file ↦ toLowercase (trimEndBackslashes (tree.fileDisplayPath file).toList) := by
    refine List.map_congr_left fun file hmem ↦ congrArg toLowercase ?_
    obtain ⟨-, hname, parent, hparent, hid⟩ := h.files file hmem
    have hpath := h.toList_fileDisplayPath hmem hparent hid
    refine (trimEndBackslashes_eq_self ?_).symm
    change (tree.fileDisplayPath file).toList.getLast? ≠ some '\\'
    rw [hpath, ← List.singleton_append, ← List.append_assoc]
    exact getLast?_append_name _ hname
  have hdistinct := h.distinct
  rw [displayedPaths, List.map_append, List.map_map, List.map_map] at hdistinct
  rw [exportedRows, List.map_append, List.map_map, List.map_map]
  refine (hdirectories.append (.of_eq hfiles)).nodup_iff.mpr hdistinct

/-! ## The hierarchy -/

theorem stem_directoryKey {directory : DirectoryRecord} (hmem : directory ∈ tree.directories)
    (hne : directory ≠ root) : ∃ parent ∈ tree.directories,
      directory.parentDirectoryId = some parent.id ∧
        stem (directoryKey directory) = some (directoryKey parent) := by
  obtain ⟨parent, hparent, hid, name, hname, hkey⟩ := h.spelledDirectories.above directory hmem hne
  exact ⟨parent, hparent, hid, stem_eq_some_iff.mpr ⟨name, hkey, hname⟩⟩

theorem stem_fileDisplayPath {file : FileRecord} (hmem : file ∈ tree.files) :
    ∃ parent ∈ tree.directories, parent.id = file.parentDirectoryId ∧
      stem (tree.fileDisplayPath file).toList = some (directoryKey parent) := by
  obtain ⟨-, hname, parent, hparent, hid⟩ := h.files file hmem
  exact ⟨parent, hparent, hid, stem_eq_some_iff.mpr
    ⟨_, h.toList_fileDisplayPath hmem hparent hid, hname.2⟩⟩

/-- Every path goes on behind that of the root. -/
theorem directoryKey_root {directory : DirectoryRecord} (hmem : directory ∈ tree.directories) :
    directory = root ∨ ∃ rest, directoryKey directory = directoryKey root ++ '\\' :: rest := by
  induction hlength : (directoryKey directory).length using Nat.strong_induction_on generalizing directory with
  | _ length ih =>
      by_cases hroot : directory = root
      · exact .inl hroot
      obtain ⟨parent, hparent, -, name, -, hkey⟩ := h.spelledDirectories.above directory hmem hroot
      have hlt : (directoryKey parent).length < length := by
        rw [← hlength, hkey, List.length_append, List.length_cons]
        omega
      refine .inr ?_
      rcases ih _ hlt hparent rfl with rfl | ⟨rest, hrest⟩
      · exact ⟨name, hkey⟩
      · exact ⟨rest ++ '\\' :: name, by rw [hkey, hrest, List.append_assoc, List.cons_append]⟩

theorem rowParent_exportedRows {row : Row} (hrow : row ∈ exportedRows tree) :
    ∃ directory ∈ tree.directories, rowParent row = .ok (directoryKey directory) := by
  rcases h.mem_exportedRows hrow with ⟨directory, hmem, rfl⟩ | ⟨file, hmem, rfl⟩
  · exact ⟨directory, hmem, rfl⟩
  · obtain ⟨parent, hparent, -, hstem⟩ := h.stem_fileDisplayPath hmem
    refine ⟨parent, hparent, bind_eq_ok_iff.mpr ⟨_, rfl, ?_⟩⟩
    exact orInvalid_eq_ok_iff.mpr hstem

end Exportable

/-- Lower case does not look past a backslash. -/
def SplitsPaths (toLowercase : List Char → List Char) : Prop :=
  ∀ front rest, toLowercase (front ++ '\\' :: rest) = toLowercase front ++ '\\' :: toLowercase rest

theorem isDescendant_append {toLowercase : List Char → List Char} (hsplit : SplitsPaths toLowercase)
    (front rest : List Char) : isDescendant toLowercase (front ++ '\\' :: rest) front = true := by
  unfold isDescendant
  split
  case isTrue =>
    have hself : eqIgnoreAsciiCase front front = true := decide_eq_true rfl
    simp [hself]
  case isFalse =>
    rw [startsWith, List.isPrefixOf_iff_prefix, hsplit]
    exact ⟨toLowercase rest, by simp⟩

namespace Exportable

variable {toLowercase : List Char → List Char} {tree : TreeIndex} {root : DirectoryRecord}
  (h : Exportable toLowercase tree root) (hsplit : SplitsPaths toLowercase)

include h

include hsplit in
theorem shrinkCommon_eq {directory : DirectoryRecord} (hmem : directory ∈ tree.directories) (fuel : ℕ) :
    shrinkCommon toLowercase (directoryKey directory) (fuel + 1) (directoryKey root) =
      .ok (directoryKey root) := by
  refine if_pos ?_
  rcases h.directoryKey_root hmem with rfl | ⟨rest, hrest⟩
  · rw [eqIgnoreAsciiCase_iff.mpr rfl, Bool.true_or]
  · rw [hrest, isDescendant_append hsplit, Bool.or_true]

include hsplit in
/-- The path of the root is what all rows have in common. -/
theorem commonRoot_eq {multiple : Bool} (hmultiple : multiple = true → rootPath = directoryKey root) :
    commonRoot toLowercase multiple (exportedRows tree) = .ok (directoryKey root) := by
  obtain ⟨others, heq, -⟩ := h.exists_exportedDirectories
  have hrows : ∃ rest, exportedRows tree = directoryRow tree root :: rest := by
    rw [exportedRows, heq]
    exact ⟨_, rfl⟩
  obtain ⟨rest, hrest⟩ := hrows
  have hfirst : (if multiple then rootPath else directoryKey root) = directoryKey root := by
    split
    case isTrue h => exact hmultiple h
    case isFalse => rfl
  refine bind_eq_ok_iff.mpr ⟨directoryRow tree root, by rw [hrest]; rfl, ?_⟩
  refine bind_eq_ok_iff.mpr ⟨directoryKey root, rfl, ?_⟩
  rw [hfirst, hrest, List.tail_cons]
  refine foldlM_eq_self fun row hrow ↦ ?_
  obtain ⟨directory, hmem, hparent⟩ := h.rowParent_exportedRows (hrest ▸ List.mem_cons_of_mem _ hrow)
  refine bind_eq_ok_iff.mpr ⟨_, hparent, ?_⟩
  split
  · rfl
  · exact h.shrinkCommon_eq hsplit hmem _

/-- All directories above one are there already. -/
theorem addAncestors_eq (top : List (List Char)) {directories : Directories}
    (hpaths : ∀ directory ∈ tree.directories, directoryKey directory ∈ paths directories)
    {fuel : ℕ} {directory : DirectoryRecord} (hmem : directory ∈ tree.directories)
    (hfuel : (directoryKey directory).length < fuel) :
    addAncestors (directoryKey root) top fuel directories (directoryKey directory) = .ok directories := by
  induction fuel generalizing directory with
  | zero => exact absurd hfuel (Nat.not_lt_zero _)
  | succ fuel ih =>
      have hknown : (if (directories.find? (directoryKey directory)).isSome then directories
          else nextDirectory directories (directoryKey directory)) = directories :=
        if_pos (find?_isSome_iff.mpr (hpaths directory hmem))
      unfold addAncestors
      dsimp only
      rw [hknown]
      split
      · rfl
      case isFalse hdone =>
        have hne : directory ≠ root := by
          rintro rfl
          exact hdone (by rw [eqIgnoreAsciiCase_iff.mpr rfl, Bool.true_or])
        obtain ⟨parent, hparent, -, hstem⟩ := h.stem_directoryKey hmem hne
        have hlt := length_lt_of_stem hstem
        rw [hstem]
        exact ih hparent (by omega)

theorem foldlM_addRow (top : List (List Char)) {directories : Directories}
    (hpaths : ∀ directory ∈ tree.directories, directoryKey directory ∈ paths directories) :
    (exportedRows tree).foldlM (addRow (directoryKey root) top) directories = .ok directories := by
  refine foldlM_eq_self fun row hrow ↦ ?_
  obtain ⟨directory, hmem, hparent⟩ := h.rowParent_exportedRows hrow
  refine bind_eq_ok_iff.mpr ⟨_, rowStart_of_rowParent hparent, ?_⟩
  exact h.addAncestors_eq top hpaths hmem (Nat.lt_succ_self _)

omit h in
theorem directoryRows_eq : ((exportedRows tree).filter isDirectory).map rowPath =
    (exportedDirectories tree).map directoryKey := by
  have hdirectories : ((exportedDirectories tree).map (directoryRow tree)).filter isDirectory =
      (exportedDirectories tree).map (directoryRow tree) := by
    refine List.filter_eq_self.mpr fun row hrow ↦ ?_
    obtain ⟨directory, -, rfl⟩ := List.mem_map.mp hrow
    rfl
  have hfiles : (tree.files.map (fileRow tree)).filter isDirectory = [] := by
    refine List.filter_eq_nil_iff.mpr fun row hrow ↦ ?_
    obtain ⟨file, -, rfl⟩ := List.mem_map.mp hrow
    exact Bool.false_ne_true
  rw [exportedRows, List.filter_append, hdirectories, hfiles, List.append_nil, List.map_map]
  rfl

/-- Only the root can have the path of multiple roots, with a backslash. -/
theorem directoryKey_ne_rootPath {directory : DirectoryRecord} (hmem : directory ∈ tree.directories)
    (hkey : directoryKey directory = rootPath) : directory = root := by
  by_contra hne
  have hfull := trimEndBackslashes_eq_self (h.fullPath_ends hmem hne).2
  exact h.notMultiple directory hmem (String.toList_inj.mp (hfull.symm.trans hkey))

theorem exists_checked : ∃ final, (exportedRows tree).foldlM (checkRow toLowercase) (.empty, []) = .ok final ∧
    paths final.1 = (exportedDirectories tree).map directoryKey := by
  rw [← directoryRows_eq]
  exact exists_foldlM_checkRow (fun row hrow ↦ h.rowReady hrow) h.distinct_exportedRows
    (fun _ _ ↦ List.not_mem_nil) (List.forall_mem_nil _)

include hsplit in
/-- The layout of an exported tree has its directories and its root. -/
theorem exists_layoutOf : ∃ layout, layoutOf toLowercase (exportedRows tree) = .ok layout ∧
    layout.common = directoryKey root ∧
      paths layout.directories = (exportedDirectories tree).map directoryKey := by
  obtain ⟨⟨directories, seen⟩, hstate, hpaths⟩ := h.exists_checked
  have hkeys : ∀ directory ∈ tree.directories, directoryKey directory ∈ paths directories := by
    intro directory hmem
    rw [hpaths]
    exact List.mem_map_of_mem (h.mem_exportedDirectories.mpr hmem)
  have hmultiple : (directories.find? rootPath).isSome = true → rootPath = directoryKey root := by
    intro hfound
    have hmem := find?_isSome_iff.mp hfound
    rw [hpaths] at hmem
    obtain ⟨directory, hdirectory, hkey⟩ := List.mem_map.mp hmem
    rw [← hkey, h.directoryKey_ne_rootPath (h.mem_exportedDirectories.mp hdirectory) hkey]
  refine ⟨_, bind_eq_ok_iff.mpr ⟨_, hstate, bind_eq_ok_iff.mpr ⟨_, h.commonRoot_eq hsplit hmultiple,
    bind_eq_ok_iff.mpr ⟨directories, h.foldlM_addRow _ hkeys, rfl⟩⟩⟩, rfl, hpaths⟩

end Exportable

end CatalogText

end WinBlaze
