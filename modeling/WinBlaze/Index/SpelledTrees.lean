import WinBlaze.Index.CombinedTotals
import WinBlaze.Index.ImportedTree
import WinBlaze.Lib.SeparatedKeys

/-!
# Trees that are spelled by their paths

The path of a directory is that of its parent and a name. A file is beneath a
directory exactly when its path goes on behind the path of the directory, so the
totals of the directories follow from the paths and sizes of the files.
-/

namespace WinBlaze

namespace CatalogText

open ParentChain Saturating SeparatedKeys TreeSweep

/-! ## Directories -/

/-- The path without the backslashes at its end. -/
def directoryKey (directory : DirectoryRecord) : List Char :=
  trimEndBackslashes directory.fullPath.toList

/-- Every directory but the root has a name in its parent. -/
structure SpelledDirectories (directories : List DirectoryRecord) (root : DirectoryRecord) : Prop where
  ids : (directories.map DirectoryRecord.id).Nodup
  keys : ∀ first ∈ directories, ∀ second ∈ directories,
    directoryKey first = directoryKey second → first = second
  rootMem : root ∈ directories
  rootLike : RootLike directories root
  above : ∀ directory ∈ directories, directory ≠ root → ∃ parent ∈ directories,
    directory.parentDirectoryId = some parent.id ∧
      ∃ name, '\\' ∉ name ∧ directoryKey directory = directoryKey parent ++ '\\' :: name

def keyAt (directories : List DirectoryRecord) (index : ℕ) : List Char :=
  ((directories[index]?).map directoryKey).getD []

theorem keyAt_eq {directories : List DirectoryRecord} {index : ℕ} {directory : DirectoryRecord}
    (h : directories[index]? = some directory) : keyAt directories index = directoryKey directory := by
  rw [keyAt, h]
  rfl

namespace SpelledDirectories

variable {directories : List DirectoryRecord} {root : DirectoryRecord}

theorem exists_index (h : SpelledDirectories directories root) {directory : DirectoryRecord}
    (hmem : directory ∈ directories) : ∃ index, directories[index]? = some directory ∧
      directoryIndex directories directory.id.val = some index := by
  obtain ⟨index, hindex⟩ := List.mem_iff_getElem?.mp hmem
  exact ⟨index, hindex, (directoryIndex_eq_some_iff h.ids _ _).mpr ⟨directory, hindex, rfl⟩⟩

theorem not_rootLike (h : SpelledDirectories directories root) {directory : DirectoryRecord}
    (hmem : directory ∈ directories) (hne : directory ≠ root) : ¬ RootLike directories directory := by
  intro hlike
  obtain ⟨parent, hparentMem, hparent, name, -, hkey⟩ := h.above directory hmem hne
  obtain ⟨index, hindex, hplace⟩ := h.exists_index hparentMem
  rcases hlike parent.id hparent with hself | habsent
  · have hsame : parent = directory := List.inj_on_of_nodup_map h.ids hparentMem hmem hself
    have hlength := congrArg List.length hkey
    rw [hsame, List.length_append, List.length_cons] at hlength
    omega
  · rw [hplace] at habsent
    cases habsent

/-- The root that is chosen is this one. -/
theorem chooseRoot_eq (h : SpelledDirectories directories root) (hlength : directories.length < 2 ^ 32) :
    ∃ place, chooseRoot directories (DirectoryLookup.new directories) = some place ∧
      directories[place]? = some root := by
  rcases chooseRoot_cases h.ids hlength with ⟨place, directory, hplace, hget, hlike⟩ | ⟨-, hnone⟩
  · have hroot : directory = root := by
      by_contra hne
      exact h.not_rootLike (List.mem_of_getElem? hget) hne hlike
    exact ⟨place, hplace, hroot ▸ hget⟩
  · exact (hnone root h.rootMem h.rootLike).elim

section Places

variable {place : ℕ} (h : SpelledDirectories directories root) (hplace : directories[place]? = some root)

include h hplace

theorem eq_place_of_get {index : ℕ} (hindex : directories[index]? = some root) : index = place := by
  have hfirst := (directoryIndex_eq_some_iff h.ids root.id.val index).mpr ⟨root, hindex, rfl⟩
  have hsecond := (directoryIndex_eq_some_iff h.ids root.id.val place).mpr ⟨root, hplace, rfl⟩
  exact Option.some.inj (hfirst.symm.trans hsecond)

/-- The structural parent is the parent whose path goes before. -/
theorem exists_structuralParent {index : ℕ} {directory : DirectoryRecord}
    (hindex : directories[index]? = some directory) (hne : directory ≠ root) :
    ∃ above parent, structuralParent directories (some place) index = some above ∧
      directories[above]? = some parent ∧
      ∃ name, '\\' ∉ name ∧ directoryKey directory = directoryKey parent ++ '\\' :: name := by
  obtain ⟨parent, hparentMem, hparent, name, hname, hkey⟩ :=
    h.above directory (List.mem_of_getElem? hindex) hne
  obtain ⟨above, habove, haboveIndex⟩ := h.exists_index hparentMem
  have hother : parent.id ≠ directory.id := by
    intro hself
    have hsame : parent = directory :=
      List.inj_on_of_nodup_map h.ids hparentMem (List.mem_of_getElem? hindex) hself
    have hlength := congrArg List.length hkey
    rw [hsame, List.length_append, List.length_cons] at hlength
    omega
  have hindexNe : index ≠ place := by
    rintro rfl
    exact hne (Option.some.inj (hindex.symm.trans hplace))
  refine ⟨above, parent, ?_, habove, name, hname, hkey⟩
  rw [structuralParent, if_neg (by simpa using hindexNe), hindex, Option.bind_some, hparent,
    Option.filter_some, if_pos (decide_eq_true hother), Option.bind_some, haboveIndex, Option.some_or]

theorem step_keyAt {index above : ℕ}
    (hparent : structuralParent directories (some place) index = some above) :
    ∃ name, '\\' ∉ name ∧ keyAt directories index = keyAt directories above ++ '\\' :: name := by
  obtain ⟨directory, hdirectory⟩ := exists_of_structuralParent hparent
  by_cases hroot : directory = root
  · subst hroot
    rw [structuralParent_root (congrArg some (h.eq_place_of_get hplace hdirectory).symm)] at hparent
    cases hparent
  · obtain ⟨other, parent, hother, hget, name, hname, hkey⟩ :=
      h.exists_structuralParent hplace hdirectory hroot
    obtain rfl := Option.some.inj (hother.symm.trans hparent)
    exact ⟨name, hname, by rw [keyAt_eq hdirectory, keyAt_eq hget, hkey]⟩

theorem ends (index : ℕ) : Ends (structuralParent directories (some place)) index := by
  have hsupport : ∀ a b, structuralParent directories (some place) a = some b →
      a ∈ List.range directories.length := by
    intro a b hparent
    obtain ⟨directory, hget⟩ := exists_of_structuralParent hparent
    exact List.mem_range.mpr (List.getElem?_eq_some_iff.mp hget).1
  refine (forall_ends_iff hsupport).mpr ?_ index
  refine not_onCycle_of_rank (fun index ↦ (keyAt directories index).length) fun a b hparent ↦ ?_
  obtain ⟨name, -, hkey⟩ := h.step_keyAt hplace hparent
  rw [hkey, List.length_append, List.length_cons]
  omega

theorem spells : Spells '\\' directories.length (structuralParent directories (some place))
    (keyAt directories) where
  ends := h.ends hplace
  bound index above hparent := by
    refine structuralParent_lt (fun other hother ↦ ?_) hparent
    exact Option.some.inj hother ▸ (List.getElem?_eq_some_iff.mp hplace).1
  step index _ above hparent := h.step_keyAt hplace hparent
  injective a ha b hb hkey := by
    have hfirst := List.getElem?_eq_getElem ha
    have hsecond := List.getElem?_eq_getElem hb
    rw [keyAt_eq hfirst, keyAt_eq hsecond] at hkey
    have hsame := h.keys _ (List.getElem_mem ha) _ (List.getElem_mem hb) hkey
    have hplaceA := (directoryIndex_eq_some_iff h.ids _ a).mpr ⟨_, hfirst, rfl⟩
    have hplaceB := (directoryIndex_eq_some_iff h.ids _ b).mpr ⟨_, hsecond, rfl⟩
    rw [hsame] at hplaceA
    exact Option.some.inj (hplaceA.symm.trans hplaceB)
  root := by
    have hlt := (List.getElem?_eq_some_iff.mp hplace).1
    exact ⟨place, hlt, fun node hnode ↦ beneath_root (h.ends hplace) rfl hlt hnode⟩

/-- The files beneath a directory are those whose paths begin with its path. -/
theorem filesUnder_eq (path : FileRecord → List Char) {files : List FileRecord}
    (hfiles : ∀ file ∈ files, ∃ parent ∈ directories, parent.id = file.parentDirectoryId ∧
      ∃ name, '\\' ∉ name ∧ path file = directoryKey parent ++ '\\' :: name)
    {index : ℕ} {directory : DirectoryRecord} (hindex : directories[index]? = some directory) :
    filesUnder directories (some place) files index =
      files.filter fun file ↦ (directoryKey directory ++ ['\\']).isPrefixOf (path file) := by
  classical
  refine List.filter_congr fun file hfile ↦ ?_
  obtain ⟨parent, hparentMem, hparent, name, hname, hpath⟩ := hfiles file hfile
  obtain ⟨above, habove, haboveIndex⟩ := h.exists_index hparentMem
  have hdirectory : fileDirectory directories (some place) file = some above := by
    rw [fileDirectory, ← hparent, haboveIndex, Option.some_or]
  have hbeneath := (h.spells hplace).beneath_iff (List.getElem?_eq_some_iff.mp hindex).1
    (List.getElem?_eq_some_iff.mp habove).1 hname
  rw [keyAt_eq hindex, keyAt_eq habove, ← hpath] at hbeneath
  rw [Bool.eq_iff_iff, decide_eq_true_iff, List.isPrefixOf_iff_prefix, ← hbeneath, hdirectory]
  constructor
  · rintro ⟨other, hother, hunder⟩
    exact Option.some.inj hother ▸ hunder
  · exact fun hunder ↦ ⟨above, rfl, hunder⟩

end Places

end SpelledDirectories

/-! ## Totals -/

/-- Path, logical and allocated bytes of a file of the tree. -/
def displayedFile (tree : TreeIndex) (file : FileRecord) : List Char × UInt64 × UInt64 :=
  ((tree.fileDisplayPath file).toList, file.sizeBytes, file.allocationBytes)

structure SpelledTree (tree : TreeIndex) (root : DirectoryRecord) : Prop where
  built : tree.IsBuilt
  count : tree.files.length < 2 ^ 32
  directories : SpelledDirectories tree.directories root
  files : ∀ file ∈ tree.files, ∃ parent ∈ tree.directories, parent.id = file.parentDirectoryId ∧
    ∃ name, '\\' ∉ name ∧
      (tree.fileDisplayPath file).toList = directoryKey parent ++ '\\' :: name

/-- The files whose paths begin with this one. -/
def filesBehind (key : List Char) (files : List (List Char × UInt64 × UInt64)) :
    List (List Char × UInt64 × UInt64) :=
  files.filter fun file ↦ (key ++ ['\\']).isPrefixOf file.1

/-- The totals of some files. -/
structure SumsUp (rollup : DirRollup) (files : List (List Char × UInt64 × UInt64)) : Prop where
  logicalBytes : rollup.logicalBytes.toNat = min (files.map fun file ↦ file.2.1.toNat).sum maxValue
  physicalBytes : rollup.physicalBytes.toNat = min (files.map fun file ↦ file.2.2.toNat).sum maxValue
  fileCount : rollup.fileCount.toNat = files.length

/-- Bytes and files of both are the same. -/
structure SameTotals (first second : DirRollup) : Prop where
  logicalBytes : first.logicalBytes = second.logicalBytes
  physicalBytes : first.physicalBytes = second.physicalBytes
  fileCount : first.fileCount = second.fileCount

theorem SumsUp.sameTotals {first second : DirRollup} {files others : List (List Char × UInt64 × UInt64)}
    (hfirst : SumsUp first files) (hsecond : SumsUp second others) (hperm : files.Perm others) :
    SameTotals first second where
  logicalBytes := by
    apply UInt64.toNat_inj.mp
    rw [hfirst.logicalBytes, hsecond.logicalBytes, (hperm.map _).sum_eq]
  physicalBytes := by
    apply UInt64.toNat_inj.mp
    rw [hfirst.physicalBytes, hsecond.physicalBytes, (hperm.map _).sum_eq]
  fileCount := by
    apply UInt64.toNat_inj.mp
    rw [hfirst.fileCount, hsecond.fileCount, hperm.length_eq]

namespace SpelledTree

variable {tree other : TreeIndex} {root top : DirectoryRecord}

theorem exists_root (h : SpelledTree tree root) :
    ∃ place, tree.root = some place ∧ tree.directories[place]? = some root := by
  obtain ⟨place, hplace, hget⟩ := h.directories.chooseRoot_eq h.built.length
  exact ⟨place, h.built.root.trans hplace, hget⟩

/-- The totals of a directory are those of the files with longer paths. -/
theorem exists_rollup (h : SpelledTree tree root) {directory : DirectoryRecord}
    (hmem : directory ∈ tree.directories) : ∃ rollup,
      tree.rollupFor directory.id.val = some rollup ∧
        SumsUp rollup (filesBehind (directoryKey directory) (tree.files.map (displayedFile tree))) := by
  obtain ⟨place, hroot, hplace⟩ := h.exists_root
  obtain ⟨index, hget, hindex⟩ := h.directories.exists_index hmem
  have hends : ∀ index, Ends (structuralParent tree.directories tree.root) index :=
    hroot ▸ h.directories.ends hplace
  obtain ⟨node, hnode, hrollup⟩ := h.built.rollupIs hends (by simp [hroot]) h.count
    (List.getElem?_eq_some_iff.mp hget).1
  rw [hroot, h.directories.filesUnder_eq hplace _ h.files hget] at hrollup
  have hbehind : filesBehind (directoryKey directory) (tree.files.map (displayedFile tree)) =
      (tree.files.filter fun file ↦ (directoryKey directory ++ ['\\']).isPrefixOf
        (tree.fileDisplayPath file).toList).map (displayedFile tree) := List.filter_map
  refine ⟨node.rollup, ?_, ?_⟩
  · rw [MultipleRoots.rollupFor_eq h.built hindex, hnode, Option.map_some]
  · rw [hbehind]
    refine ⟨?_, ?_, ?_⟩
    · rw [List.map_map]
      exact hrollup.logicalBytes
    · rw [List.map_map]
      exact hrollup.physicalBytes
    · rw [List.length_map]
      exact hrollup.fileCount

theorem exists_rootEntry (h : SpelledTree tree root) :
    ∃ rollup, tree.rootEntry = some (root, rollup) := by
  obtain ⟨place, hroot, hplace⟩ := h.exists_root
  have hends : ∀ index, Ends (structuralParent tree.directories tree.root) index :=
    hroot ▸ h.directories.ends hplace
  obtain ⟨node, hnode, -⟩ := h.built.rollupIs hends (by simp [hroot]) h.count
    (List.getElem?_eq_some_iff.mp hplace).1
  exact ⟨node.rollup, MultipleRoots.rootEntry_eq hroot hplace hnode⟩

/-- Directories of one path have the same totals in trees of the same files. -/
theorem sameTotals (h : SpelledTree tree root) (hother : SpelledTree other top)
    (hfiles : (tree.files.map (displayedFile tree)).Perm (other.files.map (displayedFile other)))
    {directory same : DirectoryRecord} (hmem : directory ∈ tree.directories)
    (hsame : same ∈ other.directories) (hkey : directoryKey directory = directoryKey same) :
    ∃ first second, tree.rollupFor directory.id.val = some first ∧
      other.rollupFor same.id.val = some second ∧ SameTotals first second := by
  obtain ⟨first, hfirst, hsums⟩ := h.exists_rollup hmem
  obtain ⟨second, hsecond, hothers⟩ := hother.exists_rollup hsame
  refine ⟨first, second, hfirst, hsecond, hsums.sameTotals hothers ?_⟩
  rw [hkey]
  exact hfiles.filter _

end SpelledTree

end CatalogText

end WinBlaze
