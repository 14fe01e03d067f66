import WinBlaze.Core.Paths
import WinBlaze.Index.CombinedCatalogs
import WinBlaze.Index.ExportedLines
import WinBlaze.Index.LetterCase
import WinBlaze.Index.SpelledTrees

/-!
# Trees that can be reopened

A tree whose directories and files have the paths that their names and parents give
them, no two alike. All three texts that are written for it are read as one table.
-/

namespace WinBlaze

namespace CatalogText

open Attempts MultipleRoots

/-! ## The trees -/

/-- The years 1601 to 9999. -/
def InCalendar (time : Int64) : Prop := 0 ≤ time.toInt ∧ time.toInt < 2650467744000000000

/-- The last whole second. -/
def wholeSeconds (time : Int64) : Int64 := .ofInt (time.toInt / 10000000 * 10000000)

def IsName (name : String) : Prop := name ≠ "" ∧ '\\' ∉ name.toList

instance : DecidablePred IsName := fun _ ↦ inferInstanceAs (Decidable (_ ∧ _))

def displayedPaths (tree : TreeIndex) : List (List Char) :=
  tree.directories.map (fun directory ↦ directory.fullPath.toList) ++
    tree.files.map fun file ↦ (tree.fileDisplayPath file).toList

/-- One directory is without a parent, and every path is that of the parent and a name. -/
structure Exportable (toLowercase : List Char → List Char) (tree : TreeIndex) (root : DirectoryRecord) :
    Prop where
  records : FromRecords tree
  directoryCount : tree.directories.length < 2 ^ 32
  fileCount : tree.files.length < 2 ^ 32
  rootMem : root ∈ tree.directories
  rootLike : RootLike tree.directories root
  above : ∀ directory ∈ tree.directories, directory ≠ root → IsName directory.name ∧
    ∃ parent ∈ tree.directories, directory.parentDirectoryId = some parent.id ∧
      directory.fullPath = joinPath parent.fullPath directory.name
  files : ∀ file ∈ tree.files, file.fullPath = "" ∧ IsName file.name ∧
    ∃ parent ∈ tree.directories, parent.id = file.parentDirectoryId
  noNul : ∀ path ∈ displayedPaths tree, '\x00' ∉ path
  distinct : ((displayedPaths tree).map fun path ↦ toLowercase (trimEndBackslashes path)).Nodup
  rootTrims : (∃ c ∈ root.fullPath.toList, c ≠ '\\') ∧ ¬ ['\\', '\\'] <:+ root.fullPath.toList
  notMultiple : ∀ directory ∈ tree.directories, directory.fullPath ≠ MultipleRoots.rootPath
  times : ∀ file ∈ tree.files, ∀ time, file.timestamps.modified = some time → InCalendar time

theorem trimEndBackslashes_eq_self {path : List Char} (h : path.getLast? ≠ some '\\') :
    trimEndBackslashes path = path := by
  rcases List.eq_nil_or_concat' path with rfl | ⟨front, last, rfl⟩
  · rfl
  · rw [List.getLast?_concat, ne_eq, Option.some.injEq] at h
    simp [trimEndBackslashes, h]

/-- Without a second backslash at its end a path is trimmed by one at most. -/
theorem pathStem_eq_trimEndBackslashes {path : String} (h : ¬ ['\\', '\\'] <:+ path.toList) :
    pathStem path = trimEndBackslashes path.toList := by
  cases hends : endsWithBackslash path with
  | false =>
      have hlast : path.toList.getLast? ≠ some '\\' := of_decide_eq_false hends
      rw [trimEndBackslashes_eq_self hlast, toList_eq_pathStem hends]
  | true =>
      have hpath := toList_eq_pathStem_append hends
      rw [hpath, trimEndBackslashes_append, trimEndBackslashes_eq_self]
      intro hlast
      obtain ⟨front, hfront⟩ := List.getLast?_eq_some_iff.mp hlast
      exact h ⟨front, by simp [hpath, hfront]⟩

theorem getLast?_append_name (front : List Char) {name : String} (hname : IsName name) :
    (front ++ name.toList).getLast? ≠ some '\\' := by
  intro hlast
  have hne : name.toList ≠ [] := fun hnil ↦ hname.1 (String.toList_eq_nil_iff.mp hnil)
  rw [List.getLast?_append, List.getLast?_eq_some_getLast hne, Option.some_or, Option.some.injEq] at hlast
  exact hname.2 (hlast ▸ List.getLast_mem hne)

theorem exists_toList_joinPath (parent name : String) :
    ∃ front, (joinPath parent name).toList = front ++ name.toList := by
  unfold joinPath
  exact ⟨_, String.toList_append⟩

namespace Exportable

variable {toLowercase : List Char → List Char} {tree : TreeIndex} {root : DirectoryRecord}

theorem isBuilt (h : Exportable toLowercase tree root) : tree.IsBuilt :=
  h.records.isBuilt h.directoryCount h.fileCount

/-- The path of another directory ends in its name. -/
theorem fullPath_ends (h : Exportable toLowercase tree root) {directory : DirectoryRecord}
    (hmem : directory ∈ tree.directories) (hne : directory ≠ root) :
    directory.fullPath ≠ "" ∧ directory.fullPath.toList.getLast? ≠ some '\\' := by
  obtain ⟨hname, parent, -, -, hpath⟩ := h.above directory hmem hne
  obtain ⟨front, hfront⟩ := exists_toList_joinPath parent.fullPath directory.name
  rw [← hpath] at hfront
  refine ⟨fun hempty ↦ ?_, hfront ▸ getLast?_append_name front hname⟩
  rw [hempty] at hfront
  exact hname.1 (String.toList_eq_nil_iff.mp (List.append_eq_nil_iff.mp hfront.symm).2)

theorem pathStem_eq_directoryKey (h : Exportable toLowercase tree root) {directory : DirectoryRecord}
    (hmem : directory ∈ tree.directories) :
    directory.fullPath ≠ "" ∧ pathStem directory.fullPath = directoryKey directory := by
  by_cases hroot : directory = root
  · subst hroot
    obtain ⟨⟨c, hc, -⟩, hends⟩ := h.rootTrims
    refine ⟨fun hempty ↦ ?_, pathStem_eq_trimEndBackslashes hends⟩
    rw [hempty] at hc
    cases hc
  · obtain ⟨hne, hlast⟩ := h.fullPath_ends hmem hroot
    refine ⟨hne, ?_⟩
    rw [← toList_eq_pathStem (decide_eq_false hlast)]
    exact (trimEndBackslashes_eq_self hlast).symm

theorem directoryKey_above (h : Exportable toLowercase tree root) {directory parent : DirectoryRecord}
    (hmem : parent ∈ tree.directories) {name : String} (hname : IsName name)
    (hpath : directory.fullPath = joinPath parent.fullPath name) :
    directoryKey directory = directoryKey parent ++ '\\' :: name.toList := by
  obtain ⟨hne, hstem⟩ := h.pathStem_eq_directoryKey hmem
  have hlist := toList_joinPath name hne
  have hlast : (directoryKey parent ++ '\\' :: name.toList).getLast? ≠ some '\\' := by
    rw [← List.singleton_append, ← List.append_assoc]
    exact getLast?_append_name _ hname
  rw [directoryKey, hpath, hlist, hstem, trimEndBackslashes_eq_self hlast]

theorem directoryKey_injective (h : Exportable toLowercase tree root) {first second : DirectoryRecord}
    (hfirst : first ∈ tree.directories) (hsecond : second ∈ tree.directories)
    (hkey : directoryKey first = directoryKey second) : first = second := by
  have hdistinct := h.distinct
  rw [displayedPaths, List.map_append, List.map_map] at hdistinct
  exact List.inj_on_of_nodup_map hdistinct.of_append_left hfirst hsecond (congrArg toLowercase hkey)

theorem spelledDirectories (h : Exportable toLowercase tree root) :
    SpelledDirectories tree.directories root where
  ids := h.isBuilt.ids
  keys first hfirst second hsecond hkey := h.directoryKey_injective hfirst hsecond hkey
  rootMem := h.rootMem
  rootLike := h.rootLike
  above directory hmem hne := by
    obtain ⟨hname, parent, hparent, hid, hpath⟩ := h.above directory hmem hne
    exact ⟨parent, hparent, hid, _, hname.2, h.directoryKey_above hparent hname hpath⟩

/-- A file has the path of its directory, a backslash and its name. -/
theorem toList_fileDisplayPath (h : Exportable toLowercase tree root) {file : FileRecord}
    (hmem : file ∈ tree.files) {parent : DirectoryRecord} (hparent : parent ∈ tree.directories)
    (hid : parent.id = file.parentDirectoryId) :
    (tree.fileDisplayPath file).toList = directoryKey parent ++ '\\' :: file.name.toList := by
  obtain ⟨index, hget, hindex⟩ := h.spelledDirectories.exists_index hparent
  obtain ⟨hne, hstem⟩ := h.pathStem_eq_directoryKey hparent
  have hfull : tree.directoryFullPath file.parentDirectoryId.val = some parent.fullPath := by
    rw [← hid, directoryFullPath_eq h.isBuilt hindex, hget, Option.map_some]
  have hdisplay : tree.fileDisplayPath file = joinPath parent.fullPath file.name := by
    rw [TreeIndex.fileDisplayPath, if_neg (not_not.mpr (h.files file hmem).1), hfull]
  rw [hdisplay, toList_joinPath _ hne, hstem]

theorem spelledTree (h : Exportable toLowercase tree root) : SpelledTree tree root where
  built := h.isBuilt
  count := h.fileCount
  directories := h.spelledDirectories
  files file hmem := by
    obtain ⟨-, hname, parent, hparent, hid⟩ := h.files file hmem
    exact ⟨parent, hparent, hid, _, hname.2, h.toList_fileDisplayPath hmem hparent hid⟩

end Exportable

end CatalogText

end WinBlaze
