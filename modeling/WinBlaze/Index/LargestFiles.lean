import Mathlib.Data.List.GetD
import WinBlaze.Index.TreeAgreement
import WinBlaze.Lib.Selection

/-!
# The largest files

Requests up to a cap are served from an order that the first of them builds,
larger ones from a selection of their own. Both are fronts of one order: by
allocation, largest first, and by id among files of one size.
-/

namespace WinBlaze

open Selection

def largestFileCacheCap : ℕ := 10000

/-- Larger allocations first, then smaller ids. -/
def compareAllocation : FileRecord → FileRecord → Ordering :=
  compareLex (fun a b ↦ compare b.allocationBytes a.allocationBytes) (compareOn (fun file ↦ file.id.val))

namespace TreeIndex

variable (tree : TreeIndex)

/-- `self.files[index]`. Every index of an order is the place of a file. -/
def fileAt (index : ℕ) : FileRecord := tree.files.getD index default

def comparePlaces (a b : ℕ) : Ordering := compareAllocation (tree.fileAt a) (tree.fileAt b)

/-- The places of all files, counted by 32-bit numbers. -/
def filePlaces : List ℕ := List.range (asU32 tree.files.length)

/-- The first `count` places in the order, by one selection. -/
def largestPlaces (sorts : Unstable ℕ) (count : ℕ) : List ℕ :=
  if count < tree.filePlaces.length then
    sorts.smallest (count - 1) count tree.comparePlaces tree.filePlaces
  else sorts.sortBy tree.comparePlaces tree.filePlaces

/-- `for_each_largest_file`: the files visited, and the memoised order it leaves. -/
def forEachLargestFile (sorts : Unstable ℕ) (largestFiles : Option (List ℕ)) (limit : ℕ) :
    List FileRecord × Option (List ℕ) :=
  let take := min limit tree.files.length
  if take = 0 then ([], largestFiles)
  else if take ≤ largestFileCacheCap then
    let cached := largestFiles.getD
      (tree.largestPlaces sorts (min largestFileCacheCap tree.files.length))
    ((cached.take take).map tree.fileAt, some cached)
  else ((tree.largestPlaces sorts take).map tree.fileAt, largestFiles)

/-- `for_each_largest_file_page`: what comes before the offset is skipped. -/
def forEachLargestFilePage (sorts : Unstable ℕ) (largestFiles : Option (List ℕ)) (offset limit : ℕ) :
    List FileRecord × Option (List ℕ) :=
  if tree.files.length ≤ offset ∨ limit = 0 then ([], largestFiles)
  else
    let largest := tree.forEachLargestFile sorts largestFiles (min (offset + limit) usizeMax)
    (largest.1.drop offset, largest.2)

end TreeIndex

/-- A request, and the sorts that serve it. -/
inductive LargestRequest
  | largest (sorts : Unstable ℕ) (limit : ℕ)
  | page (sorts : Unstable ℕ) (offset limit : ℕ)

namespace TreeIndex

def serveLargest (tree : TreeIndex) (largestFiles : Option (List ℕ)) :
    LargestRequest → List FileRecord × Option (List ℕ)
  | .largest sorts limit => tree.forEachLargestFile sorts largestFiles limit
  | .page sorts offset limit => tree.forEachLargestFilePage sorts largestFiles offset limit

/-- The answers to these requests in order. -/
def serveAllLargest (tree : TreeIndex) : Option (List ℕ) → List LargestRequest → List (List FileRecord)
  | _, [] => []
  | largestFiles, request :: rest => (tree.serveLargest largestFiles request).1 ::
      tree.serveAllLargest (tree.serveLargest largestFiles request).2 rest

end TreeIndex

/-! ## The order -/

/-- Larger before smaller, and smaller ids first among files of one size. -/
def Larger (a b : FileRecord) : Prop :=
  b.allocationBytes < a.allocationBytes ∨ a.allocationBytes = b.allocationBytes ∧ a.id.val < b.id.val

/-- The part of an order that a request asks for. -/
def LargestRequest.slice (order : List FileRecord) : LargestRequest → List FileRecord
  | .largest _ limit => order.take (min limit order.length)
  | .page _ offset limit => (order.drop offset).take limit

instance transCmp_compareAllocation : Std.TransCmp compareAllocation := by
  unfold compareAllocation
  have hallocation : Std.TransCmp
      (fun a b : FileRecord ↦ compare b.allocationBytes a.allocationBytes) :=
    @Std.TransCmp.opposite _ _ (transCmp_comap FileRecord.allocationBytes)
  infer_instance

theorem id_eq_of_compareAllocation {a b : FileRecord} (h : compareAllocation a b = .eq) :
    a.id = b.id := by
  unfold compareAllocation at h
  rw [compareLex_eq_eq] at h
  exact FileId.val_injective (Std.LawfulEqCmp.eq_of_compare h.2)

theorem larger_of_isLE {a b : FileRecord} (h : (compareAllocation a b).isLE = true)
    (hne : a.id ≠ b.id) : Larger a b := by
  have hid : a.id.val ≠ b.id.val := fun heq ↦ hne (FileId.val_injective heq)
  unfold compareAllocation compareLex compareOn at h
  rcases Ordering.isLE_then_iff_or.mp h with hlt | ⟨heq, hle⟩
  · exact Or.inl (Std.compare_eq_lt.mp hlt)
  · exact Or.inr ⟨(Std.LawfulEqCmp.eq_of_compare heq).symm,
      UInt64.lt_of_le_of_ne (Std.isLE_compare.mp hle) hid⟩

namespace TreeIndex

variable {tree : TreeIndex}

/-- The files by allocation, then by id. -/
def largestOrder (tree : TreeIndex) : List FileRecord := sorted compareAllocation tree.files

theorem ties (hids : (tree.files.map FileRecord.id).Nodup) :
    ∀ a ∈ tree.files, ∀ b ∈ tree.files, compareAllocation a b = .eq → a = b :=
  fun _ ha _ hb heq ↦ List.inj_on_of_nodup_map hids ha hb (id_eq_of_compareAllocation heq)

theorem map_fileAt (hlength : tree.files.length < 2 ^ 32) :
    tree.filePlaces.map tree.fileAt = tree.files := by
  rw [filePlaces, asU32_of_lt hlength]
  apply List.ext_getElem?
  intro i
  by_cases hi : i < tree.files.length
  · simp [fileAt, hi]
  · simp [hi]

theorem ties_places (hids : (tree.files.map FileRecord.id).Nodup)
    (hlength : tree.files.length < 2 ^ 32) :
    ∀ a ∈ tree.filePlaces, ∀ b ∈ tree.filePlaces, tree.comparePlaces a b = .eq → a = b := by
  intro a ha b hb heq
  rw [filePlaces, asU32_of_lt hlength, List.mem_range] at ha hb
  have hid := id_eq_of_compareAllocation heq
  rw [fileAt, fileAt, List.getD_eq_getElem _ _ ha, List.getD_eq_getElem _ _ hb] at hid
  have ha' : a < (tree.files.map FileRecord.id).length := by rwa [List.length_map]
  have hb' : b < (tree.files.map FileRecord.id).length := by rwa [List.length_map]
  have hat : (tree.files.map FileRecord.id)[a] = (tree.files.map FileRecord.id)[b] := by
    rw [List.getElem_map, List.getElem_map, hid]
  exact (List.Nodup.getElem_inj_iff hids).mp hat

theorem map_largestPlaces (sorts : Unstable ℕ) (hids : (tree.files.map FileRecord.id).Nodup)
    (hlength : tree.files.length < 2 ^ 32) {count : ℕ} (hcount : 0 < count) :
    (tree.largestPlaces sorts count).map tree.fileAt = tree.largestOrder.take count := by
  have htrans : Std.TransCmp tree.comparePlaces := transCmp_comap tree.fileAt
  have hties := ties_places hids hlength
  have hsorted : (sorted tree.comparePlaces tree.filePlaces).map tree.fileAt = tree.largestOrder :=
    map_sorted (map_fileAt hlength) (ties hids)
  unfold largestPlaces
  split
  case isTrue hless =>
    rw [sorts.smallest_eq hties (by omega) (by omega) (by omega), List.map_take, hsorted]
  case isFalse hall =>
    have hlength : tree.filePlaces.length = tree.files.length := by
      rw [filePlaces, List.length_range, asU32_of_lt hlength]
    rw [sorts.sortBy_eq hties, hsorted, List.take_of_length_le]
    rw [largestOrder, length_sorted]
    omega

theorem largestOrder_perm (tree : TreeIndex) : tree.largestOrder.Perm tree.files := sorted_perm _ _

theorem pairwise_largestOrder (hids : (tree.files.map FileRecord.id).Nodup) :
    tree.largestOrder.Pairwise Larger := by
  have hnodup : (tree.largestOrder.map FileRecord.id).Nodup :=
    (tree.largestOrder_perm.map _).nodup_iff.mpr hids
  exact (sorted_sorted tree.files).imp₂ (fun _ _ ↦ larger_of_isLE) (List.pairwise_map.mp hnodup)

/-- What a memoised order holds once it is built. -/
def Memoised (tree : TreeIndex) (largestFiles : Option (List ℕ)) : Prop :=
  ∀ places, largestFiles = some places →
    places.map tree.fileAt = tree.largestOrder.take (min largestFileCacheCap tree.files.length)

section Requests

variable (hids : (tree.files.map FileRecord.id).Nodup) (hlength : tree.files.length < 2 ^ 32)
  (sorts : Unstable ℕ) {largestFiles : Option (List ℕ)} (hmemoised : Memoised tree largestFiles)

include hids hlength hmemoised

/-- A request within the cap keeps or builds the memoised order. -/
theorem map_cached (hnonempty : 0 < tree.files.length) :
    (largestFiles.getD (tree.largestPlaces sorts (min largestFileCacheCap tree.files.length))).map
      tree.fileAt = tree.largestOrder.take (min largestFileCacheCap tree.files.length) := by
  cases hcell : largestFiles with
  | none => exact map_largestPlaces sorts hids hlength (lt_min (by decide) hnonempty)
  | some places => exact hmemoised places hcell

theorem forEachLargestFile_spec (limit : ℕ) :
    (tree.forEachLargestFile sorts largestFiles limit).1 =
        tree.largestOrder.take (min limit tree.files.length) ∧
      Memoised tree (tree.forEachLargestFile sorts largestFiles limit).2 := by
  unfold forEachLargestFile
  dsimp only
  split
  case isTrue hzero =>
    rw [hzero]
    exact ⟨rfl, hmemoised⟩
  case isFalse hpos =>
    split
    case isTrue hcap =>
      have hcached := map_cached hids hlength sorts hmemoised (by omega)
      refine ⟨?_, fun places hplaces ↦ ?_⟩
      · have hmin : min (min limit tree.files.length)
            (min largestFileCacheCap tree.files.length) = min limit tree.files.length :=
          Nat.min_eq_left (le_min hcap (min_le_right _ _))
        simp only [List.map_take, hcached, List.take_take, hmin]
      · obtain rfl := Option.some.inj hplaces
        exact hcached
    case isFalse hcap =>
      exact ⟨map_largestPlaces sorts hids hlength (by omega), hmemoised⟩

theorem forEachLargestFilePage_spec (offset limit : ℕ) :
    (tree.forEachLargestFilePage sorts largestFiles offset limit).1 =
        (tree.largestOrder.drop offset).take limit ∧
      Memoised tree (tree.forEachLargestFilePage sorts largestFiles offset limit).2 := by
  have horder : tree.largestOrder.length = tree.files.length := length_sorted _ _
  unfold forEachLargestFilePage
  split
  case isTrue hnone =>
    refine ⟨?_, hmemoised⟩
    rcases hnone with hend | rfl
    · rw [List.drop_eq_nil_iff.mpr (by omega), List.take_nil]
    · exact List.take_zero.symm
  case isFalse =>
    have hspec := forEachLargestFile_spec hids hlength sorts hmemoised (min (offset + limit) usizeMax)
    refine ⟨?_, hspec.2⟩
    dsimp only
    have hall : min (min (offset + limit) usizeMax) tree.files.length =
        min (offset + limit) tree.largestOrder.length := by
      unfold usizeMax
      omega
    rw [hspec.1, hall, ← List.take_take, List.take_length, List.drop_take, Nat.add_sub_cancel_left]

end Requests

/-- Every request is answered by its part of one order. -/
theorem serveAllLargest_eq (hids : (tree.files.map FileRecord.id).Nodup)
    (hlength : tree.files.length < 2 ^ 32) {largestFiles : Option (List ℕ)}
    (hmemoised : Memoised tree largestFiles) (requests : List LargestRequest) :
    tree.serveAllLargest largestFiles requests =
      requests.map (LargestRequest.slice tree.largestOrder) := by
  have horder : tree.largestOrder.length = tree.files.length := length_sorted _ _
  induction requests generalizing largestFiles with
  | nil => rfl
  | cons request rest ih =>
      have hspec : (tree.serveLargest largestFiles request).1 = request.slice tree.largestOrder ∧
          Memoised tree (tree.serveLargest largestFiles request).2 := by
        cases request with
        | largest sorts limit =>
            rw [LargestRequest.slice, horder]
            exact forEachLargestFile_spec hids hlength sorts hmemoised limit
        | page sorts offset limit =>
            exact forEachLargestFilePage_spec hids hlength sorts hmemoised offset limit
      rw [serveAllLargest, hspec.1, ih hspec.2, List.map_cons]

end TreeIndex

/-- Consecutive pages make up the order. -/
theorem flatMap_pages (order : List FileRecord) (sorts : Unstable ℕ) (limit count : ℕ) :
    (List.range count).flatMap (fun page ↦
      (LargestRequest.page sorts (page * limit) limit).slice order) = order.take (count * limit) := by
  induction count with
  | zero => simp
  | succ count ih =>
      rw [List.range_succ, List.flatMap_append, ih, List.flatMap_singleton, Nat.succ_mul, List.take_add]
      rfl

theorem TreeIndex.files_of_build {fuel : ℕ} {transaction : BufferedIndexTransaction} {tree : TreeIndex}
    (h : TreeIndex.build fuel transaction = some tree) : tree.files = transaction.snapshotFiles := by
  obtain ⟨nodes, -, rfl⟩ := Option.map_eq_some_iff.mp h
  rfl

theorem TreeIndex.nodup_files_of_build {fuel : ℕ} {transaction : BufferedIndexTransaction}
    {tree : TreeIndex} (h : TreeIndex.build fuel transaction = some tree) :
    (tree.files.map FileRecord.id).Nodup := by
  rw [TreeIndex.files_of_build h]
  exact KeyOrder.nodup_map_sortByKey _ _ transaction.files.nodup_keys

/-- All requests are answered from one order of all files, whatever came before. -/
theorem TreeIndex.largestFiles_slices {fuel : ℕ} {transaction : BufferedIndexTransaction}
    {tree : TreeIndex} (hbuild : TreeIndex.build fuel transaction = some tree)
    (hlength : tree.files.length < 2 ^ 32) :
    ∃ order : List FileRecord, order.Perm tree.files ∧ order.Pairwise Larger ∧
      (∀ requests, tree.serveAllLargest none requests =
        requests.map (LargestRequest.slice order)) ∧
      ∀ sorts limit count, tree.files.length ≤ count * limit →
        (List.range count).flatMap (fun page ↦
          (LargestRequest.page sorts (page * limit) limit).slice order) = order := by
  have hids := TreeIndex.nodup_files_of_build hbuild
  refine ⟨tree.largestOrder, tree.largestOrder_perm, TreeIndex.pairwise_largestOrder hids,
    TreeIndex.serveAllLargest_eq hids hlength (fun _ h ↦ by cases h), fun sorts limit count hall ↦ ?_⟩
  rw [flatMap_pages, List.take_of_length_le]
  rwa [tree.largestOrder_perm.length_eq]

theorem TreeIndex.directories_of_build {fuel : ℕ} {transaction : BufferedIndexTransaction}
    {tree : TreeIndex} (h : TreeIndex.build fuel transaction = some tree) :
    tree.directories = transaction.snapshotDirectories := by
  obtain ⟨nodes, -, rfl⟩ := Option.map_eq_some_iff.mp h
  rfl

theorem exists_build_twoLevels : ∃ tree, TreeIndex.build 3 twoLevels = some tree ∧
    tree.directories.length = 2 ∧ tree.files.length = 2 := by
  obtain ⟨tree, hbuild⟩ := Option.isSome_iff_exists.mp
    (TreeIndex.build_isSome twoLevels (by decide) (show _ ≤ 3 by decide))
  refine ⟨tree, hbuild, ?_, ?_⟩
  · rw [TreeIndex.directories_of_build hbuild, BufferedIndexTransaction.snapshotDirectories,
      KeyOrder.length_sortByKey]
    rfl
  · rw [TreeIndex.files_of_build hbuild, BufferedIndexTransaction.snapshotFiles,
      KeyOrder.length_sortByKey]
    rfl

theorem largestFiles_slices_twoLevels : ∃ tree, TreeIndex.build 3 twoLevels = some tree ∧
    ∃ order : List FileRecord, order.Perm tree.files ∧ order.Pairwise Larger ∧
      (∀ requests, tree.serveAllLargest none requests =
        requests.map (LargestRequest.slice order)) ∧
      ∀ sorts limit count, tree.files.length ≤ count * limit →
        (List.range count).flatMap (fun page ↦
          (LargestRequest.page sorts (page * limit) limit).slice order) = order := by
  obtain ⟨tree, hbuild, -, hfiles⟩ := exists_build_twoLevels
  exact ⟨tree, hbuild, TreeIndex.largestFiles_slices hbuild (by omega)⟩

theorem isSome_build_crowded :
    (TreeIndex.build 1 (crowdedIndex (le_refl (2 ^ 32)))).isSome = true := by
  have hdirectories : (crowdedIndex (le_refl (2 ^ 32))).directories.records.length = 1 := by
    have hone : (.ofList [crowdedDirectory] : KeyedArena DirectoryRecord.id).records.length = 1 := by
      decide
    exact hone
  exact TreeIndex.build_isSome _ (by omega) hdirectories.le

theorem length_files_crowded {tree : TreeIndex}
    (hbuild : TreeIndex.build 1 (crowdedIndex (le_refl (2 ^ 32))) = some tree) :
    tree.files.length = 2 ^ 32 := by
  rw [TreeIndex.files_of_build hbuild, BufferedIndexTransaction.snapshotFiles, KeyOrder.length_sortByKey]
  simp [crowdedIndex, crowd]

/-- The places of `2 ^ 32` files are counted as none. -/
theorem largestFiles_crowded : ∃ tree, TreeIndex.build 1 (crowdedIndex (le_refl (2 ^ 32))) = some tree ∧
    tree.files.length = 2 ^ 32 ∧ tree.serveAllLargest none [.largest .ofMergeSort 1] = [[]] := by
  obtain ⟨tree, hbuild⟩ := Option.isSome_iff_exists.mp isSome_build_crowded
  have hlength := length_files_crowded hbuild
  have hplaces : tree.filePlaces = [] := by
    rw [TreeIndex.filePlaces, hlength]
    rfl
  have hnone : tree.largestPlaces .ofMergeSort (min largestFileCacheCap (2 ^ 32)) = [] := by
    rw [TreeIndex.largestPlaces, hplaces, List.length_nil, if_neg (Nat.not_lt_zero _)]
    exact List.perm_nil.mp (Unstable.ofMergeSort.sortBy_perm _ [])
  refine ⟨tree, hbuild, hlength, ?_⟩
  have htake : min 1 (2 ^ 32) = 1 := rfl
  simp only [TreeIndex.serveAllLargest, TreeIndex.serveLargest, TreeIndex.forEachLargestFile, hlength,
    htake, Option.getD_none, hnone, one_ne_zero, if_false]
  rfl

end WinBlaze
