import WinBlaze.Index.CombinedTotals

/-!
# Combined catalogs

Records survive combining. Totals survive exactly when no catalog has a second
directory without a parent and the directory that gets number 5 is not its own
parent.
-/

namespace WinBlaze

namespace MultipleRoots

open Offsets ParentChain TreeSweep

/-! ## What combining is for -/

/-- The totals of a catalog's root. -/
def rootRollup (scan : TreeCatalog) : DirRollup := (scan.tree.rootEntry.map Prod.snd).getD 0

/-- The number a directory of the catalog gets. -/
def directoryNumber (scans : List TreeCatalog) (i k : ℕ) : UInt64 := .ofNat (directoryPlace scans i k)

/-- Paths and sizes of a directory. -/
structure SameDirectory (kept source : DirectoryRecord) : Prop where
  fullPath : kept.fullPath = source.fullPath
  directBytes : kept.directBytes = source.directBytes
  totalBytes : kept.totalBytes = source.totalBytes
  directEntries : kept.directEntries = source.directEntries
  totalEntries : kept.totalEntries = source.totalEntries

/-- Directories and files survive with their paths, sizes and metadata. -/
structure KeepsRecords (scans : List TreeCatalog) (combined : TreeCatalog) : Prop where
  directoryCount : combined.tree.directories.length = 1 + (allDirectories scans).length
  directories : ∀ i scan k directory, scans[i]? = some scan →
    scan.tree.directories[k]? = some directory →
    ∃ kept, combined.tree.directories[directoryPlace scans i k]? = some kept ∧
      kept.id.val = directoryNumber scans i k ∧ SameDirectory kept directory
  fileCount : combined.tree.files.length = (scans.map fileCount).sum
  files : ∀ i scan k file, scans[i]? = some scan → scan.tree.files[k]? = some file →
    ∃ kept, combined.tree.files[filePlace scans i k]? = some kept ∧
      kept = { file with id := kept.id, parentDirectoryId := kept.parentDirectoryId } ∧
      combined.tree.fileDisplayPath kept = scan.tree.fileDisplayPath file ∧
      combined.exportMetadata.find? kept.id.val = scan.exportMetadata.find? file.id.val

/-- The synthetic root holds the totals of all catalogs, whose roots and other
directories keep their own. -/
structure KeepsTotals (scans : List TreeCatalog) (combined : TreeCatalog) : Prop where
  root : combined.tree.rootEntry =
    some (multipleRoots, (scans.map fun scan ↦ rootRollup scan + DirRollup.mark).sum)
  sourceRoots : ∀ i scan place, scans[i]? = some scan → scan.tree.root = some place →
    combined.tree.rollupFor (directoryNumber scans i place) = some (rootRollup scan)
  directories : ∀ i scan k directory, scans[i]? = some scan →
    scan.tree.directories[k]? = some directory →
    combined.tree.rollupFor (directoryNumber scans i k) = scan.tree.rollupFor directory.id.val

/-- The tree is what `build` makes of some records. -/
def FromRecords (tree : TreeIndex) : Prop :=
  ∃ transaction : BufferedIndexTransaction,
    TreeIndex.build transaction.directories.records.length transaction = some tree

/-- Only the root of a catalog lacks a parent in it. -/
def OnlyRootsLikeRoots (scans : List TreeCatalog) : Prop :=
  ∀ scan ∈ scans, ∀ k directory, scan.tree.directories[k]? = some directory →
    RootLike scan.tree.directories directory → scan.tree.root = some k

/-! ## Records -/

section Records

variable {scans : List TreeCatalog} {scan : TreeCatalog} {combined : TreeCatalog} {i k : ℕ}

theorem directoryFullPath_eq {tree : TreeIndex} (h : tree.IsBuilt) {id : UInt64} {l : ℕ}
    (hl : directoryIndex tree.directories id = some l) :
    tree.directoryFullPath id = tree.directories[l]?.map DirectoryRecord.fullPath := by
  rw [TreeIndex.directoryFullPath, h.lookup, DirectoryLookup.get_new h.ids h.length, hl,
    Option.bind_some]

/-- A file is shown under the path it had in its catalog. -/
theorem fileDisplayPath_combinedFile (hbuilt : AllBuilt scans)
    (hcount : (combinedDirectories scans).length < 2 ^ 32) (h : IsCombined scans combined)
    (hscan : scans[i]? = some scan) {file : FileRecord} (hfile : file ∈ scan.tree.files) (number : ℕ) :
    combined.tree.fileDisplayPath
        (combinedFile (numbering (directoryPlace scans i 0) scan.tree.directories) number file) =
      scan.tree.fileDisplayPath file := by
  have hmem := List.mem_of_getElem? hscan
  have htree := hbuilt scan hmem
  obtain ⟨l, hlt, hl⟩ := fileDirectory_of_placed hbuilt h.placed hmem hfile
  have hget := List.getElem?_eq_getElem hlt
  have hparent : (combinedFile (numbering (directoryPlace scans i 0) scan.tree.directories) number
      file).parentDirectoryId.val = .ofNat (directoryPlace scans i l) := by
    simp only [combinedFile, find?_numbering htree.ids, hl, Option.map_some, Option.getD_some,
      directoryPlace_zero_add]
  have hplace : directoryIndex combined.tree.directories (.ofNat (directoryPlace scans i l)) =
      some (directoryPlace scans i l) := by
    rw [h.directories]
    exact directoryIndex_combinedDirectories hbuilt hcount (directoryPlace_lt hscan hlt)
  unfold TreeIndex.fileDisplayPath
  rw [hparent, directoryFullPath_eq h.built hplace, directoryFullPath_eq htree hl, h.directories,
    getElem?_combinedDirectories hscan hget, hget]
  rfl

theorem mem_atOffsets_metadataBlock {number : UInt64} {value : FileExportMetadata} :
    (number, value) ∈ atOffsets span metadataBlock 0 scans ↔
      ∃ i scan k file, scans[i]? = some scan ∧ scan.tree.files[k]? = some file ∧
        number = .ofNat (1 + filePlace scans i k) ∧
        scan.exportMetadata.find? file.id.val = some value := by
  simp only [mem_atOffsets, metadataBlock, List.mem_filterMap, Prod.exists,
    List.mk_mem_zipIdx_iff_getElem?, metadataEntry, Option.map_eq_some_iff, Prod.mk.injEq, zero_add,
    offset_span, filePlace, ← Nat.add_assoc]
  constructor
  · rintro ⟨i, scan, hscan, file, k, hget, found, hfound, rfl, rfl⟩
    exact ⟨i, scan, k, file, hscan, hget, rfl, hfound⟩
  · rintro ⟨i, scan, k, file, hscan, hget, rfl, hfound⟩
    exact ⟨i, scan, hscan, file, k, hget, value, hfound, rfl, rfl⟩

theorem filePlace_inj {j l : ℕ} {other : TreeCatalog} (hscan : scans[i]? = some scan)
    (hother : scans[j]? = some other) (hk : k < scan.tree.files.length)
    (hl : l < other.tree.files.length) (heq : filePlace scans i k = filePlace scans j l) :
    i = j ∧ k = l := by
  have hoffsets : offset fileCount scans i + k = offset fileCount scans j + l := heq
  exact offset_inj hscan hother hk hl hoffsets

theorem filePlace_lt (hscan : scans[i]? = some scan) (hk : k < scan.tree.files.length) :
    filePlace scans i k < (combinedFiles scans).length := by
  have hle : offset fileCount scans i + fileCount scan ≤ (scans.map fileCount).sum := offset_add_le hscan
  rw [length_combinedFiles]
  unfold filePlace
  unfold fileCount at hle ⊢
  omega

theorem metadataNumbers_sublist (start : ℕ × ℕ) (scans : List TreeCatalog) :
    ((atOffsets span metadataBlock start scans).map Prod.fst).Sublist
      ((atOffsets span fileBlock start scans).map fun file ↦ file.id.val) := by
  induction scans generalizing start with
  | nil => exact List.Sublist.refl _
  | cons scan rest ih =>
      simp only [atOffsets, List.map_append]
      refine List.Sublist.append ?_ (ih _)
      rw [metadataBlock, fileBlock, List.map_map]
      generalize scan.tree.files.zipIdx = entries
      induction entries with
      | nil => exact List.Sublist.refl _
      | cons entry rest ih =>
          rw [List.filterMap_cons]
          cases hvalue : metadataEntry scan (1 + start.2 + entry.2) entry.1 with
          | none => exact ih.cons _
          | some value =>
              obtain ⟨found, -, rfl⟩ := Option.map_eq_some_iff.mp hvalue
              exact ih.cons_cons _

/-- A file keeps the metadata it has in its catalog. -/
theorem find?_exportMetadata (hfiles : (combinedFiles scans).length < 2 ^ 32)
    (hscan : scans[i]? = some scan) {file : FileRecord} (hget : scan.tree.files[k]? = some file) :
    (IdMap.ofPairs (atOffsets span metadataBlock 0 scans)).find? (.ofNat (1 + filePlace scans i k)) =
      scan.exportMetadata.find? file.id.val := by
  have hnodup : ((atOffsets span metadataBlock 0 scans).map Prod.fst).Nodup := by
    refine (metadataNumbers_sublist 0 scans).nodup ?_
    have hids := (nodup_combinedFiles hfiles).map FileId.val_injective
    rwa [List.map_map] at hids
  apply Option.ext
  intro value
  rw [IdMap.find?_ofPairs_iff hnodup, mem_atOffsets_metadataBlock]
  constructor
  · rintro ⟨j, other, l, source, hother, hsource, hnumber, hvalue⟩
    have hk := (List.getElem?_eq_some_iff.mp hget).1
    have hl := (List.getElem?_eq_some_iff.mp hsource).1
    have hplace := filePlace_lt hscan hk
    have hplaceOther := filePlace_lt hother hl
    have hval := congrArg UInt64.toNat hnumber
    simp only [UInt64.toNat_ofNat'] at hval
    obtain ⟨rfl, rfl⟩ := filePlace_inj hscan hother hk hl (by omega)
    obtain rfl := Option.some.inj (hscan.symm.trans hother)
    obtain rfl := Option.some.inj (hget.symm.trans hsource)
    exact hvalue
  · intro hvalue
    exact ⟨i, scan, k, file, hscan, hget, rfl, hvalue⟩

theorem IsCombined.keepsRecords (h : IsCombined scans combined) (hbuilt : AllBuilt scans)
    (hdirectories : (combinedDirectories scans).length < 2 ^ 32)
    (hfiles : (combinedFiles scans).length < 2 ^ 32) : KeepsRecords scans combined := by
  refine ⟨?_, fun i scan k directory hscan hget ↦ ?_, ?_, fun i scan k file hscan hget ↦ ?_⟩
  · rw [h.directories, length_combinedDirectories, length_allDirectories]
  · have hkept := getElem?_combinedDirectories hscan hget
    refine ⟨combinedDirectory (numbering (directoryPlace scans i 0) scan.tree.directories) directory,
      ?_, ?_, rfl, rfl, rfl, rfl, rfl⟩
    · rwa [h.directories]
    · rw [id_combinedDirectories hbuilt hkept, directoryNumber]
  · rw [h.files, length_combinedFiles]
  · refine ⟨_, h.files ▸ getElem?_combinedFiles hscan hget, rfl, ?_, ?_⟩
    · exact fileDisplayPath_combinedFile hbuilt hdirectories h hscan (List.mem_of_getElem? hget) _
    · rw [h.exportMetadata]
      exact find?_exportMetadata hfiles hscan hget

end Records

/-! ## Totals -/

section Totals

variable {scans : List TreeCatalog} {scan : TreeCatalog} {combined : TreeCatalog} {i k : ℕ}

/-- A catalog that is accepted has a root. -/
theorem exists_root_of_combined (h : IsCombined scans combined) (hbuilt : AllBuilt scans)
    (hacyclic : ∀ scan ∈ scans, AcyclicParents scan.tree.directories) (hscan : scan ∈ scans) :
    ∃ root directory, scan.tree.root = some root ∧ scan.tree.directories[root]? = some directory ∧
      RootLike scan.tree.directories directory := by
  refine (hbuilt scan hscan).exists_root (hacyclic scan hscan) fun hempty ↦ h.roots scan hscan ?_
  cases hroot : scan.tree.root with
  | none => rw [TreeIndex.rootEntry, hroot, Option.bind_none]
  | some root => simp [TreeIndex.rootEntry, hroot, hempty]

theorem ends_catalog (hbuilt : AllBuilt scans)
    (hacyclic : ∀ scan ∈ scans, AcyclicParents scan.tree.directories) (hscan : scan ∈ scans)
    (root : Option ℕ) (k : ℕ) : Ends (structuralParent scan.tree.directories root) k :=
  ends_structuralParent (hbuilt scan hscan).ids (hacyclic scan hscan) k

theorem rootRollup_eq (h : IsCombined scans combined) (hbuilt : AllBuilt scans)
    (hacyclic : ∀ scan ∈ scans, AcyclicParents scan.tree.directories) (hscan : scan ∈ scans) :
    rootRollup scan = (scan.tree.files.map FileRecord.contribution).sum +
      (scan.tree.directories.length - 1) • DirRollup.mark := by
  obtain ⟨root, directory, hroot, hget, -⟩ := exists_root_of_combined h hbuilt hacyclic hscan
  obtain ⟨node, hnode, hrollup⟩ := rollup_root (hbuilt scan hscan) hroot
    (ends_catalog hbuilt hacyclic hscan scan.tree.root)
  rw [rootRollup, rootEntry_eq hroot hget hnode, ← hrollup]
  rfl

theorem sum_map_add_nsmul {α M : Type*} [AddCommMonoid M] (l : List α) (value : α → M) (count : α → ℕ)
    (mark : M) : (l.map fun a ↦ value a + count a • mark).sum =
      (l.map value).sum + (l.map count).sum • mark := by
  induction l with
  | nil => simp
  | cons a rest ih =>
      simp only [List.map_cons, List.sum_cons, ih, add_nsmul]
      exact add_add_add_comm _ _ _ _

/-- Together the roots of the catalogs hold everything. -/
theorem sum_rootRollup (h : IsCombined scans combined) (hbuilt : AllBuilt scans)
    (hacyclic : ∀ scan ∈ scans, AcyclicParents scan.tree.directories) :
    (scans.map fun scan ↦ rootRollup scan + DirRollup.mark).sum =
      ((combinedFiles scans).map FileRecord.contribution).sum +
        ((combinedDirectories scans).length - 1) • DirRollup.mark := by
  have hone : ∀ scan ∈ scans, rootRollup scan + DirRollup.mark =
      (scan.tree.files.map FileRecord.contribution).sum + directoryCount scan • DirRollup.mark := by
    intro scan hscan
    obtain ⟨root, directory, -, hget, -⟩ := exists_root_of_combined h hbuilt hacyclic hscan
    have hpositive := (List.getElem?_eq_some_iff.mp hget).1
    rw [rootRollup_eq h hbuilt hacyclic hscan, add_assoc, ← succ_nsmul, directoryCount,
      Nat.sub_add_cancel (by omega)]
  have hfiles : ((combinedFiles scans).map FileRecord.contribution).sum =
      (scans.map fun scan ↦ (scan.tree.files.map FileRecord.contribution).sum).sum := by
    refine sum_map_atOffsets (fun start scan _ ↦ ?_) 0
    have hblock : (fileBlock start scan).map FileRecord.contribution =
        scan.tree.files.map FileRecord.contribution := by
      have hmap := filter_zipIdx_map scan.tree.files (fun entry ↦ combinedFile
        (numbering (1 + start.1) scan.tree.directories) (1 + start.2 + entry.2) entry.1)
        (fun _ ↦ true) (fun _ ↦ true) FileRecord.contribution FileRecord.contribution
        fun _ _ ↦ ⟨rfl, rfl⟩
      rwa [List.filter_true, List.filter_true] at hmap
    rw [hblock]
  rw [List.map_congr_left hone, sum_map_add_nsmul, hfiles, length_combinedDirectories,
    Nat.add_sub_cancel_left]

/-- The totals of the combined tree beneath its synthetic root. -/
theorem rollupFor_combined (h : IsCombined scans combined) (hbuilt : AllBuilt scans)
    (hcount : (combinedDirectories scans).length < 2 ^ 32)
    (hacyclic : ∀ scan ∈ scans, AcyclicParents scan.tree.directories)
    (hroot : combined.tree.root = some 0) (hscan : scans[i]? = some scan)
    (hk : k < scan.tree.directories.length) :
    combined.tree.rollupFor (directoryNumber scans i k) =
      some (total scan.tree.directories.length (structuralParent scan.tree.directories none)
        (fun k ↦ ((filesAt scan.tree.directories none scan.tree.files k).map
          FileRecord.contribution).sum) DirRollup.mark k) := by
  have hplace := directoryPlace_lt hscan hk
  have hindex : directoryIndex combined.tree.directories (directoryNumber scans i k) =
      some (directoryPlace scans i k) := by
    rw [h.directories]
    exact directoryIndex_combinedDirectories hbuilt hcount hplace
  have hends : ∀ place, Ends (structuralParent combined.tree.directories combined.tree.root) place := by
    rw [h.directories, hroot]
    exact ends_combined hbuilt hcount hacyclic
  obtain ⟨node, hnode, hrollup⟩ := h.built.rollup hends (by simp [hroot]) (directoryPlace scans i k)
    (h.directories ▸ hplace)
  rw [h.directories, h.files, hroot, total_combined hbuilt hcount h.placed hscan hk] at hrollup
  rw [rollupFor_eq h.built hindex, hnode, ← hrollup]
  rfl

theorem rootEntry_combined (h : IsCombined scans combined) (hbuilt : AllBuilt scans)
    (hcount : (combinedDirectories scans).length < 2 ^ 32)
    (hacyclic : ∀ scan ∈ scans, AcyclicParents scan.tree.directories)
    (hroot : combined.tree.root = some 0) : combined.tree.rootEntry =
      some (multipleRoots, (scans.map fun scan ↦ rootRollup scan + DirRollup.mark).sum) := by
  have hends : ∀ place, Ends (structuralParent combined.tree.directories combined.tree.root) place := by
    rw [h.directories, hroot]
    exact ends_combined hbuilt hcount hacyclic
  obtain ⟨node, hnode, hrollup⟩ := rollup_root h.built hroot hends
  have hget : combined.tree.directories[0]? = some multipleRoots := by rw [h.directories]; rfl
  rw [rootEntry_eq hroot hget hnode, hrollup, sum_rootRollup h hbuilt hacyclic, h.directories, h.files]

/-- Where only the roots lack a parent, totals do not depend on the root rule. -/
theorem rollup_catalog (h : IsCombined scans combined) (hbuilt : AllBuilt scans)
    (hacyclic : ∀ scan ∈ scans, AcyclicParents scan.tree.directories)
    (honly : OnlyRootsLikeRoots scans) (hscan : scan ∈ scans)
    (hk : k < scan.tree.directories.length) :
    ∃ node, scan.tree.nodes[k]? = some node ∧ node.rollup =
      total scan.tree.directories.length (structuralParent scan.tree.directories none)
        (fun k ↦ ((filesAt scan.tree.directories none scan.tree.files k).map
          FileRecord.contribution).sum) DirRollup.mark k := by
  obtain ⟨root, top, hroot, htop, hlike⟩ := exists_root_of_combined h hbuilt hacyclic hscan
  have honlyRoot : ∀ k directory, scan.tree.directories[k]? = some directory →
      (RootLike scan.tree.directories directory ↔ k = root) := by
    intro k directory hget
    constructor
    · intro hdirectory
      have hsame := honly scan hscan k directory hget hdirectory
      rw [hroot] at hsame
      exact (Option.some.inj hsame).symm
    · rintro rfl
      exact Option.some.inj (htop.symm.trans hget) ▸ hlike
  obtain ⟨node, hnode, hrollup⟩ := (hbuilt scan hscan).rollup
    (ends_catalog hbuilt hacyclic hscan _) (by simp [hroot]) k hk
  refine ⟨node, hnode, ?_⟩
  have hfiles : ∀ l, filesAt scan.tree.directories (some root) scan.tree.files l =
      filesAt scan.tree.directories none scan.tree.files l := by
    refine filesAt_of_known (fun file hfile ↦ ?_) (some root)
    obtain ⟨l, -, hl⟩ := fileDirectory_of_placed hbuilt h.placed hscan hfile
    exact ⟨l, hl⟩
  rw [hroot, structuralParent_onlyRoot honlyRoot] at hrollup
  rw [hrollup]
  exact congrArg (total _ _ · _ _) (funext fun l ↦ by rw [hfiles])

theorem keepsTotals_of_onlyRoots (h : IsCombined scans combined) (hbuilt : AllBuilt scans)
    (hcount : (combinedDirectories scans).length < 2 ^ 32)
    (hacyclic : ∀ scan ∈ scans, AcyclicParents scan.tree.directories)
    (hroot : combined.tree.root = some 0) (honly : OnlyRootsLikeRoots scans) :
    KeepsTotals scans combined := by
  refine ⟨rootEntry_combined h hbuilt hcount hacyclic hroot, fun i scan place hscan hplace ↦ ?_,
    fun i scan k directory hscan hget ↦ ?_⟩
  · have hmem := List.mem_of_getElem? hscan
    have hlt := (hbuilt scan hmem).root_lt place hplace
    obtain ⟨node, hnode, hrollup⟩ := rollup_catalog h hbuilt hacyclic honly hmem hlt
    rw [rollupFor_combined h hbuilt hcount hacyclic hroot hscan hlt, rootRollup,
      rootEntry_eq hplace (List.getElem?_eq_getElem hlt) hnode, ← hrollup]
    rfl
  · have hmem := List.mem_of_getElem? hscan
    have hlt := (List.getElem?_eq_some_iff.mp hget).1
    obtain ⟨node, hnode, hrollup⟩ := rollup_catalog h hbuilt hacyclic honly hmem hlt
    rw [rollupFor_combined h hbuilt hcount hacyclic hroot hscan hlt,
      rollupFor_eq (hbuilt scan hmem) (directoryIndex_self (hbuilt scan hmem).ids hget), hnode, ← hrollup]
    rfl

/-- A second directory without a parent is missing beneath its catalog's root. -/
theorem rollup_root_lt (h : IsCombined scans combined) (hbuilt : AllBuilt scans)
    (hacyclic : ∀ scan ∈ scans, AcyclicParents scan.tree.directories)
    (hfiles : (combinedFiles scans).length < 2 ^ 32) (hscan : scan ∈ scans) {root : ℕ}
    (hroot : scan.tree.root = some root) {directory : DirectoryRecord}
    (hget : scan.tree.directories[k]? = some directory)
    (hlike : RootLike scan.tree.directories directory) (hne : k ≠ root) :
    total scan.tree.directories.length (structuralParent scan.tree.directories none)
      (fun k ↦ ((filesAt scan.tree.directories none scan.tree.files k).map
        FileRecord.contribution).sum) DirRollup.mark root ≠ rootRollup scan := by
  have hends := ends_catalog hbuilt hacyclic hscan none
  have hlt := (hbuilt scan hscan).root_lt root hroot
  have hk := (List.getElem?_eq_some_iff.mp hget).1
  have hlength := (hbuilt scan hscan).length
  have hfileCount : scan.tree.files.length < 2 ^ 32 := by
    obtain ⟨i, hi, rfl⟩ := List.mem_iff_getElem.mp hscan
    have hle : offset fileCount scans i + fileCount scans[i] ≤ (scans.map fileCount).sum :=
      offset_add_le (List.getElem?_eq_getElem hi)
    rw [length_combinedFiles] at hfiles
    unfold fileCount at hle hfiles
    omega
  rw [total_eq_sum_filesUnder (by simp) hends scan.tree.files hlt, rootRollup_eq h hbuilt hacyclic hscan]
  have hnotBelow : k ∉ descendants scan.tree.directories.length
      (structuralParent scan.tree.directories none) root := by
    rw [mem_descendants_iff]
    rintro ⟨-, n, hn⟩
    rw [ancestor_succ_of_none ((structuralParent_none_eq_none_iff hget).mpr hlike)] at hn
    cases hn
  have hcard : (descendants scan.tree.directories.length
      (structuralParent scan.tree.directories none) root).card ≤ scan.tree.directories.length - 2 := by
    have hsubset : descendants scan.tree.directories.length
        (structuralParent scan.tree.directories none) root ⊆
          ((Finset.range scan.tree.directories.length).erase root).erase k := by
      intro place hplace
      rw [Finset.mem_erase, Finset.mem_erase, Finset.mem_range]
      refine ⟨fun heq ↦ hnotBelow (heq ▸ hplace), fun heq ↦ ?_, (mem_descendants_iff.mp hplace).1⟩
      exact notMem_descendants_self hends root (heq ▸ hplace)
    refine (Finset.card_le_card hsubset).trans (le_of_eq ?_)
    rw [Finset.card_erase_of_mem, Finset.card_erase_of_mem, Finset.card_range, Nat.sub_sub]
    · exact Finset.mem_range.mpr hlt
    · exact Finset.mem_erase.mpr ⟨hne, Finset.mem_range.mpr hk⟩
  have hunder : (filesUnder scan.tree.directories none scan.tree.files root).length ≤
      scan.tree.files.length := List.length_filter_le _ _
  intro heq
  have hleft := (rollupIs_sum (filesUnder scan.tree.directories none scan.tree.files root)
    (descendants scan.tree.directories.length
      (structuralParent scan.tree.directories none) root).card (by
        unfold Saturating.maxValue
        omega)).itemCount
  have hright := (rollupIs_sum scan.tree.files (scan.tree.directories.length - 1) (by
    unfold Saturating.maxValue
    omega)).itemCount
  rw [heq, hright] at hleft
  omega

theorem FromRecords.isBuilt {tree : TreeIndex} (h : FromRecords tree)
    (hdirectories : tree.directories.length < 2 ^ 32) (hfiles : tree.files.length < 2 ^ 32) :
    tree.IsBuilt := by
  obtain ⟨transaction, hbuild⟩ := h
  obtain ⟨nodes, -, rfl⟩ := Option.map_eq_some_iff.mp hbuild
  simp only [BufferedIndexTransaction.snapshotDirectories, BufferedIndexTransaction.snapshotFiles,
    KeyOrder.length_sortByKey] at hdirectories hfiles
  obtain ⟨tree, hsame, -, -, hbuilt⟩ :=
    TreeIndex.exists_build transaction hdirectories hfiles (Nat.le_refl _)
  exact Option.some.inj (hsame.symm.trans hbuild) ▸ hbuilt

theorem allBuilt_of_fromRecords (hrecords : ∀ scan ∈ scans, FromRecords scan.tree)
    (hdirectories : (scans.map directoryCount).sum < 2 ^ 32)
    (hfiles : (scans.map fileCount).sum < 2 ^ 32) : AllBuilt scans := by
  intro scan hscan
  have hdirectoryLe : directoryCount scan ≤ (scans.map directoryCount).sum :=
    List.le_sum_of_mem (List.mem_map_of_mem hscan)
  have hfileLe : fileCount scan ≤ (scans.map fileCount).sum :=
    List.le_sum_of_mem (List.mem_map_of_mem hscan)
  unfold directoryCount at hdirectoryLe hdirectories
  unfold fileCount at hfileLe hfiles
  exact (hrecords scan hscan).isBuilt (by omega) (by omega)

/-- Combining keeps all records, and all totals exactly when every catalog has
one directory without a parent and the fifth is not its own parent. -/
theorem combine_keeps_iff {toLowercase : String → String} {fuel : ℕ}
    (hrecords : ∀ scan ∈ scans, FromRecords scan.tree)
    (hacyclic : ∀ scan ∈ scans, AcyclicParents scan.tree.directories)
    (hdirectories : (allDirectories scans).length + 1 < 2 ^ 32)
    (hfiles : (scans.map fileCount).sum < 2 ^ 32) (hfuel : (allDirectories scans).length < fuel)
    (haccepts : ∀ error, combine fuel toLowercase scans ≠ .error error) :
    ∃ combined, combine fuel toLowercase scans = .ok (some combined) ∧
      (KeepsRecords scans combined ∧ KeepsTotals scans combined ↔
        OnlyRootsLikeRoots scans ∧ ¬ FifthIsOwnParent scans) := by
  rw [length_allDirectories] at hdirectories hfuel
  have hbuilt := allBuilt_of_fromRecords hrecords (by omega) hfiles
  have hcount : (combinedDirectories scans).length < 2 ^ 32 := by
    rw [length_combinedDirectories]
    omega
  have hfileCount : (combinedFiles scans).length < 2 ^ 32 := by rwa [length_combinedFiles]
  obtain ⟨combined, hcombine, h⟩ := exists_combine hbuilt hcount hfileCount
    (by rw [length_combinedDirectories]; omega) haccepts
  refine ⟨combined, hcombine, ?_⟩
  rw [and_iff_right (h.keepsRecords hbuilt hcount hfileCount)]
  have hrootOf : combined.tree.root =
      chooseRoot (combinedDirectories scans) (DirectoryLookup.new (combinedDirectories scans)) := by
    rw [h.built.root, h.directories]
  rcases chooseRoot_combined hbuilt hcount with ⟨hfive, hfifth⟩ | ⟨hzero, hfifth⟩
  · refine iff_of_false (fun hkeeps ↦ ?_) fun hcondition ↦ hcondition.2 hfifth
    have hroot := hkeeps.root
    rw [TreeIndex.rootEntry, hrootOf, hfive, Option.bind_some, h.directories] at hroot
    obtain ⟨directory, hget, hentry⟩ := Option.bind_eq_some_iff.mp hroot
    obtain ⟨node, -, hnode⟩ := Option.map_eq_some_iff.mp hentry
    have hid := id_combinedDirectories hbuilt hget
    rw [(Prod.mk.inj hnode).1] at hid
    exact absurd hid (by decide)
  · rw [hzero] at hrootOf
    constructor
    · intro hkeeps
      refine ⟨fun scan hscan k directory hget hlike ↦ ?_, hfifth⟩
      obtain ⟨i, hi⟩ := List.mem_iff_getElem?.mp hscan
      obtain ⟨root, top, hroot, -, -⟩ := exists_root_of_combined h hbuilt hacyclic hscan
      by_contra hother
      have hne : k ≠ root := fun heq ↦ hother (heq ▸ hroot)
      have hkept := hkeeps.sourceRoots i scan root hi hroot
      rw [rollupFor_combined h hbuilt hcount hacyclic hrootOf hi
        ((hbuilt scan hscan).root_lt root hroot)] at hkept
      exact rollup_root_lt h hbuilt hacyclic hfileCount hscan hroot hget hlike hne
        (Option.some.inj hkept)
    · rintro ⟨honly, -⟩
      exact keepsTotals_of_onlyRoots h hbuilt hcount hacyclic hrootOf honly

end Totals

/-! ## Catalogs from records -/

def asciiLowercase (path : String) : String := String.ofList (path.toList.map Char.toLower)

def recordsOf (directories : List DirectoryRecord) (files : List FileRecord) :
    BufferedIndexTransaction := { directories := .ofList directories, files := .ofList files }

def catalogOf (directories : List DirectoryRecord) (files : List FileRecord)
    (h : (TreeIndex.build (recordsOf directories files).directories.records.length
      (recordsOf directories files)).isSome) : TreeCatalog where
  tree := (TreeIndex.build _ (recordsOf directories files)).get h

theorem fromRecords_catalogOf (directories : List DirectoryRecord) (files : List FileRecord)
    (h : (TreeIndex.build (recordsOf directories files).directories.records.length
      (recordsOf directories files)).isSome) : FromRecords (catalogOf directories files h).tree :=
  ⟨recordsOf directories files, (Option.some_get h).symm⟩

/-- A folder with one folder and one file in it. -/
def firstCatalog : TreeCatalog :=
  catalogOf [⟨⟨5⟩, none, "one", "C:\\one", 0, 0, 0, 0⟩, ⟨⟨7⟩, some ⟨5⟩, "sub", "C:\\one\\sub", 0, 0, 0, 0⟩]
    [⟨⟨20⟩, ⟨7⟩, "a.bin", "", 7, 4096, .archive, ⟨none, some 3, none⟩⟩] (by decide +kernel)

def secondCatalog : TreeCatalog :=
  catalogOf [⟨⟨5⟩, none, "two", "D:\\two", 0, 0, 0, 0⟩, ⟨⟨7⟩, some ⟨5⟩, "sub", "D:\\two\\sub", 0, 0, 0, 0⟩]
    [⟨⟨20⟩, ⟨5⟩, "b.bin", "", 9, 8192, .archive, ⟨none, none, none⟩⟩] (by decide +kernel)

/-- A folder that is its own parent. -/
def selfParented : TreeCatalog :=
  catalogOf [⟨⟨5⟩, some ⟨5⟩, "E:", "E:\\", 0, 0, 0, 0⟩] [] (by decide +kernel)

/-- A folder and one whose parent is missing. -/
def orphaned : TreeCatalog :=
  catalogOf [⟨⟨5⟩, none, "F:", "F:\\", 0, 0, 0, 0⟩, ⟨⟨9⟩, some ⟨8⟩, "lost", "", 0, 0, 0, 0⟩] []
    (by decide +kernel)

theorem combine_keeps_iff_twoCatalogs : ∃ combined,
    combine 5 asciiLowercase [firstCatalog, secondCatalog] = .ok (some combined) ∧
      (KeepsRecords [firstCatalog, secondCatalog] combined ∧
        KeepsTotals [firstCatalog, secondCatalog] combined ↔
          OnlyRootsLikeRoots [firstCatalog, secondCatalog] ∧
            ¬ FifthIsOwnParent [firstCatalog, secondCatalog]) := by
  refine combine_keeps_iff (fun scan hscan ↦ ?_) (fun scan hscan ↦ ?_) (by decide +kernel)
    (by decide +kernel) (by decide +kernel) fun error herror ↦ ?_
  · rcases List.mem_cons.mp hscan with rfl | hrest
    · exact fromRecords_catalogOf _ _ _
    · obtain rfl := List.mem_singleton.mp hrest
      exact fromRecords_catalogOf _ _ _
  · refine acyclicParents_of_rank (fun id ↦ id.val.toNat) ?_
    revert scan
    decide +kernel
  · have hok : (combine 5 asciiLowercase [firstCatalog, secondCatalog]).toOption.isSome = true := by
      decide +kernel
    rw [herror] at hok
    cases hok

/-- Four directories before a folder that is its own parent make it the root. A
directory without a parent leaves the totals of its catalog's root. -/
theorem combine_misplaces_root_and_orphan :
    ((combine 6 asciiLowercase [firstCatalog, secondCatalog, selfParented]).toOption.join.bind
      fun combined ↦ combined.tree.rootEntry.map fun entry ↦ entry.1.fullPath) = some "E:\\" ∧
    (rootRollup orphaned).itemCount = 1 ∧
    ((combine 3 asciiLowercase [orphaned]).toOption.join.bind fun combined ↦
      (combined.tree.rollupFor (directoryNumber [orphaned] 0 0)).map DirRollup.itemCount) = some 0 := by
  decide +kernel

end MultipleRoots

end WinBlaze
