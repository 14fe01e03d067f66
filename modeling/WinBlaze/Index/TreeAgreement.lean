import WinBlaze.Core.AggregateTotals
import WinBlaze.Index.TreeTotals

/-!
# The display tree and the search totals

Search aggregates directories by walking up from every entry, the display tree
sums bottom-up. Over a single tree both come to the same totals.
-/

namespace WinBlaze

open ParentChain Saturating TreeSweep

/-- Directories that form one tree: a single root, and all other parents
present. -/
structure SingleTree (directories : List DirectoryRecord) : Prop where
  ids : (directories.map DirectoryRecord.id).Nodup
  root : ∃ top ∈ directories, top.parentDirectoryId = none ∧
    ∀ directory ∈ directories, directory.parentDirectoryId = none → directory = top
  present : ∀ directory ∈ directories, ∀ parent, directory.parentDirectoryId = some parent →
    parent ∈ directories.map DirectoryRecord.id
  acyclic : NoParentCycle directories

/-! ## The order of the records -/

section Perm

variable {directories others : List DirectoryRecord}

theorem parentOf_perm (hids : (directories.map DirectoryRecord.id).Nodup)
    (hperm : directories.Perm others) : parentOf directories = parentOf others := by
  have hids' : (others.map DirectoryRecord.id).Nodup := (hperm.map _).nodup_iff.mp hids
  funext id
  by_cases hid : id ∈ directories.map DirectoryRecord.id
  · obtain ⟨directory, hmem, rfl⟩ := List.mem_map.mp hid
    rw [parentOf_eq hids hmem, parentOf_eq hids' (hperm.mem_iff.mp hmem)]
  · have hid' : id ∉ others.map DirectoryRecord.id := fun h ↦ hid ((hperm.map _).mem_iff.mpr h)
    rw [parentOf_eq_none hid, parentOf_eq_none hid']

theorem SingleTree.perm (h : SingleTree directories) (hperm : directories.Perm others) :
    SingleTree others where
  ids := (hperm.map _).nodup_iff.mp h.ids
  root := by
    obtain ⟨top, htop, hnone, hunique⟩ := h.root
    exact ⟨top, hperm.mem_iff.mp htop, hnone, fun directory hmem ↦
      hunique directory (hperm.mem_iff.mpr hmem)⟩
  present := by
    intro directory hmem parent hparent
    exact (hperm.map _).mem_iff.mp (h.present directory (hperm.mem_iff.mpr hmem) parent hparent)
  acyclic := by
    intro id hcycle
    rw [← parentOf_perm h.ids hperm] at hcycle
    exact h.acyclic id hcycle

theorem directoriesBelow_perm (hids : (directories.map DirectoryRecord.id).Nodup)
    (hperm : directories.Perm others) (top : DirectoryId) :
    (directoriesBelow directories top).Perm (directoriesBelow others top) := by
  unfold directoriesBelow
  rw [parentOf_perm hids hperm]
  exact hperm.filter _

theorem filesBelow_perm (hids : (directories.map DirectoryRecord.id).Nodup)
    (hperm : directories.Perm others) {files others' : List FileRecord}
    (hfiles : files.Perm others') (top : DirectoryId) :
    (filesBelow directories files top).Perm (filesBelow others others' top) := by
  unfold filesBelow
  rw [parentOf_perm hids hperm]
  exact hfiles.filter _

end Perm

/-! ## Places and ids -/

/-- The id of the directory at a place. -/
def idAt (directories : List DirectoryRecord) (index : ℕ) : DirectoryId :=
  ((directories[index]?).map DirectoryRecord.id).getD ⟨0⟩

theorem idAt_eq {directories : List DirectoryRecord} {index : ℕ} {directory : DirectoryRecord}
    (h : directories[index]? = some directory) : idAt directories index = directory.id := by
  simp [idAt, h]

theorem idAt_inj {directories : List DirectoryRecord}
    (hids : (directories.map DirectoryRecord.id).Nodup) {a b : ℕ} (ha : a < directories.length)
    (hb : b < directories.length) (h : idAt directories a = idAt directories b) : a = b := by
  rw [idAt_eq (List.getElem?_eq_getElem ha), idAt_eq (List.getElem?_eq_getElem hb)] at h
  have hplaces : (directories.map DirectoryRecord.id)[a]? =
      (directories.map DirectoryRecord.id)[b]? := by
    simp [ha, hb, h]
  exact (List.getElem?_inj (by simpa using ha) hids).mp hplaces

/-- As many places hold a record with a property as there are such records. -/
theorem card_places_filter {α : Type*} (l : List α) (p : α → Bool) :
    ((Finset.range l.length).filter fun i ↦ (l[i]?).any p).card = (l.filter p).length := by
  induction l using List.reverseRecOn with
  | nil => rfl
  | append_singleton l a ih =>
      have hbefore : (Finset.range l.length).filter (fun i ↦ ((l ++ [a])[i]?).any p) =
          (Finset.range l.length).filter fun i ↦ (l[i]?).any p := by
        refine Finset.filter_congr fun i hi ↦ ?_
        rw [List.getElem?_append_left (Finset.mem_range.mp hi)]
      have hlast : ((l ++ [a])[l.length]?).any p = p a := by simp
      rw [List.length_append, List.length_singleton, Finset.range_add_one, Finset.filter_insert,
        hbefore, List.filter_append, List.length_append, ← ih, hlast]
      by_cases ha : p a = true
      · rw [if_pos ha, Finset.card_insert_of_notMem (by simp)]
        simp [ha]
      · simp [ha]

namespace SingleTree

variable {directories : List DirectoryRecord} {root : Option ℕ}

theorem parent_ne_self (h : SingleTree directories) {directory : DirectoryRecord}
    (hmem : directory ∈ directories) : directory.parentDirectoryId ≠ some directory.id := by
  intro hself
  refine h.acyclic directory.id ⟨0, ?_⟩
  rw [ancestor_succ_of_some ((parentOf_eq h.ids hmem).trans hself), ancestor_zero]

theorem acyclicParents (h : SingleTree directories) : AcyclicParents directories := by
  intro id hcycle
  refine h.acyclic id (hcycle.map (f := fun id ↦ id) fun child parent _ hparent ↦ ?_)
  exact (Option.filter_eq_some_iff.mp hparent).1

theorem rootLike_iff (h : SingleTree directories) {directory : DirectoryRecord}
    (hmem : directory ∈ directories) :
    RootLike directories directory ↔ directory.parentDirectoryId = none := by
  constructor
  · intro hlike
    by_contra hsome
    obtain ⟨parent, hparent⟩ := Option.ne_none_iff_exists'.mp hsome
    rcases hlike parent hparent with rfl | hmissing
    · exact h.parent_ne_self hmem hparent
    · obtain ⟨above, habove, rfl⟩ := List.mem_map.mp (h.present directory hmem parent hparent)
      obtain ⟨index, hindex⟩ := List.getElem?_of_mem habove
      rw [(directoryIndex_eq_some_iff h.ids _ index).mpr ⟨above, hindex, rfl⟩] at hmissing
      cases hmissing
  · intro hnone parent hparent
    rw [hnone] at hparent
    cases hparent

/-- The root of the display tree is the directory without a parent. -/
theorem exists_root (h : SingleTree directories) (hlength : directories.length < 2 ^ 32) :
    ∃ index top, chooseRoot directories (DirectoryLookup.new directories) = some index ∧
      directories[index]? = some top ∧ top.parentDirectoryId = none := by
  rcases chooseRoot_cases h.ids hlength with ⟨index, top, hroot, hget, hlike⟩ | ⟨-, hall⟩
  · exact ⟨index, top, hroot, hget, (h.rootLike_iff (List.mem_of_getElem? hget)).mp hlike⟩
  · obtain ⟨top, htop, hnone, -⟩ := h.root
    exact absurd ((h.rootLike_iff htop).mpr hnone) (hall top htop)

theorem exists_place (h : SingleTree directories) {id : DirectoryId}
    (hid : id ∈ directories.map DirectoryRecord.id) :
    ∃ index directory, directoryIndex directories id.val = some index ∧
      directories[index]? = some directory ∧ directory.id = id := by
  obtain ⟨directory, hmem, rfl⟩ := List.mem_map.mp hid
  obtain ⟨index, hget⟩ := List.getElem?_of_mem hmem
  exact ⟨index, directory, (directoryIndex_eq_some_iff h.ids _ index).mpr ⟨directory, hget, rfl⟩,
    hget, rfl⟩

/-- Every directory is placed under its own parent. -/
theorem structuralParent_eq (h : SingleTree directories) (hlength : directories.length < 2 ^ 32)
    (hroot : root = chooseRoot directories (DirectoryLookup.new directories)) {index : ℕ}
    {directory : DirectoryRecord} (hget : directories[index]? = some directory) :
    structuralParent directories root index =
      directory.parentDirectoryId.bind fun parent ↦ directoryIndex directories parent.val := by
  have hmem := List.mem_of_getElem? hget
  obtain ⟨top, topDirectory, htop, htopGet, htopParent⟩ := h.exists_root hlength
  rw [← hroot] at htop
  unfold structuralParent
  split
  case isTrue hsame =>
    obtain rfl : index = top := Option.some.inj (hsame.trans htop)
    obtain rfl : directory = topDirectory := Option.some.inj (hget.symm.trans htopGet)
    rw [htopParent, Option.bind_none]
  case isFalse hother =>
    rw [hget, Option.bind_some]
    cases hparent : directory.parentDirectoryId with
    | none =>
        -- Only the root has no parent.
        obtain ⟨only, -, -, hunique⟩ := h.root
        have hsame : directory = topDirectory :=
          (hunique directory hmem hparent).trans
            (hunique topDirectory (List.mem_of_getElem? htopGet) htopParent).symm
        obtain ⟨place, _, hplace, -, -⟩ := h.exists_place (List.mem_map_of_mem hmem)
        have hindex := (directoryIndex_eq_some_iff h.ids directory.id.val index).mpr
          ⟨directory, hget, rfl⟩
        have htopIndex := (directoryIndex_eq_some_iff h.ids directory.id.val top).mpr
          ⟨topDirectory, htopGet, by rw [hsame]⟩
        exact absurd (hindex.symm.trans htopIndex ▸ htop.symm) hother
    | some parent =>
        obtain ⟨place, _, hplace, -, -⟩ := h.exists_place (h.present directory hmem parent hparent)
        have hne : parent ≠ directory.id := fun heq ↦ h.parent_ne_self hmem (heq ▸ hparent)
        simp [Option.filter_some, hne, hplace]

/-- Places and ids have the same parents. -/
theorem parentOf_idAt (h : SingleTree directories) (hlength : directories.length < 2 ^ 32)
    (hroot : root = chooseRoot directories (DirectoryLookup.new directories)) {index : ℕ}
    (hindex : index < directories.length) :
    parentOf directories (idAt directories index) =
      (structuralParent directories root index).map (idAt directories) := by
  have hget := List.getElem?_eq_getElem hindex
  have hmem := List.getElem_mem hindex
  rw [idAt_eq hget, parentOf_eq h.ids hmem, h.structuralParent_eq hlength hroot hget]
  cases hparent : directories[index].parentDirectoryId with
  | none => rfl
  | some parent =>
      obtain ⟨place, above, hplace, habove, hid⟩ :=
        h.exists_place (h.present _ hmem parent hparent)
      simp [hplace, idAt_eq habove, hid]

/-- A directory is beneath another exactly when its id is. -/
theorem above_iff_beneath (h : SingleTree directories) (hlength : directories.length < 2 ^ 32)
    (hroot : root = chooseRoot directories (DirectoryLookup.new directories)) {top index : ℕ}
    (htop : top < directories.length) (hindex : index < directories.length) :
    Above (parentOf directories) (idAt directories top) (idAt directories index) ↔
      Beneath (structuralParent directories root) top index := by
  have hbound : ∀ place, root = some place → place < directories.length := by
    rintro place hplace
    exact chooseRoot_lt h.ids hlength (hroot ▸ hplace)
  refine above_map_iff_on (P := fun index ↦ index < directories.length)
    (fun _ _ _ hparent ↦ structuralParent_lt hbound hparent)
    (fun index hindex ↦ h.parentOf_idAt hlength hroot hindex) ?_ htop hindex
  exact fun a b ha hb heq ↦ idAt_inj h.ids ha hb heq

/-- A file with a present parent is placed in it. -/
theorem fileDirectory_eq (h : SingleTree directories) (root : Option ℕ) {file : FileRecord}
    (hparent : file.parentDirectoryId ∈ directories.map DirectoryRecord.id) :
    ∃ place, fileDirectory directories root file = some place ∧ place < directories.length ∧
      idAt directories place = file.parentDirectoryId := by
  obtain ⟨place, directory, hplace, hget, hid⟩ := h.exists_place hparent
  refine ⟨place, by rw [fileDirectory, hplace, Option.some_or], directoryIndex_lt hplace, ?_⟩
  rw [idAt_eq hget, hid]

theorem filesUnder_eq (h : SingleTree directories) (hlength : directories.length < 2 ^ 32)
    (hroot : root = chooseRoot directories (DirectoryLookup.new directories))
    {files : List FileRecord}
    (hfiles : ∀ file ∈ files, file.parentDirectoryId ∈ directories.map DirectoryRecord.id) {top : ℕ}
    (htop : top < directories.length) :
    filesUnder directories root files top =
      filesBelow directories files (idAt directories top) := by
  classical
  refine List.filter_congr fun file hfile ↦ decide_eq_decide.mpr ?_
  obtain ⟨place, hplace, hlt, hid⟩ := h.fileDirectory_eq root (hfiles file hfile)
  rw [← hid, h.above_iff_beneath hlength hroot htop hlt]
  simp [hplace]

theorem strictlyBeneath_iff (h : SingleTree directories) (hlength : directories.length < 2 ^ 32)
    (hroot : root = chooseRoot directories (DirectoryLookup.new directories)) {top index : ℕ}
    (htop : top < directories.length) {directory : DirectoryRecord}
    (hget : directories[index]? = some directory) :
    StrictlyBeneath (structuralParent directories root) top index ↔
      ∃ parent, directory.parentDirectoryId = some parent ∧
        Above (parentOf directories) (idAt directories top) parent := by
  have hparents := h.structuralParent_eq hlength hroot hget
  have hstep : StrictlyBeneath (structuralParent directories root) top index ↔
      ∃ place, structuralParent directories root index = some place ∧
        Beneath (structuralParent directories root) top place := by
    constructor
    · rintro ⟨k, hk⟩
      obtain ⟨place, hplace, hrest⟩ := Option.bind_eq_some_iff.mp hk
      exact ⟨place, hplace, k, hrest⟩
    · rintro ⟨place, hplace, k, hk⟩
      exact ⟨k, by rwa [ancestor_succ_of_some hplace]⟩
  rw [hstep, hparents]
  constructor
  · rintro ⟨place, hplace, hbeneath⟩
    obtain ⟨parent, hparent, hindex⟩ := Option.bind_eq_some_iff.mp hplace
    obtain ⟨above, habove, hval⟩ := (directoryIndex_eq_some_iff h.ids _ place).mp hindex
    refine ⟨parent, hparent, ?_⟩
    rw [← DirectoryId.val_injective hval, ← idAt_eq habove]
    exact (h.above_iff_beneath hlength hroot htop (directoryIndex_lt hindex)).mpr hbeneath
  · rintro ⟨parent, hparent, habove⟩
    obtain ⟨place, above, hplace, hgetAbove, hid⟩ :=
      h.exists_place (h.present _ (List.mem_of_getElem? hget) parent hparent)
    refine ⟨place, by rw [hparent, Option.bind_some, hplace], ?_⟩
    rw [← hid, ← idAt_eq hgetAbove] at habove
    exact (h.above_iff_beneath hlength hroot htop (directoryIndex_lt hplace)).mp habove

theorem card_descendants_eq (h : SingleTree directories) (hlength : directories.length < 2 ^ 32)
    (hroot : root = chooseRoot directories (DirectoryLookup.new directories)) {top : ℕ}
    (htop : top < directories.length) :
    (descendants directories.length (structuralParent directories root) top).card =
      (directoriesBelow directories (idAt directories top)).length := by
  classical
  unfold directoriesBelow
  rw [← card_places_filter]
  refine congrArg Finset.card (Finset.ext fun index ↦ ?_)
  rw [mem_descendants_iff, Finset.mem_filter, Finset.mem_range]
  refine and_congr_right fun hindex ↦ ?_
  have hget := List.getElem?_eq_getElem hindex
  rw [h.strictlyBeneath_iff hlength hroot htop hget, hget, Option.any_some, decide_eq_true_iff]

/-! ### Direct children -/

/-- As often as the place of a directory is a parent, it has children. -/
theorem count_dirParent (h : SingleTree directories) (hlength : directories.length < 2 ^ 32)
    (hroot : root = chooseRoot directories (DirectoryLookup.new directories)) {top : ℕ}
    (htop : top < directories.length) :
    (directories.zipIdx.map (dirParentOf (DirectoryLookup.new directories) root)).count (some top) =
      (directoriesIn directories (idAt directories top)).length := by
  have hparents : directories.zipIdx.map (dirParentOf (DirectoryLookup.new directories) root) =
      directories.map fun directory ↦
        directory.parentDirectoryId.bind fun parent ↦ directoryIndex directories parent.val := by
    refine List.ext_getElem? fun index ↦ ?_
    simp only [List.getElem?_map, List.getElem?_zipIdx, Nat.zero_add]
    cases hget : directories[index]? with
    | none => rfl
    | some directory =>
        simp only [Option.map_some]
        rw [dirParentOf_eq h.ids hlength hget, h.structuralParent_eq hlength hroot hget]
  rw [hparents, List.count, List.countP_map, List.countP_eq_length_filter, directoriesIn]
  refine congrArg List.length (List.filter_congr fun directory _ ↦ ?_)
  have hget := List.getElem?_eq_getElem htop
  have hplace : ∀ parent : DirectoryId,
      directoryIndex directories parent.val = some top ↔ parent = idAt directories top := by
    intro parent
    rw [directoryIndex_eq_some_iff h.ids, idAt_eq hget, hget]
    simp [DirectoryId.val_injective.eq_iff, eq_comm]
  rw [Bool.eq_iff_iff]
  cases hparent : directory.parentDirectoryId with
  | none => simp [hparent]
  | some parent => simp [hparent, hplace]

theorem count_fileParents (h : SingleTree directories) (hlength : directories.length < 2 ^ 32)
    {files : List FileRecord}
    (hfiles : ∀ file ∈ files, file.parentDirectoryId ∈ directories.map DirectoryRecord.id) {top : ℕ}
    (htop : top < directories.length) :
    ((files.map (fileParentOf (DirectoryLookup.new directories) root)).map fun parent ↦
        if parent.getD u32Max ≠ u32Max then parent else none).count (some top) =
      (filesIn files (idAt directories top)).length := by
  rw [List.map_map, List.count, List.countP_map, List.countP_eq_length_filter, filesIn]
  refine congrArg List.length (List.filter_congr fun file hfile ↦ ?_)
  obtain ⟨place, hplace, hlt, hid⟩ := h.fileDirectory_eq root (hfiles file hfile)
  have hsentinel : place ≠ u32Max := by
    unfold u32Max
    omega
  have hsame : place = top ↔ file.parentDirectoryId = idAt directories top := by
    rw [← hid]
    exact ⟨fun heq ↦ heq ▸ rfl, idAt_inj h.ids hlt htop⟩
  rw [Bool.eq_iff_iff]
  simp [fileParentOf_eq h.ids hlength, hplace, hsentinel, hsame]

end SingleTree

/-! ## Both totals -/

/-- The index holds these records, and they form one tree. Of files with one id
it holds the last. -/
structure TreeRecords (transaction : BufferedIndexTransaction) (directories : List DirectoryRecord)
    (files : List FileRecord) : Prop where
  directories_perm : directories.Perm transaction.directories.records
  files_same : (KeyedArena.ofList files).Same transaction.files
  tree : SingleTree directories
  parents : ∀ file ∈ files, file.parentDirectoryId ∈ directories.map DirectoryRecord.id

/-- Search and display tree have the same totals for every directory. -/
def TotalsAgree (transaction : BufferedIndexTransaction) (directories : List DirectoryRecord)
    (files : List FileRecord) : Prop :=
  ∃ searchFuel walkFuel tree aggregated,
    TreeIndex.build searchFuel transaction = some tree ∧
    aggregateDirectoryRecords walkFuel directories files = some aggregated ∧
    aggregated.map DirectoryRecord.id = directories.map DirectoryRecord.id ∧
    ∀ record ∈ aggregated,
      (∃ rollup, tree.rollupFor record.id.val = some rollup ∧
        record.totalBytes = rollup.physicalBytes ∧ record.totalEntries = rollup.itemCount) ∧
      tree.childCount record.id.val = some record.directEntries

section Build

variable {transaction : BufferedIndexTransaction} {directories : List DirectoryRecord}
  {files : List FileRecord}

theorem TreeRecords.files_perm (h : TreeRecords transaction directories files)
    (hids : (files.map FileRecord.id).Nodup) : files.Perm transaction.files.records := by
  have hsame := h.files_same
  rwa [KeyedArena.Same, KeyedArena.ofList_records hids] at hsame

theorem TreeRecords.snapshots (h : TreeRecords transaction directories files)
    (hids : (files.map FileRecord.id).Nodup) :
    directories.Perm transaction.snapshotDirectories ∧ files.Perm transaction.snapshotFiles :=
  ⟨h.directories_perm.trans (KeyOrder.sortByKey_perm _ _).symm,
    (h.files_perm hids).trans (KeyOrder.sortByKey_perm _ _).symm⟩

theorem TreeRecords.snapshotTree (h : TreeRecords transaction directories files) :
    SingleTree transaction.snapshotDirectories :=
  h.tree.perm (h.directories_perm.trans (KeyOrder.sortByKey_perm _ _).symm)

theorem TreeRecords.snapshotParents (h : TreeRecords transaction directories files)
    (hids : (files.map FileRecord.id).Nodup) :
    ∀ file ∈ transaction.snapshotFiles,
      file.parentDirectoryId ∈ transaction.snapshotDirectories.map DirectoryRecord.id := by
  intro file hfile
  obtain ⟨hdirectories, hfiles⟩ := h.snapshots hids
  exact (hdirectories.map _).mem_iff.mp (h.parents file (hfiles.mem_iff.mpr hfile))

/-- Nodes with the ranges of the layout count the children of each kind. -/
theorem exists_node_of_layout {count : ℕ} {dirParent fileParents : List (Option ℕ)}
    {nodes : List DirNode}
    (hkept : nodes.map (fun node ↦ (node.dirChildren, node.fileChildren)) =
      (layoutNodes count dirParent fileParents).map fun node ↦ (node.dirChildren, node.fileChildren))
    {index : ℕ} (hindex : index < count) :
    ∃ node, nodes[index]? = some node ∧
      node.dirChildren.2 - node.dirChildren.1 = dirParent.count (some index) ∧
      node.fileChildren.2 - node.fileChildren.1 = fileParents.count (some index) := by
  have hlayout : (layoutNodes count dirParent fileParents).map
      (fun node ↦ (node.dirChildren, node.fileChildren)) =
        (Buckets.ranges 0 (Buckets.tally count dirParent)).zip
          (Buckets.ranges 0 (Buckets.tally count fileParents)) := by
    simp [layoutNodes, Function.comp_def]
  rw [hlayout] at hkept
  have hlength : nodes.length = count := by
    simpa using congrArg List.length hkept
  obtain ⟨node, hnode⟩ : ∃ node, nodes[index]? = some node :=
    ⟨nodes[index], List.getElem?_eq_getElem (by omega)⟩
  have hranges := congrArg (fun kept ↦ kept[index]?) hkept
  simp only [List.getElem?_map, hnode, Option.map_some] at hranges
  obtain ⟨hdirs, hfiles⟩ := List.getElem?_zip_eq_some.mp hranges.symm
  exact ⟨node, hnode, Buckets.width_of_getElem?_ranges _ hindex hdirs,
    Buckets.width_of_getElem?_ranges _ hindex hfiles⟩

/-- The number of children of a directory, each kind modulo `2 ^ 32`. -/
theorem TreeRecords.childCount_of_build (h : TreeRecords transaction directories files)
    (hids : (files.map FileRecord.id).Nodup) (hlength : directories.length < 2 ^ 32) {fuel : ℕ} {tree : TreeIndex}
    (hbuild : TreeIndex.build fuel transaction = some tree) {directory : DirectoryRecord}
    (hmem : directory ∈ directories) :
    tree.childCount directory.id.val =
      some (UInt64.ofNat (asU32 (directoriesIn directories directory.id).length) +
        UInt64.ofNat (asU32 (filesIn files directory.id).length)) := by
  have htree := h.snapshotTree
  obtain ⟨hdirectories, hfiles⟩ := h.snapshots hids
  rw [hdirectories.length_eq] at hlength
  obtain ⟨place, found, hplace, hget, hid⟩ :=
    htree.exists_place ((hdirectories.map _).mem_iff.mp (List.mem_map_of_mem hmem))
  have hlt := directoryIndex_lt hplace
  obtain ⟨nodes, hnodes, rfl⟩ := Option.map_eq_some_iff.mp hbuild
  obtain ⟨node, hnode, hdirCount, hfileCount⟩ := exists_node_of_layout
    (map_kept_computeRollups (fun node ↦ (node.dirChildren, node.fileChildren))
      (fun _ _ ↦ rfl) hnodes) hlt
  rw [htree.count_dirParent hlength rfl hlt, idAt_eq hget, hid] at hdirCount
  rw [htree.count_fileParents hlength (h.snapshotParents hids) hlt, idAt_eq hget, hid] at hfileCount
  have hlookup : (DirectoryLookup.new transaction.snapshotDirectories).get directory.id.val =
      some place := by
    rw [DirectoryLookup.get_new htree.ids hlength, hplace]
  simp only [TreeIndex.childCount, hlookup, Option.bind_some, hnode, Option.map_some, hdirCount,
    hfileCount, directoriesIn, filesIn, (hdirectories.filter _).length_eq,
    (hfiles.filter _).length_eq]

/-- The totals of a directory in the display tree. -/
theorem TreeRecords.rollup_of_build (h : TreeRecords transaction directories files)
    (hids : (files.map FileRecord.id).Nodup) (hlength : directories.length < 2 ^ 32) (hfileCount : files.length < 2 ^ 32) {fuel : ℕ}
    (hfuel : directories.length ≤ fuel) :
    ∃ tree, TreeIndex.build fuel transaction = some tree ∧ ∀ directory ∈ directories, ∃ rollup,
      tree.rollupFor directory.id.val = some rollup ∧
      rollup.physicalBytes.toNat = min ((filesBelow directories files directory.id).map
        fun file ↦ file.allocationBytes.toNat).sum maxValue ∧
      rollup.itemCount.toNat = (filesBelow directories files directory.id).length +
        (directoriesBelow directories directory.id).length := by
  have htree := h.snapshotTree
  obtain ⟨hdirectories, hfiles⟩ := h.snapshots hids
  obtain ⟨tree, hbuild, -, -, htotals⟩ := TreeIndex.exists_build_totals transaction
    (h.directories_perm.length_eq ▸ hlength) ((h.files_perm hids).length_eq ▸ hfileCount)
    (h.directories_perm.length_eq ▸ hfuel)
  rw [hdirectories.length_eq] at hlength
  refine ⟨tree, hbuild, fun directory hmem ↦ ?_⟩
  obtain ⟨nodes, -, rfl⟩ := Option.map_eq_some_iff.mp hbuild
  obtain ⟨place, found, hplace, hget, hid⟩ :=
    htree.exists_place ((hdirectories.map _).mem_iff.mp (List.mem_map_of_mem hmem))
  have hlt := directoryIndex_lt hplace
  obtain ⟨node, hnode, hrollup⟩ := (htotals htree.acyclicParents).rollups place hlt
  have hunder := htree.filesUnder_eq hlength rfl (h.snapshotParents hids) hlt
  have hbeneath := htree.card_descendants_eq hlength rfl hlt
  rw [idAt_eq hget, hid] at hunder hbeneath
  have hbelow := filesBelow_perm h.tree.ids hdirectories hfiles directory.id
  refine ⟨node.rollup, ?_, ?_, ?_⟩
  · simp only [TreeIndex.rollupFor, DirectoryLookup.get_new htree.ids hlength, hplace,
      Option.bind_some, hnode, Option.map_some]
  · rw [hrollup.physicalBytes, hunder, (hbelow.map _).sum_eq]
  · rw [hrollup.itemCount, hunder, hbeneath, hbelow.length_eq,
      (directoriesBelow_perm h.tree.ids hdirectories directory.id).length_eq]

/-- Over a single tree and files with different ids, search and display tree
agree on all totals. -/
theorem aggregate_agrees_with_tree (h : TreeRecords transaction directories files)
    (hids : (files.map FileRecord.id).Nodup) (hlength : directories.length < 2 ^ 32) (hfileCount : files.length < 2 ^ 32) :
    TotalsAgree transaction directories files := by
  obtain ⟨tree, hbuild, hrollups⟩ := h.rollup_of_build hids hlength hfileCount le_rfl
  obtain ⟨walkFuel, hends⟩ := (aggregateDirectoryRecords_ends_iff directories files).mpr h.tree.acyclic
  obtain ⟨aggregated, haggregated⟩ := Option.isSome_iff_exists.mp hends
  refine ⟨directories.length, walkFuel, tree, aggregated, hbuild, haggregated, ?_⟩
  obtain rfl := aggregateDirectoryRecords_eq h.tree.acyclic haggregated
  refine ⟨by simp, fun record hrecord ↦ ?_⟩
  obtain ⟨directory, hmem, rfl⟩ := List.mem_map.mp hrecord
  obtain ⟨rollup, hrollup, hphysical, hitems⟩ := hrollups directory hmem
  have hdirsBelow : (directoriesBelow directories directory.id).length ≤ directories.length :=
    List.length_filter_le _ _
  have hfilesBelow : (filesBelow directories files directory.id).length ≤ files.length :=
    List.length_filter_le _ _
  have hdirsIn : (directoriesIn directories directory.id).length ≤ directories.length :=
    List.length_filter_le _ _
  have hfilesIn : (filesIn files directory.id).length ≤ files.length := List.length_filter_le _ _
  refine ⟨⟨rollup, hrollup, ?_, ?_⟩, ?_⟩
  · exact UInt64.toNat_inj.mp ((totalBytes_aggregateOf files directory.id).trans hphysical.symm)
  · apply UInt64.toNat_inj.mp
    rw [totalEntries_aggregateOf, hitems]
    unfold maxValue
    omega
  · rw [h.childCount_of_build hids hlength hbuild hmem]
    refine congrArg some (UInt64.toNat_inj.mp ?_)
    rw [directEntries_aggregateOf, UInt64.toNat_add, UInt64.toNat_ofNat', UInt64.toNat_ofNat']
    unfold asU32 maxValue
    omega

end Build

/-- A root with a directory and a file in each. -/
def twoLevels : BufferedIndexTransaction where
  directories := .ofList [⟨⟨1⟩, none, "C:", "C:\\", 0, 0, 0, 0⟩,
    ⟨⟨4⟩, some ⟨1⟩, "Users", "C:\\Users", 0, 0, 0, 0⟩]
  files := .ofList [⟨⟨20⟩, ⟨4⟩, "a.txt", "", 10, 4096, .archive, ⟨none, none, none⟩⟩,
    ⟨⟨21⟩, ⟨1⟩, "b.txt", "", 5, 8, .archive, ⟨none, none, none⟩⟩]

theorem noParentCycle_of_lt {directories : List DirectoryRecord}
    (h : ∀ directory ∈ directories, ∀ parent ∈ directory.parentDirectoryId.toList,
      parent.val.toNat < directory.id.val.toNat) : NoParentCycle directories := by
  refine not_onCycle_of_rank (fun id ↦ id.val.toNat) fun id parent hparent ↦ ?_
  obtain ⟨directory, hmem, rfl, hsome⟩ := exists_of_parentOf hparent
  exact h directory hmem parent (by simp [hsome])

theorem treeRecords_twoLevels :
    TreeRecords twoLevels twoLevels.directories.records twoLevels.files.records where
  directories_perm := .refl _
  files_same := KeyedArena.same_ofList (.refl _)
  tree := {
    ids := by decide
    root := by decide
    present := by
      intro directory hmem parent hparent
      have hall : ∀ directory ∈ twoLevels.directories.records,
          ∀ parent ∈ directory.parentDirectoryId.toList,
            parent ∈ twoLevels.directories.records.map DirectoryRecord.id := by decide
      exact hall directory hmem parent (by simp [hparent])
    acyclic := noParentCycle_of_lt (by decide) }
  parents := by decide

theorem aggregate_agrees_with_tree_twoLevels :
    TotalsAgree twoLevels twoLevels.directories.records twoLevels.files.records :=
  aggregate_agrees_with_tree treeRecords_twoLevels (by decide) (by decide) (by decide)

/-! ## Too many files for 32 bits -/

/-- The only directory of an index. -/
def crowdedDirectory : DirectoryRecord := ⟨⟨1⟩, none, "C:", "C:\\", 0, 0, 0, 0⟩

theorem singleTree_crowdedDirectory : SingleTree [crowdedDirectory] :=
  ⟨by decide, by decide, by simp [crowdedDirectory], noParentCycle_of_lt (by decide)⟩

def crowdFile (i : ℕ) : FileRecord :=
  ⟨⟨.ofNat i⟩, ⟨1⟩, "", "", 0, 0, .archive, ⟨none, none, none⟩⟩

/-- The files of a directory with this many of them. -/
def crowd (count : ℕ) : List FileRecord := (List.range count).map crowdFile

section Crowd

variable {count : ℕ} (hcount : count ≤ 2 ^ 32)

include hcount in
theorem nodup_crowd : ((crowd count).map FileRecord.id).Nodup := by
  have hrange : ∀ i ∈ List.range count, ∀ j ∈ List.range count,
      (crowdFile i).id = (crowdFile j).id → i = j := by
    intro i hi j hj heq
    have hval := congrArg (fun id : FileId ↦ id.val.toNat) heq
    simp only [crowdFile, UInt64.toNat_ofNat'] at hval
    rw [List.mem_range] at hi hj
    omega
  rw [crowd, List.map_map]
  exact List.nodup_range.map_on hrange

def crowdedIndex : BufferedIndexTransaction where
  directories := .ofList [crowdedDirectory]
  files := ⟨crowd count, nodup_crowd hcount⟩

theorem treeRecords_crowded :
    TreeRecords (crowdedIndex hcount) [crowdedDirectory] (crowd count) where
  directories_perm := .refl _
  files_same := KeyedArena.same_ofList (.refl _)
  tree := singleTree_crowdedDirectory
  parents := by
    intro file hfile
    obtain ⟨i, -, rfl⟩ := List.mem_map.mp hfile
    exact List.mem_singleton.mpr rfl

/-- The display tree counts the children modulo `2 ^ 32`. -/
theorem TotalsAgree.crowded (h : TotalsAgree (crowdedIndex hcount) [crowdedDirectory] (crowd count)) :
    count = asU32 count := by
  obtain ⟨searchFuel, walkFuel, tree, aggregated, hbuild, haggregated, -, hagree⟩ := h
  have hrecords := treeRecords_crowded hcount
  obtain rfl := aggregateDirectoryRecords_eq hrecords.tree.acyclic haggregated
  have hchildren := (hagree _ (List.mem_map_of_mem List.mem_cons_self)).2
  rw [hrecords.childCount_of_build (nodup_crowd hcount) (by decide) hbuild
    List.mem_cons_self] at hchildren
  have hentries := congrArg UInt64.toNat (Option.some.inj hchildren)
  have hdirs : directoriesIn [crowdedDirectory] crowdedDirectory.id = [] := by decide
  have hfiles : filesIn (crowd count) crowdedDirectory.id = crowd count := by
    refine List.filter_eq_self.mpr fun file hfile ↦ ?_
    obtain ⟨i, -, rfl⟩ := List.mem_map.mp hfile
    rfl
  have hlength : (crowd count).length = count := by simp [crowd]
  rw [directEntries_aggregateOf, hdirs, hfiles, hlength, UInt64.toNat_add, UInt64.toNat_ofNat',
    UInt64.toNat_ofNat'] at hentries
  unfold asU32 maxValue at *
  simp only [List.length_nil] at hentries
  omega

end Crowd

/-! ## Files with one id -/

def repeatedFiles : List FileRecord := [
  ⟨⟨1⟩, ⟨1⟩, "a.txt", "", 10, 10, .archive, ⟨none, none, none⟩⟩,
  ⟨⟨1⟩, ⟨1⟩, "b.txt", "", 20, 20, .archive, ⟨none, none, none⟩⟩]

/-- The index keeps the last of the files. -/
def repeatedIndex : BufferedIndexTransaction where
  directories := .ofList [crowdedDirectory]
  files := .ofList repeatedFiles

theorem treeRecords_repeated : TreeRecords repeatedIndex [crowdedDirectory] repeatedFiles :=
  ⟨.refl _, KeyedArena.Same.refl _, singleTree_crowdedDirectory, by decide⟩

/-- Search counts both files, the display tree the last. -/
theorem not_totalsAgree_repeated :
    ¬ TotalsAgree repeatedIndex [crowdedDirectory] repeatedFiles := by
  rintro ⟨searchFuel, walkFuel, tree, aggregated, hbuild, haggregated, -, hagree⟩
  have hkept : TreeRecords repeatedIndex [crowdedDirectory] repeatedIndex.files.records :=
    ⟨.refl _, KeyedArena.same_ofList (.refl _), singleTree_crowdedDirectory, by decide⟩
  obtain rfl := aggregateDirectoryRecords_eq singleTree_crowdedDirectory.acyclic haggregated
  have hchildren := (hagree _ (List.mem_map_of_mem List.mem_cons_self)).2
  rw [hkept.childCount_of_build (by decide) (by decide) hbuild List.mem_cons_self] at hchildren
  have hentries := congrArg UInt64.toNat (Option.some.inj hchildren)
  rw [directEntries_aggregateOf] at hentries
  revert hentries
  decide

/-- Search and display tree differ for a directory with `2 ^ 32` files, which has
no children in the display tree, and for two files with one id. -/
theorem not_totalsAgree_crowded :
    (TreeRecords (crowdedIndex (le_refl (2 ^ 32))) [crowdedDirectory] (crowd (2 ^ 32)) ∧
      ¬ TotalsAgree (crowdedIndex (le_refl (2 ^ 32))) [crowdedDirectory] (crowd (2 ^ 32))) ∧
    TreeRecords repeatedIndex [crowdedDirectory] repeatedFiles ∧
      ¬ TotalsAgree repeatedIndex [crowdedDirectory] repeatedFiles := by
  refine ⟨⟨treeRecords_crowded le_rfl, fun h ↦ ?_⟩, treeRecords_repeated, not_totalsAgree_repeated⟩
  have hcount := h.crowded le_rfl
  revert hcount
  decide

end WinBlaze
