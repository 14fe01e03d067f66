import WinBlaze.Index.TreeShape

/-!
# The totals of the display tree

The totals of a directory are those of the files and directories in its subtree.
-/

namespace WinBlaze

open ParentChain Saturating TreeSweep

/-! ## Adding totals -/

/-- What one more file adds to the totals of its directory. -/
def FileRecord.contribution (file : FileRecord) : DirRollup where
  logicalBytes := file.sizeBytes
  physicalBytes := file.allocationBytes
  fileCount := 1
  itemCount := 1
  modifiedUtcMax := file.timestamps.modified

/-- What a directory itself adds to the totals of its parent. -/
def DirRollup.mark : DirRollup := { itemCount := 1 }

theorem toInt_max (a b : Int64) : (max a b).toInt = max a.toInt b.toInt := by
  have hmax : max a b = if a ≤ b then b else a := rfl
  rw [hmax]
  split
  case isTrue h => exact (Int.max_eq_right (Int64.le_iff_toInt_le.mp h)).symm
  case isFalse h =>
    rw [Int64.le_iff_toInt_le] at h
    omega

theorem maxOption_none (a : Option Int64) : maxOption a none = a := by cases a <;> rfl

theorem maxOption_comm (a b : Option Int64) : maxOption a b = maxOption b a := by
  cases a with
  | none => exact (maxOption_none b).symm
  | some a =>
      cases b with
      | none => rfl
      | some b =>
          refine congrArg some (Int64.toInt.inj ?_)
          rw [toInt_max, toInt_max, Int.max_comm]

theorem maxOption_assoc (a b c : Option Int64) :
    maxOption (maxOption a b) c = maxOption a (maxOption b c) := by
  cases a with
  | none => rfl
  | some a =>
      cases b with
      | none => rfl
      | some b =>
          cases c with
          | none => rfl
          | some c =>
              refine congrArg some (Int64.toInt.inj ?_)
              simp only [toInt_max]
              omega

instance instAddDirRollup : Add DirRollup where
  add a b := {
    logicalBytes := satAdd a.logicalBytes b.logicalBytes
    physicalBytes := satAdd a.physicalBytes b.physicalBytes
    fileCount := satAdd a.fileCount b.fileCount
    itemCount := satAdd a.itemCount b.itemCount
    modifiedUtcMax := maxOption a.modifiedUtcMax b.modifiedUtcMax }

instance instZeroDirRollup : Zero DirRollup where
  zero := {}

theorem DirRollup.ext_fields {a b : DirRollup} (hlogical : a.logicalBytes = b.logicalBytes)
    (hphysical : a.physicalBytes = b.physicalBytes) (hfiles : a.fileCount = b.fileCount)
    (hitems : a.itemCount = b.itemCount) (hmodified : a.modifiedUtcMax = b.modifiedUtcMax) : a = b := by
  cases a
  cases b
  simp_all

theorem DirRollup.add_comm (a b : DirRollup) : a + b = b + a :=
  ext_fields (satAdd_comm _ _) (satAdd_comm _ _) (satAdd_comm _ _) (satAdd_comm _ _)
    (maxOption_comm _ _)

theorem DirRollup.add_assoc (a b c : DirRollup) : a + b + c = a + (b + c) :=
  ext_fields (satAdd_assoc _ _ _) (satAdd_assoc _ _ _) (satAdd_assoc _ _ _) (satAdd_assoc _ _ _)
    (maxOption_assoc _ _ _)

theorem DirRollup.add_zero (a : DirRollup) : a + 0 = a :=
  ext_fields (satAdd_zero _) (satAdd_zero _) (satAdd_zero _) (satAdd_zero _) (maxOption_none _)

instance instAddCommMonoidDirRollup : AddCommMonoid DirRollup where
  add_assoc := DirRollup.add_assoc
  zero_add a := (DirRollup.add_comm 0 a).trans a.add_zero
  add_zero := DirRollup.add_zero
  add_comm := DirRollup.add_comm
  nsmul := nsmulRec

theorem addChild_eq (rollup child : DirRollup) :
    rollup.addChild child = rollup + (child + DirRollup.mark) := by
  have hzero : ∀ a : UInt64, satAdd a 0 = a := satAdd_zero
  apply DirRollup.ext_fields
  · exact congrArg (satAdd _) (hzero _).symm
  · exact congrArg (satAdd _) (hzero _).symm
  · exact congrArg (satAdd _) (hzero _).symm
  · rfl
  · exact congrArg (maxOption _) (maxOption_none _).symm

/-- Counting by one more is adding while there is room. -/
theorem addFile_eq {rollup : DirRollup} {file : FileRecord}
    (hfiles : rollup.fileCount.toNat < maxValue) (hitems : rollup.itemCount.toNat < maxValue) :
    rollup.addFile file = rollup + file.contribution := by
  have hone : ∀ a : UInt64, a.toNat < maxValue → a + 1 = satAdd a 1 := by
    intro a ha
    exact (if_pos ha).symm
  apply DirRollup.ext_fields
  · rfl
  · rfl
  · exact hone _ hfiles
  · exact hone _ hitems
  · rfl

/-! ## What the totals are -/

/-- The latest modification time of the files, if any of them has one. -/
def IsLatest (files : List FileRecord) (latest : Option Int64) : Prop :=
  (∀ time, latest = some time → ∃ file ∈ files, file.timestamps.modified = some time) ∧
    ∀ file ∈ files, ∀ time, file.timestamps.modified = some time →
      ∃ last, latest = some last ∧ time ≤ last

/-- The totals of some files and a number of directories. -/
structure RollupIs (rollup : DirRollup) (files : List FileRecord) (directoryCount : ℕ) : Prop where
  logicalBytes : rollup.logicalBytes.toNat =
    min (files.map (fun file ↦ file.sizeBytes.toNat)).sum maxValue
  physicalBytes : rollup.physicalBytes.toNat =
    min (files.map (fun file ↦ file.allocationBytes.toNat)).sum maxValue
  fileCount : rollup.fileCount.toNat = files.length
  itemCount : rollup.itemCount.toNat = files.length + directoryCount
  modifiedUtcMax : IsLatest files rollup.modifiedUtcMax

theorem IsLatest.cons {files : List FileRecord} {latest : Option Int64} (h : IsLatest files latest)
    (file : FileRecord) : IsLatest (file :: files) (maxOption file.timestamps.modified latest) := by
  obtain ⟨hfrom, hle⟩ := h
  have hmax : ∀ a b : Int64, (max a b = a ∨ max a b = b) ∧ a ≤ max a b ∧ b ≤ max a b := by
    intro a b
    simp only [← Int64.toInt_inj, Int64.le_iff_toInt_le, toInt_max]
    omega
  have hrefl : ∀ a : Int64, a ≤ a := fun a ↦ Int64.le_iff_toInt_le.mpr le_rfl
  have htrans : ∀ a b c : Int64, a ≤ b → b ≤ c → a ≤ c := by
    simp only [Int64.le_iff_toInt_le]
    omega
  cases hfile : file.timestamps.modified with
  | none =>
      refine ⟨fun time htime ↦ ?_, fun other hother time htime ↦ ?_⟩
      · obtain ⟨found, hmem, hfound⟩ := hfrom time htime
        exact ⟨found, List.mem_cons_of_mem file hmem, hfound⟩
      · rcases List.mem_cons.mp hother with rfl | hrest
        · rw [hfile] at htime
          cases htime
        · exact hle other hrest time htime
  | some own =>
      cases latest with
      | none =>
          refine ⟨fun time htime ↦ ⟨file, List.mem_cons_self, hfile.trans htime⟩,
            fun other hother time htime ↦ ?_⟩
          rcases List.mem_cons.mp hother with rfl | hrest
          · rw [hfile] at htime
            exact ⟨own, rfl, Option.some.inj htime ▸ hrefl own⟩
          · obtain ⟨last, hlast, -⟩ := hle other hrest time htime
            cases hlast
      | some old =>
          obtain ⟨hchoice, hown, hold⟩ := hmax own old
          refine ⟨fun time htime ↦ ?_, fun other hother time htime ↦ ⟨max own old, rfl, ?_⟩⟩
          · have htime : max own old = time := Option.some.inj htime
            rcases hchoice with hsame | hsame
            · exact ⟨file, List.mem_cons_self, by rw [hfile, ← htime, hsame]⟩
            · obtain ⟨found, hmem, hfound⟩ := hfrom old rfl
              exact ⟨found, List.mem_cons_of_mem file hmem, by rw [hfound, ← htime, hsame]⟩
          · rcases List.mem_cons.mp hother with rfl | hrest
            · rw [hfile] at htime
              exact Option.some.inj htime ▸ hown
            · obtain ⟨last, hlast, hbefore⟩ := hle other hrest time htime
              rw [← Option.some.inj hlast] at hbefore
              exact htrans _ _ _ hbefore hold

theorem RollupIs.add_file {rollup : DirRollup} {files : List FileRecord} {directoryCount : ℕ}
    (h : RollupIs rollup files directoryCount) (file : FileRecord)
    (hcount : files.length + 1 + directoryCount ≤ maxValue) :
    RollupIs (file.contribution + rollup) (file :: files) directoryCount := by
  refine ⟨?_, ?_, ?_, ?_, h.modifiedUtcMax.cons file⟩
  · change (satAdd file.sizeBytes rollup.logicalBytes).toNat = _
    rw [toNat_satAdd, h.logicalBytes, List.map_cons, List.sum_cons]
    omega
  · change (satAdd file.allocationBytes rollup.physicalBytes).toNat = _
    rw [toNat_satAdd, h.physicalBytes, List.map_cons, List.sum_cons]
    omega
  · change (satAdd 1 rollup.fileCount).toNat = _
    rw [toNat_satAdd, h.fileCount, UInt64.toNat_one, List.length_cons]
    omega
  · change (satAdd 1 rollup.itemCount).toNat = _
    rw [toNat_satAdd, h.itemCount, UInt64.toNat_one, List.length_cons]
    omega

theorem RollupIs.add_mark {rollup : DirRollup} {files : List FileRecord} {directoryCount : ℕ}
    (h : RollupIs rollup files directoryCount) (hcount : files.length + (directoryCount + 1) ≤ maxValue) :
    RollupIs (rollup + DirRollup.mark) files (directoryCount + 1) := by
  have hzero : ∀ a : UInt64, satAdd a 0 = a := satAdd_zero
  refine ⟨?_, ?_, ?_, ?_, ?_⟩
  · exact (congrArg UInt64.toNat (hzero _)).trans h.logicalBytes
  · exact (congrArg UInt64.toNat (hzero _)).trans h.physicalBytes
  · exact (congrArg UInt64.toNat (hzero _)).trans h.fileCount
  · change (satAdd rollup.itemCount 1).toNat = _
    rw [toNat_satAdd, h.itemCount, UInt64.toNat_one]
    omega
  · change IsLatest files (maxOption rollup.modifiedUtcMax none)
    rw [maxOption_none]
    exact h.modifiedUtcMax

theorem rollupIs_sum (files : List FileRecord) (directoryCount : ℕ)
    (hcount : files.length + directoryCount ≤ maxValue) :
    RollupIs ((files.map FileRecord.contribution).sum + directoryCount • DirRollup.mark) files
      directoryCount := by
  induction directoryCount with
  | zero =>
      rw [zero_nsmul, add_zero]
      induction files with
      | nil =>
          have hlatest : IsLatest [] none := ⟨by simp, by simp⟩
          exact ⟨rfl, rfl, rfl, rfl, hlatest⟩
      | cons file rest ih =>
          rw [List.length_cons] at hcount
          exact (ih (by omega)).add_file file hcount
  | succ directoryCount ih =>
      rw [succ_nsmul, ← add_assoc]
      exact (ih (by omega)).add_mark hcount

/-! ## The files of each directory -/

section Direct

variable {directories : List DirectoryRecord} {root : Option ℕ}

def filesAt (directories : List DirectoryRecord) (root : Option ℕ) (files : List FileRecord)
    (index : ℕ) : List FileRecord :=
  files.filter (fun file ↦ fileDirectory directories root file = some index)

open Classical in
/-- The files of the directory and of all directories beneath it. -/
noncomputable def filesUnder (directories : List DirectoryRecord) (root : Option ℕ)
    (files : List FileRecord) (index : ℕ) : List FileRecord :=
  files.filter (fun file ↦ ∃ directory, fileDirectory directories root file = some directory ∧
    Beneath (structuralParent directories root) index directory)

theorem fileDirectory_lt (hroot : ∀ index, root = some index → index < directories.length)
    {file : FileRecord} {index : ℕ} (h : fileDirectory directories root file = some index) :
    index < directories.length := by
  rcases Option.or_eq_some_iff.mp h with hplace | ⟨-, hrootPlace⟩
  · exact directoryIndex_lt hplace
  · exact hroot index hrootPlace

/-- Changing the totals of a node keeps the rest of it. -/
theorem map_kept_modify {γ : Type*} (kept : DirNode → γ)
    (hkept : ∀ node rollup, kept (DirNode.withRollup node rollup) = kept node) (nodes : List DirNode)
    (place : ℕ) (change : DirRollup → DirRollup) :
    (nodes.modify place fun node ↦ node.withRollup (change node.rollup)).map kept =
      nodes.map kept := by
  apply List.ext_getElem?
  intro index
  simp only [List.getElem?_map, List.getElem?_modify]
  cases nodes[index]? with
  | none => rfl
  | some node => by_cases h : place = index <;> simp [h, hkept]

theorem map_kept_addFileToNode {γ : Type*} (kept : DirNode → γ)
    (hkept : ∀ node rollup, kept (DirNode.withRollup node rollup) = kept node)
    (lookup : DirectoryLookup) (files : List FileRecord) (nodes : List DirNode) :
    (files.foldl (addFileToNode lookup root) nodes).map kept = nodes.map kept := by
  induction files generalizing nodes with
  | nil => rfl
  | cons file rest ih =>
      rw [List.foldl_cons, ih, addFileToNode]
      cases fileParentOf lookup root file with
      | none => rfl
      | some place => exact map_kept_modify kept hkept nodes place fun rollup ↦ rollup.addFile file

/-- The first loop gives every directory the totals of its own files. -/
theorem map_rollup_addFileToNode (hids : (directories.map DirectoryRecord.id).Nodup)
    (hlength : directories.length < 2 ^ 32) (files : List FileRecord) (hfiles : files.length < 2 ^ 32)
    {nodes : List DirNode} (hnodes : nodes.length = directories.length)
    (hempty : ∀ node ∈ nodes, node.rollup = 0) {index : ℕ} (hindex : index < directories.length) :
    ((files.foldl (addFileToNode (DirectoryLookup.new directories) root) nodes).map
        DirNode.rollup)[index]? =
      some ((filesAt directories root files index).map FileRecord.contribution).sum := by
  induction files using List.reverseRecOn with
  | nil =>
      have hget : nodes[index]? = some (nodes.get ⟨index, hnodes ▸ hindex⟩) :=
        List.getElem?_eq_getElem _
      simp [filesAt, hget, hempty]
  | append_singleton front file ih =>
      rw [List.length_append, List.length_singleton] at hfiles
      have hbefore := ih (by omega)
      rw [List.foldl_append, List.foldl_cons, List.foldl_nil, addFileToNode,
        fileParentOf_eq hids hlength]
      cases hplace : fileDirectory directories root file with
      | none => simpa [filesAt, List.filter_append, hplace] using hbefore
      | some place =>
          by_cases hsame : place = index
          · subst hsame
            have hle : (filesAt directories root front place).length ≤ front.length :=
              List.length_filter_le _ front
            have hroom := rollupIs_sum (filesAt directories root front place) 0 (by
              unfold maxValue
              omega)
            rw [zero_nsmul, add_zero] at hroom
            rw [List.getElem?_map, Option.map_eq_some_iff] at hbefore
            obtain ⟨node, hnode, hrollup⟩ := hbefore
            simp only [List.getElem?_map, List.getElem?_modify, hnode, if_true, Option.map_eq_map,
              Option.map_some, DirNode.withRollup, hrollup, Option.some.injEq]
            rw [addFile_eq]
            · simp [filesAt, List.filter_append, hplace]
            · rw [hroom.fileCount]
              unfold maxValue
              omega
            · rw [hroom.itemCount]
              unfold maxValue
              omega
          · have hother : filesAt directories root (front ++ [file]) index =
                filesAt directories root front index := by
              simp [filesAt, List.filter_append, hplace, hsame]
            rw [hother, ← hbefore]
            simp only [List.getElem?_map, List.getElem?_modify, hsame, if_false,
              Option.map_eq_map, Option.map_id']

/-- Adding up the totals of a subtree adds up all its files. -/
theorem total_eq_sum_filesUnder (hroot : ∀ index, root = some index → index < directories.length)
    (hends : ∀ index, Ends (structuralParent directories root) index) (files : List FileRecord) {top : ℕ}
    (htop : top < directories.length) :
    total directories.length (structuralParent directories root)
        (fun index ↦ ((filesAt directories root files index).map FileRecord.contribution).sum)
        DirRollup.mark top =
      ((filesUnder directories root files top).map FileRecord.contribution).sum +
        (descendants directories.length (structuralParent directories root) top).card • DirRollup.mark := by
  classical
  have hunder : ∀ file, (∃ directory, fileDirectory directories root file = some directory ∧
      Beneath (structuralParent directories root) top directory) ↔
        ∃ directory ∈ subtree directories.length (structuralParent directories root) top,
          fileDirectory directories root file = some directory := by
    intro file
    simp only [mem_subtree_iff]
    constructor
    · rintro ⟨directory, hplace, hbeneath⟩
      exact ⟨directory, ⟨fileDirectory_lt hroot hplace, hbeneath⟩, hplace⟩
    · rintro ⟨directory, ⟨-, hbeneath⟩, hplace⟩
      exact ⟨directory, hplace, hbeneath⟩
  have hfiles : filesUnder directories root files top = files.filter (fun file ↦
      ∃ directory ∈ subtree directories.length (structuralParent directories root) top,
        fileDirectory directories root file = some directory) := by
    unfold filesUnder
    exact List.filter_congr fun file _ ↦ decide_eq_decide.mpr (hunder file)
  rw [total_eq_sum_subtree hends htop, hfiles]
  refine congrArg (· + _) ?_
  exact sum_buckets _ _ files _

end Direct

/-! ## The sweep -/

section Sweep

variable {directories : List DirectoryRecord} {root : Option ℕ}

/-- Sweeping nodes sweeps their totals. -/
theorem map_rollup_addNodeToParent (parentOf : List ℕ) (nodes : List DirNode) (index : ℕ) :
    (addNodeToParent parentOf nodes index).map DirNode.rollup =
      sweepStep DirRollup.mark u32Max parentOf (nodes.map DirNode.rollup) index := by
  unfold addNodeToParent sweepStep
  cases parentOf[index]? with
  | none => rfl
  | some parent =>
      dsimp only
      split
      · rfl
      · have hchild : ((nodes[index]?).map DirNode.rollup).getD {} =
            (nodes.map DirNode.rollup).getD index 0 := by
          rw [List.getD_eq_getElem?_getD, List.getElem?_map]
          rfl
        rw [hchild]
        generalize (nodes.map DirNode.rollup).getD index 0 = child
        apply List.ext_getElem?
        intro other
        simp only [List.getElem?_map, List.getElem?_modify]
        cases nodes[other]? with
        | none => rfl
        | some node => by_cases h : parent = other <;> simp [h, DirNode.withRollup, addChild_eq]

theorem map_rollup_foldl_addNodeToParent (parentOf order : List ℕ) (nodes : List DirNode) :
    (order.foldl (addNodeToParent parentOf) nodes).map DirNode.rollup =
      order.foldl (sweepStep DirRollup.mark u32Max parentOf) (nodes.map DirNode.rollup) := by
  induction order generalizing nodes with
  | nil => rfl
  | cons index rest ih => rw [List.foldl_cons, ih, map_rollup_addNodeToParent, List.foldl_cons]

theorem map_kept_foldl_addNodeToParent {γ : Type*} (kept : DirNode → γ)
    (hkept : ∀ node rollup, kept (DirNode.withRollup node rollup) = kept node)
    (parentOf order : List ℕ) (nodes : List DirNode) :
    (order.foldl (addNodeToParent parentOf) nodes).map kept = nodes.map kept := by
  induction order generalizing nodes with
  | nil => rfl
  | cons index rest ih =>
      rw [List.foldl_cons, ih, addNodeToParent]
      split
      · split
        · rfl
        · exact map_kept_modify kept hkept nodes _ fun rollup ↦ rollup.addChild _
      · rfl

/-- The totals are all that is computed. -/
theorem map_kept_computeRollups {γ : Type*} (kept : DirNode → γ)
    (hkept : ∀ node rollup, kept (DirNode.withRollup node rollup) = kept node) {fuel : ℕ}
    {lookup : DirectoryLookup} {files : List FileRecord} {nodes result : List DirNode}
    {dirChildren : List ℕ}
    (h : computeRollups fuel lookup root files nodes dirChildren = some result) :
    result.map kept = nodes.map kept := by
  unfold computeRollups at h
  cases root with
  | none =>
      obtain rfl := Option.some.inj h
      exact map_kept_addFileToNode kept hkept lookup files nodes
  | some top =>
      obtain ⟨search, _, rfl⟩ := Option.map_eq_some_iff.mp h
      rw [map_kept_foldl_addNodeToParent kept hkept]
      exact map_kept_addFileToNode kept hkept lookup files nodes

/-- The search of a tree from its root ends. -/
theorem exists_search (hlength : directories.length < 2 ^ 32) {nodes : List DirNode} {dirChildren : List ℕ}
    (hforest : Forest directories.length (structuralParent directories root)
      (childrenOf nodes dirChildren)) {fuel : ℕ} (hfuel : directories.length ≤ fuel) {top : ℕ}
    (htop : root = some top) (hlt : top < directories.length) :
    ∃ search, Search.run (childrenOf nodes dirChildren) fuel 0
        ⟨[top], List.replicate directories.length u32Max⟩ = some search ∧
      Explored directories.length (childrenOf nodes dirChildren) top u32Max search.order.length
        search := by
  have hsentinel : directories.length ≤ u32Max := by
    unfold u32Max
    omega
  have hstart : Explored directories.length (childrenOf nodes dirChildren) top u32Max 0
      ⟨[top], List.replicate directories.length u32Max⟩ := explored_start hlt
  exact hstart.run hforest (structuralParent_root htop)
    (show directories.length ≤ fuel + 0 from hfuel)

theorem length_addFileToNode (lookup : DirectoryLookup) (files : List FileRecord) (nodes : List DirNode) :
    (files.foldl (addFileToNode lookup root) nodes).length = nodes.length := by
  have hranges : (files.foldl (addFileToNode lookup root) nodes).map DirNode.dirChildren =
      nodes.map DirNode.dirChildren :=
    map_kept_addFileToNode DirNode.dirChildren (fun _ _ ↦ rfl) lookup files nodes
  have hsame := congrArg List.length hranges
  simpa only [List.length_map] using hsame

theorem computeRollups_isSome (hlength : directories.length < 2 ^ 32)
    (hroot : ∀ index, root = some index → index < directories.length) {nodes : List DirNode}
    (hnodes : nodes.length = directories.length) {dirChildren : List ℕ}
    (hforest : Forest directories.length (structuralParent directories root)
      (childrenOf nodes dirChildren)) {fuel : ℕ} (hfuel : directories.length ≤ fuel)
    {lookup : DirectoryLookup} {files : List FileRecord} :
    (computeRollups fuel lookup root files nodes dirChildren).isSome = true := by
  have hranges : (files.foldl (addFileToNode lookup root) nodes).map DirNode.dirChildren =
      nodes.map DirNode.dirChildren :=
    map_kept_addFileToNode DirNode.dirChildren (fun _ _ ↦ rfl) lookup files nodes
  cases htop : root with
  | none => simp only [computeRollups, Option.isSome_some]
  | some top =>
      obtain ⟨search, hrun, -⟩ := exists_search hlength hforest hfuel htop (hroot top htop)
      simp only [computeRollups, Option.isSome_map]
      rw [← htop, childrenOf_congr hranges, length_addFileToNode, hnodes, hrun, Option.isSome_some]

/-- With the tree's shape, the totals of all directories are computed. -/
theorem exists_computeRollups (hids : (directories.map DirectoryRecord.id).Nodup)
    (hlength : directories.length < 2 ^ 32) {files : List FileRecord} (hfiles : files.length < 2 ^ 32)
    (hroot : ∀ index, root = some index → index < directories.length) {nodes : List DirNode}
    (hnodes : nodes.length = directories.length) (hempty : ∀ node ∈ nodes, node.rollup = 0)
    {dirChildren : List ℕ}
    (hforest : Forest directories.length (structuralParent directories root)
      (childrenOf nodes dirChildren)) {fuel : ℕ} (hfuel : directories.length ≤ fuel) :
    ∃ result, computeRollups fuel (DirectoryLookup.new directories) root files nodes dirChildren =
        some result ∧
      ((∀ index, Ends (structuralParent directories root) index) → root ≠ none →
        ∀ index < directories.length, ∃ node, result[index]? = some node ∧ node.rollup =
          total directories.length (structuralParent directories root)
            (fun index ↦ ((filesAt directories root files index).map FileRecord.contribution).sum)
            DirRollup.mark index) := by
  set direct := files.foldl (addFileToNode (DirectoryLookup.new directories) root) nodes with hdirect
  have hranges : direct.map DirNode.dirChildren = nodes.map DirNode.dirChildren :=
    map_kept_addFileToNode DirNode.dirChildren (fun _ _ ↦ rfl) _ files nodes
  have hdirectLength : direct.length = directories.length :=
    (length_addFileToNode _ files nodes).trans hnodes
  cases htop : root with
  | none => exact ⟨direct, by simp only [computeRollups, htop, hdirect], fun _ hne ↦ (hne rfl).elim⟩
  | some top =>
      have hlt := hroot top htop
      have hsentinel : directories.length ≤ u32Max := by
        unfold u32Max
        omega
      obtain ⟨search, hrun, hexplored⟩ := exists_search hlength hforest hfuel htop hlt
      refine ⟨search.order.reverse.foldl (addNodeToParent search.parentOf) direct, ?_,
        fun hends _ index hindex ↦ ?_⟩
      · simp only [computeRollups]
        rw [← htop, ← hdirect, childrenOf_congr hranges, hdirectLength, hrun]
        rfl
      · rw [← htop] at hends ⊢
        obtain ⟨k, hk⟩ := beneath_root hends htop hlt hindex
        have hvalues : ∀ i < directories.length, (direct.map DirNode.rollup)[i]? =
            some ((filesAt directories root files i).map FileRecord.contribution).sum := fun i hi ↦
          map_rollup_addFileToNode hids hlength files hfiles hnodes hempty hi
        have htotal : (sweep DirRollup.mark u32Max search (direct.map DirNode.rollup))[index]? = _ :=
          sweep_eq_total hforest hends (structuralParent_root htop) hsentinel hexplored hvalues
            (hexplored.mem_of_ancestor hforest hindex hk)
        rw [sweep, ← map_rollup_foldl_addNodeToParent, List.getElem?_map, Option.map_eq_some_iff] at htotal
        obtain ⟨node, hnode, hrollup⟩ := htotal
        exact ⟨node, hnode, hrollup⟩

end Sweep

/-! ## The built tree -/

/-- Every directory has the totals of everything beneath it, the root those of
everything. -/
structure TreeIndex.HasTotals (tree : TreeIndex) : Prop where
  rollups : ∀ index < tree.directories.length, ∃ node, tree.nodes[index]? = some node ∧
    RollupIs node.rollup (filesUnder tree.directories tree.root tree.files index)
      (descendants tree.directories.length (structuralParent tree.directories tree.root) index).card
  root : tree.directories ≠ [] → ∃ index directory, tree.root = some index ∧
    tree.directories[index]? = some directory ∧ RootLike tree.directories directory
  rootRollup : ∀ index, tree.root = some index → ∃ node, tree.nodes[index]? = some node ∧
    RollupIs node.rollup tree.files (tree.directories.length - 1)

section Build

variable {directories : List DirectoryRecord} {root : Option ℕ}

/-- Everything is beneath the root. -/
theorem filesUnder_root (hends : ∀ index, Ends (structuralParent directories root) index) {top : ℕ}
    (hroot : root = some top)
    (htop : top < directories.length) (files : List FileRecord) :
    filesUnder directories root files top = files := by
  classical
  apply List.filter_eq_self.mpr
  intro file _
  apply decide_eq_true
  have hsome : (fileDirectory directories root file).isSome = true := by
    rw [fileDirectory, Option.isSome_or, hroot, Option.isSome_some, Bool.or_true]
  obtain ⟨directory, hdirectory⟩ := Option.isSome_iff_exists.mp hsome
  refine ⟨directory, hdirectory, beneath_root hends hroot htop ?_⟩
  refine fileDirectory_lt (fun index hindex ↦ ?_) hdirectory
  rw [hroot] at hindex
  exact Option.some.inj hindex ▸ htop

theorem card_descendants_root (hends : ∀ index, Ends (structuralParent directories root) index)
    {top : ℕ} (hroot : root = some top)
    (htop : top < directories.length) :
    (descendants directories.length (structuralParent directories root) top).card =
      directories.length - 1 := by
  have hall : subtree directories.length (structuralParent directories root) top =
      Finset.range directories.length := by
    ext index
    rw [mem_subtree_iff, Finset.mem_range]
    exact and_iff_left_of_imp fun hindex ↦ beneath_root hends hroot htop hindex
  have hcard := congrArg Finset.card hall
  rw [subtree_eq htop, Finset.card_insert_of_notMem
    (notMem_descendants_self hends top), Finset.card_range] at hcard
  omega

end Build

/-- Lookup and root follow from the directories, and a node holds the total of its
subtree where all chains of parents end. -/
structure TreeIndex.IsBuilt (tree : TreeIndex) : Prop where
  ids : (tree.directories.map DirectoryRecord.id).Nodup
  length : tree.directories.length < 2 ^ 32
  lookup : tree.dirIndexById = DirectoryLookup.new tree.directories
  root : tree.root = chooseRoot tree.directories (DirectoryLookup.new tree.directories)
  rollup : (∀ index, Ends (structuralParent tree.directories tree.root) index) → tree.root ≠ none →
    ∀ index < tree.directories.length, ∃ node, tree.nodes[index]? = some node ∧ node.rollup =
      total tree.directories.length (structuralParent tree.directories tree.root)
        (fun index ↦ ((filesAt tree.directories tree.root tree.files index).map
          FileRecord.contribution).sum) DirRollup.mark index

/-- Building ends, however many files there are. -/
theorem TreeIndex.build_isSome (transaction : BufferedIndexTransaction)
    (hdirectoryCount : transaction.directories.records.length < 2 ^ 32)
    {fuel : ℕ} (hfuel : transaction.directories.records.length ≤ fuel) :
    (TreeIndex.build fuel transaction).isSome = true := by
  set directories := transaction.snapshotDirectories with hdirectories
  have hids : (directories.map DirectoryRecord.id).Nodup :=
    KeyOrder.nodup_map_sortByKey _ _ transaction.directories.nodup_keys
  have hlength : directories.length = transaction.directories.records.length := by
    simp [hdirectories, BufferedIndexTransaction.snapshotDirectories]
  have hlookup : directories.length < 2 ^ 32 := by omega
  have hroot : ∀ index, chooseRoot directories (DirectoryLookup.new directories) = some index →
      index < directories.length := fun index hindex ↦ chooseRoot_lt hids hlookup hindex
  unfold TreeIndex.build
  rw [Option.isSome_map]
  exact computeRollups_isSome hlookup hroot (length_layoutNodes _ _ _)
    (forest_structuralParent hids hlookup hroot rfl _) (show directories.length ≤ fuel by omega)

theorem TreeIndex.exists_build (transaction : BufferedIndexTransaction)
    (hdirectoryCount : transaction.directories.records.length < 2 ^ 32)
    (hfileCount : transaction.files.records.length < 2 ^ 32)
    {fuel : ℕ} (hfuel : transaction.directories.records.length ≤ fuel) :
    ∃ tree, TreeIndex.build fuel transaction = some tree ∧
      tree.directories = transaction.snapshotDirectories ∧ tree.files = transaction.snapshotFiles ∧
      tree.IsBuilt := by
  set directories := transaction.snapshotDirectories with hdirectories
  set files := transaction.snapshotFiles with hfiles
  have hids : (directories.map DirectoryRecord.id).Nodup :=
    KeyOrder.nodup_map_sortByKey _ _ transaction.directories.nodup_keys
  have hlength : directories.length = transaction.directories.records.length := by
    simp [hdirectories, BufferedIndexTransaction.snapshotDirectories]
  have hfilesLength : files.length = transaction.files.records.length := by
    simp [hfiles, BufferedIndexTransaction.snapshotFiles]
  have hlookup : directories.length < 2 ^ 32 := by omega
  set root := chooseRoot directories (DirectoryLookup.new directories) with hrootEq
  have hroot : ∀ index, root = some index → index < directories.length := fun index hindex ↦
    chooseRoot_lt hids hlookup hindex
  set dirParent := directories.zipIdx.map (dirParentOf (DirectoryLookup.new directories) root)
    with hdirParent
  set fileParents := (files.map (fileParentOf (DirectoryLookup.new directories) root)).map
    (fun parent ↦ if parent.getD u32Max ≠ u32Max then parent else none)
  have hempty : ∀ node ∈ layoutNodes directories.length dirParent fileParents, node.rollup = 0 := by
    intro node hnode
    obtain ⟨ranges, -, rfl⟩ := List.mem_map.mp hnode
    rfl
  obtain ⟨nodes, hnodes, htotals⟩ := exists_computeRollups hids hlookup
    (show files.length < 2 ^ 32 by omega) hroot (length_layoutNodes _ _ _) hempty
    (forest_structuralParent hids hlookup hroot hdirParent fileParents)
    (show directories.length ≤ fuel by omega)
  exact ⟨⟨transaction.volumes.records, directories, files, nodes,
    layoutChildren directories.length dirParent (layoutNodes directories.length dirParent fileParents),
    DirectoryLookup.new directories, root⟩, congrArg (Option.map _) hnodes, rfl, rfl,
    hids, hlookup, rfl, rfl, htotals⟩

namespace TreeIndex.IsBuilt

variable {tree : TreeIndex}

theorem root_lt (h : tree.IsBuilt) (index : ℕ) (hindex : tree.root = some index) :
    index < tree.directories.length :=
  chooseRoot_lt h.ids h.length (h.root ▸ hindex)

theorem exists_root (h : tree.IsBuilt) (hacyclic : AcyclicParents tree.directories)
    (hnonempty : tree.directories ≠ []) : ∃ index directory, tree.root = some index ∧
      tree.directories[index]? = some directory ∧ RootLike tree.directories directory := by
  rcases chooseRoot_cases h.ids h.length with ⟨index, hfound⟩ | ⟨hnone, hall⟩
  · exact ⟨index, h.root ▸ hfound⟩
  · obtain ⟨directory, hmem, hlike⟩ := WinBlaze.exists_root h.ids hacyclic hnonempty hnone
    exact (hall directory hmem hlike).elim

/-- The totals of a directory are those of the files and directories beneath it. -/
theorem rollupIs (h : tree.IsBuilt)
    (hends : ∀ index, Ends (structuralParent tree.directories tree.root) index)
    (hroot : tree.root ≠ none) (hfiles : tree.files.length < 2 ^ 32) {index : ℕ}
    (hindex : index < tree.directories.length) : ∃ node, tree.nodes[index]? = some node ∧
      RollupIs node.rollup (filesUnder tree.directories tree.root tree.files index)
        (descendants tree.directories.length (structuralParent tree.directories tree.root)
          index).card := by
  obtain ⟨node, hnode, htotal⟩ := h.rollup hends hroot index hindex
  rw [total_eq_sum_filesUnder h.root_lt hends tree.files hindex] at htotal
  refine ⟨node, hnode, htotal ▸ rollupIs_sum _ _ ?_⟩
  have hunder : (filesUnder tree.directories tree.root tree.files index).length ≤
      tree.files.length := List.length_filter_le _ tree.files
  have hbeneath : (descendants tree.directories.length
      (structuralParent tree.directories tree.root) index).card ≤ tree.directories.length :=
    card_descendants_le index
  have hlength := h.length
  unfold maxValue
  omega

theorem hasTotals (h : tree.IsBuilt) (hacyclic : AcyclicParents tree.directories)
    (hfiles : tree.files.length < 2 ^ 32) : tree.HasTotals := by
  have hends : ∀ index, Ends (structuralParent tree.directories tree.root) index :=
    ends_structuralParent h.ids hacyclic
  have hrollup : ∀ index < tree.directories.length, ∃ node, tree.nodes[index]? = some node ∧
      RollupIs node.rollup (filesUnder tree.directories tree.root tree.files index)
        (descendants tree.directories.length (structuralParent tree.directories tree.root)
          index).card := by
    intro index hindex
    obtain ⟨top, -, htop, -⟩ := h.exists_root hacyclic (List.length_pos_iff.mp (by omega))
    exact h.rollupIs hends (by simp [htop]) hfiles hindex
  refine ⟨hrollup, h.exists_root hacyclic, fun top htop ↦ ?_⟩
  obtain ⟨node, hnode, htotal⟩ := hrollup top (h.root_lt top htop)
  refine ⟨node, hnode, ?_⟩
  rwa [filesUnder_root hends htop (h.root_lt top htop),
    card_descendants_root hends htop (h.root_lt top htop)] at htotal

end TreeIndex.IsBuilt

theorem TreeIndex.exists_build_totals (transaction : BufferedIndexTransaction)
    (hdirectoryCount : transaction.directories.records.length < 2 ^ 32)
    (hfileCount : transaction.files.records.length < 2 ^ 32)
    {fuel : ℕ} (hfuel : transaction.directories.records.length ≤ fuel) :
    ∃ tree, TreeIndex.build fuel transaction = some tree ∧
      tree.directories = transaction.snapshotDirectories ∧ tree.files = transaction.snapshotFiles ∧
      (AcyclicParents tree.directories → tree.HasTotals) := by
  obtain ⟨tree, hbuild, hdirectories, hfiles, hbuilt⟩ :=
    TreeIndex.exists_build transaction hdirectoryCount hfileCount hfuel
  refine ⟨tree, hbuild, hdirectories, hfiles, fun hacyclic ↦ hbuilt.hasTotals hacyclic ?_⟩
  rw [hfiles, BufferedIndexTransaction.snapshotFiles, KeyOrder.length_sortByKey]
  exact hfileCount

/-- Building a tree ends, and gives every directory the totals of its subtree
where no directory is above itself. -/
theorem TreeIndex.build_totals (transaction : BufferedIndexTransaction)
    (hcount : transaction.directories.records.length + transaction.files.records.length < 2 ^ 32)
    {fuel : ℕ} (hfuel : transaction.directories.records.length ≤ fuel) :
    ∃ tree, TreeIndex.build fuel transaction = some tree ∧
      tree.directories = transaction.snapshotDirectories ∧ tree.files = transaction.snapshotFiles ∧
      (AcyclicParents tree.directories → tree.HasTotals) := by
  exact TreeIndex.exists_build_totals transaction (by omega) (by omega) hfuel

/-- A root that is its own parent, a folder in it and an orphan. -/
def sampleTree : BufferedIndexTransaction where
  directories := .ofList [⟨⟨5⟩, some ⟨5⟩, "C:", "C:\\", 0, 0, 0, 0⟩,
    ⟨⟨7⟩, some ⟨5⟩, "Users", "", 0, 0, 0, 0⟩, ⟨⟨9⟩, some ⟨8⟩, "Lost", "", 0, 0, 0, 0⟩]
  files := .ofList [⟨⟨20⟩, ⟨7⟩, "a.txt", "", 10, 4096, .archive, ⟨none, some 3, none⟩⟩,
    ⟨⟨21⟩, ⟨9⟩, "b.txt", "", 5, 0, .archive, ⟨none, none, none⟩⟩]

theorem acyclicParents_sampleTree : AcyclicParents sampleTree.snapshotDirectories := by
  intro id hcycle
  obtain ⟨parent, hparent⟩ := hcycle.exists_next
  obtain ⟨above, habove⟩ := (hcycle.of_next hparent).exists_next
  obtain ⟨hlink, hne⟩ := Option.filter_eq_some_iff.mp hparent
  obtain ⟨directory, hmem, rfl, hparentId⟩ := exists_of_parentOf hlink
  have hnone : ∀ directory ∈ sampleTree.snapshotDirectories, ∀ parent,
      directory.parentDirectoryId = some parent → parent ≠ directory.id →
        (parentOf sampleTree.snapshotDirectories parent).filter (fun above ↦ above ≠ parent) = none := by
    decide
  rw [hnone directory hmem parent hparentId (of_decide_eq_true hne)] at habove
  cases habove

theorem TreeIndex.build_totals_sampleTree : ∃ tree, TreeIndex.build 3 sampleTree = some tree ∧
    tree.directories = sampleTree.snapshotDirectories ∧ tree.HasTotals := by
  obtain ⟨tree, hbuild, hdirectories, -, htotals⟩ := TreeIndex.build_totals sampleTree (by decide)
    (show _ ≤ 3 by decide)
  exact ⟨tree, hbuild, hdirectories, htotals (hdirectories ▸ acyclicParents_sampleTree)⟩

end WinBlaze
