import WinBlaze.Core.Aggregate
import WinBlaze.Index.Tree

/-!
# The shape of the display tree

The lookup finds the place of a directory whatever its representation, the
children of a directory are the directories with this structural parent, and
where no directory is above itself all of them are beneath the root.
-/

namespace WinBlaze

open ParentChain Saturating TreeSweep

/-! ## The lookup -/

/-- The place of the directory with this id. -/
def directoryIndex (directories : List DirectoryRecord) (id : UInt64) : Option ℕ :=
  directories.findIdx? (fun directory ↦ directory.id.val = id)

section Lookup

variable {directories : List DirectoryRecord}

theorem directoryIndex_eq_some_iff (hids : (directories.map DirectoryRecord.id).Nodup) (id : UInt64)
    (index : ℕ) :
    directoryIndex directories id = some index ↔
      ∃ directory, directories[index]? = some directory ∧ directory.id.val = id := by
  rw [directoryIndex, List.findIdx?_eq_some_iff_getElem]
  constructor
  · rintro ⟨hindex, hid, -⟩
    exact ⟨directories[index], List.getElem?_eq_getElem hindex, of_decide_eq_true hid⟩
  · rintro ⟨directory, hget, hid⟩
    obtain ⟨hindex, rfl⟩ := List.getElem?_eq_some_iff.mp hget
    refine ⟨hindex, decide_eq_true hid, fun j hj hsame ↦ ?_⟩
    have hother : directories[j].id = directories[index].id :=
      DirectoryId.val_injective ((of_decide_eq_true hsame).trans hid.symm)
    have hmap : (directories.map DirectoryRecord.id)[j]? =
        (directories.map DirectoryRecord.id)[index]? := by
      simp only [List.getElem?_map, List.getElem?_eq_getElem hindex,
        List.getElem?_eq_getElem (hj.trans hindex), Option.map_some, hother]
    have hlength : j < (directories.map DirectoryRecord.id).length := by
      simpa using hj.trans hindex
    exact absurd ((List.getElem?_inj hlength hids).mp hmap) (Nat.ne_of_lt hj)

theorem directoryIndex_lt {id : UInt64} {index : ℕ} (h : directoryIndex directories id = some index) :
    index < directories.length :=
  (List.findIdx?_eq_some_iff_getElem.mp h).1

theorem asU32_of_lt {n : ℕ} (h : n < 2 ^ 32) : asU32 n = n := Nat.mod_eq_of_lt h

theorem checkedAdd_eq_some_iff (a b c : UInt64) :
    checkedAdd a b = some c ↔ a.toNat + b.toNat = c.toNat := by
  unfold checkedAdd
  split
  case isTrue h =>
    simp only [Option.some.injEq, ← UInt64.toNat_inj, UInt64.toNat_add]
    omega
  case isFalse h =>
    have hc := c.toNat_lt
    simp only [reduceCtorEq, false_iff]
    omega

/-- Dense and sparse lookups both find the place of the directory. -/
theorem DirectoryLookup.get_new (hids : (directories.map DirectoryRecord.id).Nodup)
    (hlength : directories.length < 2 ^ 32) (id : UInt64) :
    (DirectoryLookup.new directories).get id = directoryIndex directories id := by
  apply Option.ext
  intro index
  rw [directoryIndex_eq_some_iff hids, DirectoryLookup.new]
  generalize ((directories.head?.map (fun directory ↦ directory.id.val)).getD 0) = first
  have hnat : ∀ i < directories.length, (UInt64.ofNat i).toNat = i := by
    intro i hi
    simp only [UInt64.toNat_ofNat']
    omega
  split
  case isTrue hdense =>
    have hall : ∀ i directory, directories[i]? = some directory →
        first.toNat + i = directory.id.val.toNat := by
      intro i directory hget
      have hentry := List.all_eq_true.mp hdense.2 (directory, i)
        (List.mk_mem_zipIdx_iff_getElem?.mpr hget)
      have hi := (List.getElem?_eq_some_iff.mp hget).1
      simpa only [checkedAdd_eq_some_iff, hnat i hi, decide_eq_true_eq] using hentry
    have hlen : (UInt64.ofNat directories.length).toNat = directories.length := by
      simp only [UInt64.toNat_ofNat']
      omega
    have hget : (dense first directories.length).get id = some index ↔
        first.toNat + index = id.toNat ∧ index < directories.length := by
      unfold get
      simp only [UInt64.le_iff_toNat_le, UInt64.lt_iff_toNat_lt, hlen]
      split
      case isTrue hle =>
        have hsub := UInt64.toNat_sub_of_le id first (UInt64.le_iff_toNat_le.mpr hle)
        simp only [hsub, Option.ite_none_right_eq_some, Option.some.injEq]
        constructor
        · rintro ⟨hlt, heq⟩
          rw [asU32_of_lt (hlt.trans hlength)] at heq
          omega
        · rintro ⟨heq, hlt⟩
          have hindex : id.toNat - first.toNat = index := by omega
          rw [hindex, asU32_of_lt (hlt.trans hlength)]
          exact ⟨hlt, rfl⟩
      case isFalse hle =>
        simp only [reduceCtorEq, false_iff]
        omega
    rw [hget]
    constructor
    · rintro ⟨heq, hlt⟩
      have hat := List.getElem?_eq_getElem hlt
      exact ⟨directories[index], hat, UInt64.toNat_inj.mp ((hall index _ hat).symm.trans heq)⟩
    · rintro ⟨directory, hat, rfl⟩
      exact ⟨hall index directory hat, (List.getElem?_eq_some_iff.mp hat).1⟩
  case isFalse =>
    have hkeys : ((directories.zipIdx.map (fun entry ↦ (entry.1.id.val, asU32 entry.2))).map
        Prod.fst).Nodup := by
      have hfst : (directories.zipIdx.map (fun entry ↦ (entry.1.id.val, asU32 entry.2))).map Prod.fst =
          (directories.map DirectoryRecord.id).map DirectoryId.val := by
        conv_rhs => rw [← List.zipIdx_map_fst 0 directories]
        simp only [List.map_map, Function.comp_def]
      rw [hfst]
      exact hids.map DirectoryId.val_injective
    have hget : ∀ indices, (sparse indices).get id = indices.find? id := fun _ ↦ rfl
    rw [hget, IdMap.find?_ofPairs_iff hkeys]
    simp only [List.mem_map, Prod.exists, List.mk_mem_zipIdx_iff_getElem?, Prod.mk.injEq]
    constructor
    · rintro ⟨directory, i, hat, rfl, rfl⟩
      have hi := (List.getElem?_eq_some_iff.mp hat).1
      rw [asU32_of_lt (hi.trans hlength)]
      exact ⟨directory, hat, rfl⟩
    · rintro ⟨directory, hat, rfl⟩
      have hi := (List.getElem?_eq_some_iff.mp hat).1
      exact ⟨directory, index, hat, rfl, asU32_of_lt (hi.trans hlength)⟩

end Lookup

/-! ## The structure -/

/-- The parent is missing or the directory itself. -/
def RootLike (directories : List DirectoryRecord) (directory : DirectoryRecord) : Prop :=
  ∀ parent, directory.parentDirectoryId = some parent →
    parent = directory.id ∨ directoryIndex directories parent.val = none

/-- Every directory but the root is beneath its parent, or beneath the root when
it has none. -/
def structuralParent (directories : List DirectoryRecord) (root : Option ℕ) (index : ℕ) : Option ℕ :=
  if some index = root then none
  else
    directories[index]?.bind (fun directory ↦
      ((directory.parentDirectoryId.filter (fun parent ↦ parent ≠ directory.id)).bind
        (fun parent ↦ directoryIndex directories parent.val)).or root)

def fileDirectory (directories : List DirectoryRecord) (root : Option ℕ) (file : FileRecord) : Option ℕ :=
  (directoryIndex directories file.parentDirectoryId.val).or root

/-- No directory is above itself, except as its own parent. -/
def AcyclicParents (directories : List DirectoryRecord) : Prop :=
  ∀ id, ¬ OnCycle (fun id ↦ (parentOf directories id).filter (fun parent ↦ parent ≠ id)) id

/-- Parents of a smaller rank form no cycle. -/
theorem acyclicParents_of_rank {directories : List DirectoryRecord} (rank : DirectoryId → ℕ)
    (h : ∀ directory ∈ directories, ∀ parent, directory.parentDirectoryId = some parent →
      parent ≠ directory.id → rank parent < rank directory.id) : AcyclicParents directories := by
  refine not_onCycle_of_rank rank fun id parent hparent ↦ ?_
  obtain ⟨hlink, hne⟩ := Option.filter_eq_some_iff.mp hparent
  obtain ⟨directory, hmem, rfl, hparentId⟩ := exists_of_parentOf hlink
  exact h directory hmem parent hparentId (of_decide_eq_true hne)

section Structure

variable {directories : List DirectoryRecord} {root : Option ℕ}

theorem isRootLike_iff (hids : (directories.map DirectoryRecord.id).Nodup)
    (hlength : directories.length < 2 ^ 32) (directory : DirectoryRecord) :
    isRootLike (DirectoryLookup.new directories) directory = true ↔ RootLike directories directory := by
  unfold isRootLike RootLike
  cases directory.parentDirectoryId with
  | none => simp
  | some parent => simp [DirectoryLookup.get_new hids hlength, DirectoryId.val_injective.eq_iff]

/-- The root is a directory without a parent; there is one when any directory
has none. -/
theorem chooseRoot_cases (hids : (directories.map DirectoryRecord.id).Nodup)
    (hlength : directories.length < 2 ^ 32) :
    (∃ index directory, chooseRoot directories (DirectoryLookup.new directories) = some index ∧
      directories[index]? = some directory ∧ RootLike directories directory) ∨
    (chooseRoot directories (DirectoryLookup.new directories) = none ∧
      ∀ directory ∈ directories, ¬ RootLike directories directory) := by
  unfold chooseRoot
  cases hfive : ((DirectoryLookup.new directories).get 5).filter (fun index ↦
      (directories[index]?).any (isRootLike (DirectoryLookup.new directories))) with
  | some index =>
      have hany := (Option.filter_eq_some_iff.mp hfive).2
      cases hget : directories[index]? with
      | none =>
          rw [hget] at hany
          cases hany
      | some directory =>
          rw [hget] at hany
          exact Or.inl ⟨index, directory, rfl, hget, (isRootLike_iff hids hlength directory).mp hany⟩
  | none =>
      cases hfind : directories.findIdx? (isRootLike (DirectoryLookup.new directories)) with
      | some index =>
          obtain ⟨hindex, hlike, -⟩ := List.findIdx?_eq_some_iff_getElem.mp hfind
          refine Or.inl ⟨index, directories[index], ?_, List.getElem?_eq_getElem hindex,
            (isRootLike_iff hids hlength _).mp hlike⟩
          simp only [Option.map_some, asU32_of_lt (hindex.trans hlength)]
      | none =>
          refine Or.inr ⟨rfl, fun directory hmem hlike ↦ ?_⟩
          have hnot := List.findIdx?_eq_none_iff.mp hfind directory hmem
          rw [(isRootLike_iff hids hlength directory).mpr hlike] at hnot
          cases hnot

theorem chooseRoot_lt (hids : (directories.map DirectoryRecord.id).Nodup)
    (hlength : directories.length < 2 ^ 32) {index : ℕ}
    (h : chooseRoot directories (DirectoryLookup.new directories) = some index) :
    index < directories.length := by
  rcases chooseRoot_cases hids hlength with ⟨other, directory, hother, hget, -⟩ | ⟨hnone, -⟩
  · rw [hother] at h
    exact Option.some.inj h ▸ (List.getElem?_eq_some_iff.mp hget).1
  · rw [hnone] at h
    cases h

theorem structuralParent_root {index : ℕ} (h : root = some index) :
    structuralParent directories root index = none := by
  unfold structuralParent
  exact if_pos h.symm

theorem exists_of_structuralParent {index parent : ℕ}
    (h : structuralParent directories root index = some parent) :
    ∃ directory, directories[index]? = some directory := by
  unfold structuralParent at h
  split at h
  · cases h
  · obtain ⟨directory, hget, -⟩ := Option.bind_eq_some_iff.mp h
    exact ⟨directory, hget⟩

theorem structuralParent_lt (hroot : ∀ index, root = some index → index < directories.length)
    {index parent : ℕ} (h : structuralParent directories root index = some parent) :
    parent < directories.length := by
  unfold structuralParent at h
  split at h
  · cases h
  · obtain ⟨directory, -, hparent⟩ := Option.bind_eq_some_iff.mp h
    rcases Option.or_eq_some_iff.mp hparent with hstructural | ⟨-, hrootParent⟩
    · obtain ⟨id, -, hindex⟩ := Option.bind_eq_some_iff.mp hstructural
      exact directoryIndex_lt hindex
    · exact hroot parent hrootParent

/-- The source's parents are the structural ones. -/
theorem dirParentOf_eq (hids : (directories.map DirectoryRecord.id).Nodup)
    (hlength : directories.length < 2 ^ 32) {index : ℕ} {directory : DirectoryRecord}
    (hget : directories[index]? = some directory) :
    dirParentOf (DirectoryLookup.new directories) root (directory, index) =
      structuralParent directories root index := by
  have hindex := (List.getElem?_eq_some_iff.mp hget).1
  unfold dirParentOf structuralParent
  simp only [asU32_of_lt (hindex.trans hlength), hget, Option.bind_some,
    DirectoryLookup.get_new hids hlength]
  refine if_congr Iff.rfl rfl (congrArg (Option.or · root) ?_)
  cases directory.parentDirectoryId with
  | none => rfl
  | some parent =>
      by_cases hself : parent = directory.id
      · simp [hself, Option.filter_some]
      · have hval : parent.val ≠ directory.id.val := fun heq ↦ hself (DirectoryId.val_injective heq)
        cases hplace : directoryIndex directories parent.val with
        | none => simp [Option.filter_some, hself, hval, hplace]
        | some place =>
            have hne : place ≠ index := by
              rintro rfl
              obtain ⟨found, hfound, hid⟩ := (directoryIndex_eq_some_iff hids _ place).mp hplace
              apply hval
              rw [← hid, Option.some.inj (hfound.symm.trans hget)]
            simp [Option.filter_some, hself, hval, hplace, hne]

theorem fileParentOf_eq (hids : (directories.map DirectoryRecord.id).Nodup)
    (hlength : directories.length < 2 ^ 32) (file : FileRecord) :
    fileParentOf (DirectoryLookup.new directories) root file = fileDirectory directories root file := by
  unfold fileParentOf fileDirectory
  rw [DirectoryLookup.get_new hids hlength]

theorem structuralParent_cases (hids : (directories.map DirectoryRecord.id).Nodup) {index parent : ℕ}
    (h : structuralParent directories root index = some parent) :
    root = some parent ∨ ∃ directory above, directories[index]? = some directory ∧
      directories[parent]? = some above ∧ directory.parentDirectoryId = some above.id ∧
      above.id ≠ directory.id := by
  unfold structuralParent at h
  split at h
  · cases h
  · obtain ⟨directory, hget, hparent⟩ := Option.bind_eq_some_iff.mp h
    rcases Option.or_eq_some_iff.mp hparent with hstructural | ⟨-, hrootParent⟩
    · obtain ⟨id, hid, hindex⟩ := Option.bind_eq_some_iff.mp hstructural
      obtain ⟨hid, hne⟩ := Option.filter_eq_some_iff.mp hid
      obtain ⟨above, habove, hval⟩ := (directoryIndex_eq_some_iff hids _ parent).mp hindex
      obtain rfl := DirectoryId.val_injective hval
      exact Or.inr ⟨directory, above, hget, habove, hid, of_decide_eq_true hne⟩
    · exact Or.inl hrootParent

theorem parentOf_eq (hids : (directories.map DirectoryRecord.id).Nodup) {directory : DirectoryRecord}
    (hmem : directory ∈ directories) :
    parentOf directories directory.id = directory.parentDirectoryId := by
  have hfind : (parentMapOf directories).find? directory.id = some directory.parentDirectoryId := by
    apply (IdMap.find?_ofPairs_iff _ _ _).mpr
    · exact List.mem_map_of_mem hmem
    · rwa [List.map_map]
  rw [parentOf, hfind]
  rfl

/-- Where no directory is above itself, all chains of structural parents end. -/
theorem ends_structuralParent (hids : (directories.map DirectoryRecord.id).Nodup)
    (hacyclic : AcyclicParents directories) (index : ℕ) :
    Ends (structuralParent directories root) index := by
  have hsupport : ∀ a b, structuralParent directories root a = some b →
      a ∈ List.range directories.length := by
    intro a b hparent
    obtain ⟨directory, hget⟩ := exists_of_structuralParent hparent
    exact List.mem_range.mpr (List.getElem?_eq_some_iff.mp hget).1
  refine (forall_ends_iff hsupport).mpr (fun index hcycle ↦ ?_) index
  refine hacyclic _ (hcycle.map (f := fun index ↦ ((directories[index]?).map DirectoryRecord.id).getD ⟨0⟩)
    fun b c hb hparent ↦ ?_)
  rcases structuralParent_cases hids hparent with hroot | ⟨directory, above, hb, hc, hid, hne⟩
  · obtain ⟨next, hnext⟩ := (hb.of_next hparent).exists_next
    rw [structuralParent_root hroot] at hnext
    cases hnext
  · simp only [hb, hc, Option.map_some, Option.getD_some,
      parentOf_eq hids (List.mem_of_getElem? hb), hid]
    simp [Option.filter_some, hne]

/-- Unless it is the root, a directory has a structural parent once it is not
like a root or there is a root. -/
theorem exists_structuralParent {index : ℕ} (hindex : index < directories.length) (hne : root ≠ some index)
    (h : root ≠ none ∨ ∀ directory ∈ directories, ¬ RootLike directories directory) :
    ∃ parent, structuralParent directories root index = some parent := by
  unfold structuralParent
  rw [if_neg (Ne.symm hne), List.getElem?_eq_getElem hindex, Option.bind_some]
  apply Option.isSome_iff_exists.mp
  rw [Option.isSome_or, Bool.or_eq_true]
  rcases h with hroot | hnot
  · exact Or.inr (Option.isSome_iff_ne_none.mpr hroot)
  · left
    have hdirectory := hnot _ (List.getElem_mem hindex)
    unfold RootLike at hdirectory
    push Not at hdirectory
    obtain ⟨parent, hparent, hself, hplace⟩ := hdirectory
    rw [hparent, Option.filter_some, if_pos (decide_eq_true hself), Option.bind_some]
    exact Option.isSome_iff_ne_none.mpr hplace

/-- All directories are beneath the root. -/
theorem beneath_root (hends : ∀ index, Ends (structuralParent directories root) index) {top : ℕ}
    (hroot : root = some top)
    (htop : top < directories.length) {index : ℕ} (hindex : index < directories.length) :
    Beneath (structuralParent directories root) top index := by
  have hbound : ∀ other, root = some other → other < directories.length := by
    intro other hother
    rw [hroot] at hother
    exact Option.some.inj hother ▸ htop
  revert hindex
  refine Ends.induction (P := fun index ↦ index < directories.length → Beneath _ top index)
    (fun index ih hindex ↦ ?_) (hends index)
  by_cases hne : root = some index
  · exact ⟨0, by rw [ancestor_zero, ← hne, hroot]⟩
  · obtain ⟨parent, hparent⟩ := exists_structuralParent hindex hne
      (Or.inl (by simp [hroot]))
    obtain ⟨k, hk⟩ := ih parent hparent (structuralParent_lt hbound hparent)
    exact ⟨k + 1, by rw [ancestor_succ_of_some hparent, hk]⟩

/-- Acyclic directories have a root. -/
theorem exists_root (hids : (directories.map DirectoryRecord.id).Nodup)
    (hacyclic : AcyclicParents directories) (hnonempty : directories ≠ []) (hroot : root = none) :
    ∃ directory ∈ directories, RootLike directories directory := by
  by_contra hnone
  push Not at hnone
  have hnever : ∀ index < directories.length, False := by
    intro index
    have hends : Ends (structuralParent directories root) index :=
      ends_structuralParent hids hacyclic index
    refine Ends.induction (P := fun index ↦ index < directories.length → False)
      (fun index ih hindex ↦ ?_) hends
    have hne : root ≠ some index := by simp [hroot]
    obtain ⟨parent, hparent⟩ := exists_structuralParent hindex hne (Or.inr hnone)
    refine ih parent hparent (structuralParent_lt (fun other hother ↦ ?_) hparent)
    rw [hroot] at hother
    cases hother
  exact hnever 0 (List.length_pos_iff.mpr hnonempty)

end Structure

/-! ## Children -/

/-- The nodes and children that `build` lays out, before any totals. -/
def layoutNodes (count : ℕ) (dirParent fileParents : List (Option ℕ)) : List DirNode :=
  ((Buckets.ranges 0 (Buckets.tally count dirParent)).zip
    (Buckets.ranges 0 (Buckets.tally count fileParents))).map (fun ranges ↦ DirNode.mk ranges.1 ranges.2 {})

def layoutChildren (count : ℕ) (dirParent : List (Option ℕ)) (nodes : List DirNode) : List ℕ :=
  Buckets.place (nodes.map (fun node ↦ node.dirChildren.1))
    (List.replicate (Buckets.tally count dirParent).sum 0)
    (dirParent.zipIdx.map (fun entry ↦ (entry.1, asU32 entry.2)))

section Children

theorem map_dirChildren_layoutNodes (count : ℕ) (dirParent fileParents : List (Option ℕ)) :
    (layoutNodes count dirParent fileParents).map DirNode.dirChildren =
      Buckets.ranges 0 (Buckets.tally count dirParent) := by
  rw [layoutNodes, List.map_map]
  apply List.map_fst_zip
  simp only [Buckets.length_ranges, Buckets.length_tally, le_refl]

theorem length_layoutNodes (count : ℕ) (dirParent fileParents : List (Option ℕ)) :
    (layoutNodes count dirParent fileParents).length = count := by
  have hlength := congrArg List.length (map_dirChildren_layoutNodes count dirParent fileParents)
  simpa only [List.length_map, Buckets.length_ranges, Buckets.length_tally] using hlength

/-- Totals leave the ranges of children as they were. -/
theorem childrenOf_congr {nodes others : List DirNode}
    (h : others.map DirNode.dirChildren = nodes.map DirNode.dirChildren) (dirChildren : List ℕ) :
    childrenOf others dirChildren = childrenOf nodes dirChildren := by
  have hchildrenOf : ∀ (nodes : List DirNode) index, childrenOf nodes dirChildren index =
      (((nodes.map DirNode.dirChildren)[index]?).map (Buckets.slice dirChildren)).getD [] := by
    intro nodes index
    unfold childrenOf
    cases hget : nodes[index]? <;> simp [hget]
  funext index
  rw [hchildrenOf, hchildrenOf, h]

/-- The children of a directory are the directories with this parent. -/
theorem forest_layout {count : ℕ} (dirParent fileParents : List (Option ℕ))
    (hparents : ∀ index < count, ∀ parent,
      dirParent[index]? = some (some parent) → parent < count) (hlength : dirParent.length = count) (hcount : count < 2 ^ 32) :
    Forest count (fun index ↦ (dirParent[index]?).join)
      (childrenOf (layoutNodes count dirParent fileParents)
        (layoutChildren count dirParent (layoutNodes count dirParent fileParents))) := by
  set elements := dirParent.zipIdx.map (fun entry ↦ (entry.1, asU32 entry.2)) with helements
  have hkeysEq : elements.map Prod.fst = dirParent := by
    rw [helements, List.map_map]
    exact List.zipIdx_map_fst 0 dirParent
  have hplaces : elements.map Prod.snd = List.range count := by
    have hsnd : dirParent.zipIdx.map Prod.snd = List.range count := by
      rw [List.zipIdx_map_snd, hlength, List.range_eq_range']
    rw [helements, List.map_map, ← hsnd]
    apply List.map_congr_left
    rintro ⟨parent, index⟩ hentry
    have hindex := (List.getElem?_eq_some_iff.mp (List.mk_mem_zipIdx_iff_getElem?.mp hentry)).1
    exact asU32_of_lt (by omega)
  have hmem : ∀ p c, (some p, c) ∈ elements ↔ c < count ∧ (dirParent[c]?).join = some p := by
    intro p c
    rw [helements, List.mem_map]
    constructor
    · rintro ⟨⟨parent, index⟩, hentry, heq⟩
      have hget := List.mk_mem_zipIdx_iff_getElem?.mp hentry
      have hindex := (List.getElem?_eq_some_iff.mp hget).1
      obtain ⟨rfl, rfl⟩ := Prod.mk.inj heq
      rw [asU32_of_lt (by omega), hget]
      exact ⟨by omega, rfl⟩
    · rintro ⟨hc, hjoin⟩
      exact ⟨(some p, c), List.mk_mem_zipIdx_iff_getElem?.mpr (Option.join_eq_some_iff.mp hjoin),
        Prod.ext rfl (asU32_of_lt (by omega))⟩
  have hkeys : ∀ element ∈ elements, ∀ k, element.1 = some k → k < count := by
    rintro ⟨key, index⟩ helement k rfl
    obtain ⟨hindex, hjoin⟩ := (hmem k index).mp helement
    exact hparents index hindex k (Option.join_eq_some_iff.mp hjoin)
  have hslice : ∀ p < count, childrenOf (layoutNodes count dirParent fileParents)
      (layoutChildren count dirParent (layoutNodes count dirParent fileParents)) p =
        Buckets.members elements p := by
    intro p hp
    obtain ⟨node, hnode⟩ : ∃ node, (layoutNodes count dirParent fileParents)[p]? = some node :=
      ⟨_, List.getElem?_eq_getElem (by rwa [length_layoutNodes])⟩
    have hrange : (Buckets.ranges 0 (Buckets.tally count (elements.map Prod.fst)))[p]? =
        some node.dirChildren := by
      rw [hkeysEq, ← map_dirChildren_layoutNodes count dirParent fileParents, List.getElem?_map, hnode]
      rfl
    have hcursors : (layoutNodes count dirParent fileParents).map (fun node ↦ node.dirChildren.1) =
        (Buckets.ranges 0 (Buckets.tally count (elements.map Prod.fst))).map Prod.fst := by
      rw [hkeysEq, ← map_dirChildren_layoutNodes count dirParent fileParents, List.map_map]
      rfl
    unfold childrenOf layoutChildren
    rw [hnode, hcursors]
    exact Buckets.slice_place hkeys (by rw [hkeysEq, List.length_replicate]) hrange
  have hnone : ∀ p, count ≤ p → childrenOf (layoutNodes count dirParent fileParents)
      (layoutChildren count dirParent (layoutNodes count dirParent fileParents)) p = [] := by
    intro p hp
    unfold childrenOf
    rw [List.getElem?_eq_none (by rwa [length_layoutNodes])]
  refine ⟨fun p c ↦ ?_, fun p ↦ ?_, fun c p hparent ↦ ?_⟩
  · rcases Nat.lt_or_ge p count with hp | hp
    · rw [hslice p hp, ← hmem, Buckets.members]
      simp only [List.mem_map, List.mem_filter, Prod.exists, decide_eq_true_eq]
      constructor
      · rintro ⟨key, index, ⟨helement, rfl⟩, rfl⟩
        exact helement
      · exact fun helement ↦ ⟨some p, c, ⟨helement, rfl⟩, rfl⟩
    · simp only [hnone p hp, List.not_mem_nil, false_iff]
      rintro ⟨hc, hjoin⟩
      have hlt := hparents c hc p (Option.join_eq_some_iff.mp hjoin)
      omega
  · rcases Nat.lt_or_ge p count with hp | hp
    · rw [hslice p hp, Buckets.members]
      have hsublist : ((elements.filter (fun element ↦ element.1 = some p)).map Prod.snd).Sublist
          (elements.map Prod.snd) := List.filter_sublist.map _
      rw [hplaces] at hsublist
      exact hsublist.nodup List.nodup_range
    · rw [hnone p hp]
      exact List.nodup_nil
  · have hget := Option.join_eq_some_iff.mp hparent
    exact hparents c (hlength ▸ (List.getElem?_eq_some_iff.mp hget).1) p hget

/-- The layout groups the directories by their structural parents. -/
theorem forest_structuralParent {directories : List DirectoryRecord} {root : Option ℕ}
    (hids : (directories.map DirectoryRecord.id).Nodup) (hlength : directories.length < 2 ^ 32)
    (hroot : ∀ index, root = some index → index < directories.length) {dirParent : List (Option ℕ)}
    (hdirParent : dirParent =
      directories.zipIdx.map (dirParentOf (DirectoryLookup.new directories) root))
    (fileParents : List (Option ℕ)) :
    Forest directories.length (structuralParent directories root)
      (childrenOf (layoutNodes directories.length dirParent fileParents)
        (layoutChildren directories.length dirParent
          (layoutNodes directories.length dirParent fileParents))) := by
  have hparent : ∀ index < directories.length,
      dirParent[index]? = some (structuralParent directories root index) := by
    intro index hindex
    have hget := List.getElem?_eq_getElem hindex
    rw [hdirParent, List.getElem?_map, List.getElem?_zipIdx, hget, Option.map_some, Option.map_some,
      Nat.zero_add, dirParentOf_eq hids hlength hget]
  have hparents : dirParent.length = directories.length := by simp [hdirParent]
  have hjoin : (fun index ↦ (dirParent[index]?).join) = structuralParent directories root := by
    funext index
    rcases Nat.lt_or_ge index directories.length with hlt | hge
    · rw [hparent index hlt]
      rfl
    · rw [List.getElem?_eq_none (by omega), structuralParent, List.getElem?_eq_none hge]
      split <;> rfl
  have hforest := forest_layout dirParent fileParents (fun index hindex parent hget ↦
    structuralParent_lt hroot (Option.some.inj ((hparent index hindex).symm.trans hget))) hparents hlength
  rwa [hjoin] at hforest

end Children

end WinBlaze
