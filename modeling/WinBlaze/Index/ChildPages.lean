import WinBlaze.Index.LargestFiles

/-!
# Pages of children

The children of each kind are sorted by size when a request first needs them,
each directory's range by itself, and a request merges the two ranges of its
directory. All requests for a directory see one list of its children.
-/

namespace WinBlaze

open Buckets Selection TreeSweep

/-- The bounds of a range are 32-bit numbers. -/
def asRange (range : ℕ × ℕ) : ℕ × ℕ := (asU32 range.1, asU32 range.2)

def DirNode.dirRange (node : DirNode) : ℕ × ℕ := asRange node.dirChildren

def DirNode.fileRange (node : DirNode) : ℕ × ℕ := asRange node.fileChildren

inductive TreeEntry
  | directory (record : DirectoryRecord) (rollup : DirRollup)
  | file (record : FileRecord)

def TreeEntry.physicalBytes : TreeEntry → UInt64
  | .directory _ rollup => rollup.physicalBytes
  | .file record => record.allocationBytes

/-- The orders that requests build, each at most once. -/
structure ChildOrders where
  dirChildren : Option (List ℕ)
  pendingDirChildren : Option (List ℕ)
  fileChildren : Option (List ℕ)

/-- A request, and the sorts that serve it. -/
structure ChildRequest where
  sorts : Unstable ℕ
  directoryId : UInt64
  offset : ℕ
  limit : ℕ

namespace TreeIndex

variable (tree : TreeIndex)

def nodeAt (index : ℕ) : DirNode := tree.nodes.getD index default

def comparePhysical (a b : ℕ) : Ordering :=
  compare (tree.nodeAt b).rollup.physicalBytes (tree.nodeAt a).rollup.physicalBytes

def compareAllocations (a b : ℕ) : Ordering :=
  compare (tree.fileAt b).allocationBytes (tree.fileAt a).allocationBytes

def sortRanges (sorts : Unstable ℕ) (cmp : ℕ → ℕ → Ordering) (ranges : List (ℕ × ℕ))
    (children : List ℕ) : List ℕ :=
  ranges.foldl (mapSlice (sorts.sortBy cmp)) children

def orderedDirectories (sorts : Unstable ℕ) (orders : ChildOrders) : List ℕ × ChildOrders :=
  match orders.dirChildren with
  | some children => (children, orders)
  | none =>
      let children := sortRanges sorts tree.comparePhysical (tree.nodes.map DirNode.dirRange)
        (orders.pendingDirChildren.getD [])
      (children, { orders with dirChildren := some children, pendingDirChildren := none })

/-- The places of the files, grouped by their directories. -/
def groupedFiles : List ℕ :=
  place (tree.nodes.map (fun node ↦ node.fileRange.1))
    (List.replicate (((tree.nodes.getLast?).map (fun node ↦ node.fileRange.2)).getD 0) 0)
    (tree.files.zipIdx.map (fun entry ↦
      (fileParentOf tree.dirIndexById tree.root entry.1, asU32 entry.2)))

def orderedFiles (sorts : Unstable ℕ) (orders : ChildOrders) : List ℕ × ChildOrders :=
  match orders.fileChildren with
  | some children => (children, orders)
  | none =>
      let children := sortRanges sorts tree.compareAllocations (tree.nodes.map DirNode.fileRange)
        tree.groupedFiles
      (children, { orders with fileChildren := some children })

def directoryEntry (child : ℕ) : TreeEntry :=
  .directory (tree.directories.getD child default) (tree.nodeAt child).rollup

def fileEntry (child : ℕ) : TreeEntry := .file (tree.fileAt child)

/-- The larger of the next directory and the next file, the directory when they
are of one size, and what is left of both. -/
def nextChild : List ℕ → List ℕ → Option (TreeEntry × List ℕ × List ℕ)
  | [], [] => none
  | child :: dirs, [] => some (tree.directoryEntry child, dirs, [])
  | [], child :: files => some (tree.fileEntry child, [], files)
  | dir :: dirs, file :: files =>
      if (tree.fileAt file).allocationBytes ≤ (tree.nodeAt dir).rollup.physicalBytes then
        some (tree.directoryEntry dir, dirs, file :: files)
      else some (tree.fileEntry file, dir :: dirs, files)

theorem length_nextChild {dirs files dirs' files' : List ℕ} {entry : TreeEntry}
    (h : tree.nextChild dirs files = some (entry, dirs', files')) :
    dirs.length + files.length = dirs'.length + files'.length + 1 := by
  unfold nextChild at h
  split at h
  · cases h
  · cases h
    rfl
  · cases h
    rfl
  · split at h <;> cases h <;> simp only [List.length_cons] <;> omega

/-- The loop over what is left of the two ranges. -/
def visitChildren (offset limit skipped emitted : ℕ) (dirs files : List ℕ) : List TreeEntry × ℕ :=
  if emitted < limit then
    match h : tree.nextChild dirs files with
    | none => ([], emitted)
    | some (entry, dirs', files') =>
        have hless := tree.length_nextChild h
        if skipped < offset then visitChildren offset limit (skipped + 1) emitted dirs' files'
        else
          let rest := visitChildren offset limit skipped (emitted + 1) dirs' files'
          (entry :: rest.1, rest.2)
  else ([], emitted)
termination_by dirs.length + files.length

/-- `for_each_child`: the entries visited and their number, if the directory is
known, and the orders it leaves. -/
def forEachChild (orders : ChildOrders) (request : ChildRequest) :
    Option (List TreeEntry × ℕ) × ChildOrders :=
  match tree.dirIndexById.get request.directoryId with
  | none => (none, orders)
  | some index =>
      let node := tree.nodeAt index
      if request.limit = 0 then (some ([], 0), orders)
      else
        let dirs := if node.dirRange.1 = node.dirRange.2 then ([], orders)
          else tree.orderedDirectories request.sorts orders
        let files := if node.fileRange.1 = node.fileRange.2 then ([], dirs.2)
          else tree.orderedFiles request.sorts dirs.2
        (some (tree.visitChildren request.offset request.limit 0 0 (slice dirs.1 node.dirRange)
          (slice files.1 node.fileRange)), files.2)

/-- Nothing is sorted before the first request. -/
def noOrders : ChildOrders := ⟨none, some tree.dirChildren, none⟩

/-- The answers to these requests in order. -/
def serveAllChildren (orders : ChildOrders) : List ChildRequest → List (Option (List TreeEntry × ℕ))
  | [] => []
  | request :: rest => (tree.forEachChild orders request).1 ::
      serveAllChildren (tree.forEachChild orders request).2 rest

end TreeIndex

/-! ## Merging -/

/-- The directory comes first when it is no smaller. -/
def TreeEntry.before (a b : TreeEntry) : Bool := decide (b.physicalBytes ≤ a.physicalBytes)

/-- The page of a list, and its length. -/
def ChildRequest.page (request : ChildRequest) (entries : List TreeEntry) : List TreeEntry × ℕ :=
  ((entries.drop request.offset).take request.limit,
    ((entries.drop request.offset).take request.limit).length)

namespace TreeIndex

variable {tree : TreeIndex}

/-- Directories and files by size, the larger first. -/
def mergedChildren (tree : TreeIndex) (dirs files : List ℕ) : List TreeEntry :=
  (dirs.map tree.directoryEntry).merge (files.map tree.fileEntry) TreeEntry.before

theorem mergedChildren_of_nextChild_none {dirs files : List ℕ} (h : tree.nextChild dirs files = none) :
    tree.mergedChildren dirs files = [] := by
  unfold nextChild at h
  split at h
  case h_1 => simp only [mergedChildren, List.map_nil, List.merge_right]
  case h_2 => cases h
  case h_3 => cases h
  case h_4 => split at h <;> cases h

theorem mergedChildren_of_nextChild {dirs files dirs' files' : List ℕ} {entry : TreeEntry}
    (h : tree.nextChild dirs files = some (entry, dirs', files')) :
    tree.mergedChildren dirs files = entry :: tree.mergedChildren dirs' files' := by
  unfold nextChild at h
  split at h
  case h_1 => cases h
  case h_2 =>
    cases h
    simp only [mergedChildren, List.map_cons, List.map_nil, List.merge_right]
  case h_3 =>
    cases h
    simp only [mergedChildren, List.map_cons, List.map_nil, List.nil_merge]
  case h_4 dir dirs file files =>
    have hbefore : TreeEntry.before (tree.directoryEntry dir) (tree.fileEntry file) =
        decide ((tree.fileAt file).allocationBytes ≤ (tree.nodeAt dir).rollup.physicalBytes) := rfl
    split at h
    case isTrue hle =>
      cases h
      simp only [mergedChildren, List.map_cons]
      rw [List.cons_merge_cons_pos _ _ _ (hbefore.trans (decide_eq_true hle))]
    case isFalse hlt =>
      cases h
      simp only [mergedChildren, List.map_cons]
      rw [List.cons_merge_cons_neg]
      rw [hbefore]
      exact of_decide_eq_false (by simp [hlt])

/-- The loop visits a page of the merged list. -/
theorem visitChildren_eq (offset limit skipped emitted : ℕ) (dirs files : List ℕ)
    (hemitted : emitted ≤ limit) :
    tree.visitChildren offset limit skipped emitted dirs files =
      (((tree.mergedChildren dirs files).drop (offset - skipped)).take (limit - emitted),
        emitted + (((tree.mergedChildren dirs files).drop (offset - skipped)).take
          (limit - emitted)).length) := by
  induction skipped, emitted, dirs, files using visitChildren.induct tree offset limit with
  | case1 skipped emitted dirs files hless hnone =>
      rw [visitChildren, if_pos hless, mergedChildren_of_nextChild_none hnone]
      split
      case h_1 => simp
      case h_2 hsome => cases hnone.symm.trans hsome
  | case2 skipped emitted dirs files hless entry dirs' files' hsome hlength hskip ih =>
      have hdrop : offset - skipped = offset - (skipped + 1) + 1 := by omega
      rw [visitChildren, if_pos hless, mergedChildren_of_nextChild hsome, hdrop, List.drop_succ_cons]
      split
      case h_1 hnone => cases hnone.symm.trans hsome
      case h_2 hsome' =>
        cases hsome.symm.trans hsome'
        rw [if_pos hskip, ih hemitted]
  | case3 skipped emitted dirs files hless entry dirs' files' hsome hlength hskip ih =>
      have hdrop : offset - skipped = 0 := by omega
      have htake : limit - emitted = limit - (emitted + 1) + 1 := by omega
      rw [visitChildren, if_pos hless, mergedChildren_of_nextChild hsome, hdrop, List.drop_zero, htake,
        List.take_succ_cons]
      split
      case h_1 hnone => cases hnone.symm.trans hsome
      case h_2 hsome' =>
        cases hsome.symm.trans hsome'
        rw [if_neg hskip, ih hless, hdrop, List.drop_zero, List.length_cons, Nat.add_right_comm]
        rfl
  | case4 skipped emitted dirs files hfull =>
      have hzero : limit - emitted = 0 := by omega
      rw [visitChildren, if_neg hfull, hzero, List.take_zero, List.length_nil, Nat.add_zero]

theorem mergedChildren_perm (tree : TreeIndex) (dirs files : List ℕ) :
    (tree.mergedChildren dirs files).Perm (dirs.map tree.directoryEntry ++ files.map tree.fileEntry) :=
  List.merge_perm_append _

theorem pairwise_mergedChildren {dirs files : List ℕ} (hdirs : Sorted tree.comparePhysical dirs)
    (hfiles : Sorted tree.compareAllocations files) :
    (tree.mergedChildren dirs files).Pairwise (fun a b ↦ b.physicalBytes ≤ a.physicalBytes) := by
  have hmerged : (tree.mergedChildren dirs files).Pairwise (fun a b ↦ TreeEntry.before a b = true) := by
    refine List.pairwise_merge (fun a b c hab hbc ↦ ?_) (fun a b ↦ ?_) _ _ ?_ ?_
    · exact decide_eq_true (UInt64.le_trans (of_decide_eq_true hbc) (of_decide_eq_true hab))
    · rw [Bool.or_eq_true]
      exact (UInt64.le_total b.physicalBytes a.physicalBytes).imp decide_eq_true decide_eq_true
    · exact List.pairwise_map.mpr (hdirs.imp fun h ↦ decide_eq_true (Std.isLE_compare.mp h))
    · exact List.pairwise_map.mpr (hfiles.imp fun h ↦ decide_eq_true (Std.isLE_compare.mp h))
  exact hmerged.imp of_decide_eq_true

end TreeIndex

/-! ## The orders over a run -/

/-- Ranges of a list, one behind the other. -/
structure InRanges (ranges : List (ℕ × ℕ)) (children : List ℕ) : Prop where
  apart : ranges.Pairwise (fun a b ↦ a.2 ≤ b.1)
  bounds : ∀ range ∈ ranges, range.1 ≤ range.2 ∧ range.2 ≤ children.length

/-- Every range holds what it held at first, sorted. -/
def SortsRanges (cmp : ℕ → ℕ → Ordering) (ranges : List (ℕ × ℕ)) (children order : List ℕ) : Prop :=
  ∀ range ∈ ranges, (slice order range).Perm (slice children range) ∧ Sorted cmp (slice order range)

theorem InRanges.sortsRanges {ranges : List (ℕ × ℕ)} {children : List ℕ} (h : InRanges ranges children)
    (sorts : Unstable ℕ) (cmp : ℕ → ℕ → Ordering) [Std.TransCmp cmp] :
    SortsRanges cmp ranges children (TreeIndex.sortRanges sorts cmp ranges children) := by
  intro range hrange
  rw [TreeIndex.sortRanges, slice_foldl_mapSlice (fun l ↦ (sorts.sortBy_perm cmp l).length_eq) h.apart
    h.bounds hrange]
  exact ⟨sorts.sortBy_perm cmp _, sorts.sorted_sortBy cmp _ inferInstance⟩

namespace ChildOrders

/-- An order that is built is kept. -/
structure Keeps (before after : ChildOrders) : Prop where
  dirs : ∀ order, before.dirChildren = some order → after.dirChildren = some order
  files : ∀ order, before.fileChildren = some order → after.fileChildren = some order

/-- The orders built so far are these. -/
structure AgreesWith (orders : ChildOrders) (dirs files : List ℕ) : Prop where
  dirs : ∀ order, orders.dirChildren = some order → order = dirs
  files : ∀ order, orders.fileChildren = some order → order = files

theorem Keeps.refl (orders : ChildOrders) : Keeps orders orders := ⟨fun _ h ↦ h, fun _ h ↦ h⟩

theorem Keeps.trans {first second third : ChildOrders} (h : Keeps first second)
    (h' : Keeps second third) : Keeps first third :=
  ⟨fun order horder ↦ h'.dirs order (h.dirs order horder),
    fun order horder ↦ h'.files order (h.files order horder)⟩

theorem AgreesWith.before {before after : ChildOrders} {dirs files : List ℕ}
    (h : AgreesWith after dirs files) (hkeeps : Keeps before after) : AgreesWith before dirs files :=
  ⟨fun order horder ↦ h.dirs order (hkeeps.dirs order horder),
    fun order horder ↦ h.files order (hkeeps.files order horder)⟩

end ChildOrders

namespace TreeIndex

variable {tree : TreeIndex}

instance transCmp_comparePhysical (tree : TreeIndex) : Std.TransCmp tree.comparePhysical :=
  @Std.TransCmp.opposite _ _ (transCmp_comap (fun index ↦ (tree.nodeAt index).rollup.physicalBytes))

instance transCmp_compareAllocations (tree : TreeIndex) : Std.TransCmp tree.compareAllocations :=
  @Std.TransCmp.opposite _ _ (transCmp_comap (fun index ↦ (tree.fileAt index).allocationBytes))

/-- The children of both kinds are in the ranges of the nodes. -/
structure Grouped (tree : TreeIndex) : Prop where
  dirs : InRanges (tree.nodes.map DirNode.dirRange) tree.dirChildren
  files : InRanges (tree.nodes.map DirNode.fileRange) tree.groupedFiles

def SortsDirectories (tree : TreeIndex) (order : List ℕ) : Prop :=
  SortsRanges tree.comparePhysical (tree.nodes.map DirNode.dirRange) tree.dirChildren order

def SortsFiles (tree : TreeIndex) (order : List ℕ) : Prop :=
  SortsRanges tree.compareAllocations (tree.nodes.map DirNode.fileRange) tree.groupedFiles order

/-- What requests leave behind. -/
structure HoldsOrders (tree : TreeIndex) (orders : ChildOrders) : Prop where
  pending : orders.dirChildren = none → orders.pendingDirChildren = some tree.dirChildren
  dirs : ∀ order, orders.dirChildren = some order → tree.SortsDirectories order
  files : ∀ order, orders.fileChildren = some order → tree.SortsFiles order

theorem holdsOrders_noOrders (tree : TreeIndex) : tree.HoldsOrders tree.noOrders where
  pending _ := rfl
  dirs _ h := by cases h
  files _ h := by cases h

theorem slice_eq_nil {l : List ℕ} {range : ℕ × ℕ} (h : range.1 = range.2) : slice l range = [] := by
  rw [slice, h, Nat.sub_self, List.take_zero]

namespace Grouped

variable (h : tree.Grouped) {orders : ChildOrders} (horders : tree.HoldsOrders orders)
  (sorts : Unstable ℕ)

include h horders

theorem orderedDirectories :
    tree.HoldsOrders (tree.orderedDirectories sorts orders).2 ∧
      orders.Keeps (tree.orderedDirectories sorts orders).2 ∧
      (tree.orderedDirectories sorts orders).2.dirChildren =
        some (tree.orderedDirectories sorts orders).1 := by
  unfold TreeIndex.orderedDirectories
  cases hcell : orders.dirChildren with
  | some children => exact ⟨horders, .refl _, hcell⟩
  | none =>
      refine ⟨⟨fun hnone ↦ (by cases hnone), fun order horder ↦ ?_, horders.files⟩,
        ⟨fun order horder ↦ (by cases hcell.symm.trans horder), fun _ hf ↦ hf⟩, rfl⟩
      obtain rfl := Option.some.inj horder
      rw [horders.pending hcell]
      exact h.dirs.sortsRanges sorts tree.comparePhysical

theorem orderedFiles :
    tree.HoldsOrders (tree.orderedFiles sorts orders).2 ∧
      orders.Keeps (tree.orderedFiles sorts orders).2 ∧
      (tree.orderedFiles sorts orders).2.fileChildren = some (tree.orderedFiles sorts orders).1 := by
  unfold TreeIndex.orderedFiles
  cases hcell : orders.fileChildren with
  | some children => exact ⟨horders, .refl _, hcell⟩
  | none =>
      refine ⟨⟨horders.pending, horders.dirs, fun order horder ↦ ?_⟩,
        ⟨fun _ hd ↦ hd, fun order horder ↦ by cases hcell.symm.trans horder⟩, rfl⟩
      obtain rfl := Option.some.inj horder
      exact h.files.sortsRanges sorts tree.compareAllocations

end Grouped

/-- The children of a directory in these orders. -/
def childrenIn (tree : TreeIndex) (dirs files : List ℕ) (index : ℕ) : List TreeEntry :=
  tree.mergedChildren (slice dirs (tree.nodeAt index).dirRange) (slice files (tree.nodeAt index).fileRange)

/-- A request keeps what is built, and answers from it. -/
theorem Grouped.forEachChild (h : tree.Grouped) {orders : ChildOrders}
    (horders : tree.HoldsOrders orders) (request : ChildRequest) :
    tree.HoldsOrders (tree.forEachChild orders request).2 ∧
      orders.Keeps (tree.forEachChild orders request).2 ∧
      ∀ dirs files, (tree.forEachChild orders request).2.AgreesWith dirs files →
        (tree.forEachChild orders request).1 = (tree.dirIndexById.get request.directoryId).map
          (fun index ↦ request.page (tree.childrenIn dirs files index)) := by
  unfold TreeIndex.forEachChild
  cases tree.dirIndexById.get request.directoryId with
  | none => exact ⟨horders, .refl _, fun _ _ _ ↦ rfl⟩
  | some index =>
      dsimp only
      split
      case isTrue hzero =>
        refine ⟨horders, .refl _, fun dirs files _ ↦ ?_⟩
        simp only [ChildRequest.page, hzero, List.take_zero, List.length_nil, Option.map_some]
      case isFalse =>
        generalize hdirs : (if (tree.nodeAt index).dirRange.1 = (tree.nodeAt index).dirRange.2 then
          ([], orders) else tree.orderedDirectories request.sorts orders) = first
        have hfirst : tree.HoldsOrders first.2 ∧ orders.Keeps first.2 ∧
            ∀ dirs files, first.2.AgreesWith dirs files →
              slice first.1 (tree.nodeAt index).dirRange = slice dirs (tree.nodeAt index).dirRange := by
          subst hdirs
          split
          case isTrue hempty =>
            exact ⟨horders, .refl _, fun dirs _ _ ↦ (slice_eq_nil hempty).trans (slice_eq_nil hempty).symm⟩
          case isFalse =>
            obtain ⟨hholds, hkeeps, hcell⟩ := h.orderedDirectories horders request.sorts
            exact ⟨hholds, hkeeps, fun dirs files hagrees ↦ by rw [hagrees.dirs _ hcell]⟩
        obtain ⟨hholds, hkeeps, hslice⟩ := hfirst
        generalize hfiles : (if (tree.nodeAt index).fileRange.1 = (tree.nodeAt index).fileRange.2 then
          ([], first.2) else tree.orderedFiles request.sorts first.2) = second
        have hsecond : tree.HoldsOrders second.2 ∧ first.2.Keeps second.2 ∧
            ∀ dirs files, second.2.AgreesWith dirs files →
              slice second.1 (tree.nodeAt index).fileRange = slice files (tree.nodeAt index).fileRange := by
          subst hfiles
          split
          case isTrue hempty =>
            exact ⟨hholds, .refl _, fun _ _ _ ↦ (slice_eq_nil hempty).trans (slice_eq_nil hempty).symm⟩
          case isFalse =>
            obtain ⟨hholds', hkeeps', hcell⟩ := h.orderedFiles hholds request.sorts
            exact ⟨hholds', hkeeps', fun dirs files hagrees ↦ by rw [hagrees.files _ hcell]⟩
        obtain ⟨hholds', hkeeps', hslice'⟩ := hsecond
        refine ⟨hholds', hkeeps.trans hkeeps', fun dirs files hagrees ↦ ?_⟩
        rw [hslice dirs files (hagrees.before hkeeps'), hslice' dirs files hagrees,
          visitChildren_eq _ _ _ _ _ _ (Nat.zero_le _), Nat.sub_zero, Nat.sub_zero, Nat.zero_add]
        rfl

/-- All requests are answered from one order of each kind. -/
theorem Grouped.serveAllChildren (h : tree.Grouped) {orders : ChildOrders}
    (horders : tree.HoldsOrders orders) (requests : List ChildRequest) :
    ∃ dirs files, tree.SortsDirectories dirs ∧ tree.SortsFiles files ∧ orders.AgreesWith dirs files ∧
      tree.serveAllChildren orders requests = requests.map (fun request ↦
        (tree.dirIndexById.get request.directoryId).map
          (fun index ↦ request.page (tree.childrenIn dirs files index))) := by
  induction requests generalizing orders with
  | nil =>
      obtain ⟨hholds, hkeeps, hcell⟩ := h.orderedDirectories horders .ofMergeSort
      obtain ⟨hholds', hkeeps', hcell'⟩ := h.orderedFiles hholds .ofMergeSort
      refine ⟨_, _, hholds.dirs _ hcell, hholds'.files _ hcell', ⟨fun order horder ↦ ?_,
        fun order horder ↦ ?_⟩, rfl⟩
      · exact Option.some.inj ((hkeeps.dirs order horder).symm.trans hcell)
      · exact Option.some.inj (((hkeeps.trans hkeeps').files order horder).symm.trans hcell')
  | cons request rest ih =>
      obtain ⟨hholds, hkeeps, hanswer⟩ := h.forEachChild horders request
      obtain ⟨dirs, files, hdirs, hfiles, hagrees, hrest⟩ := ih hholds
      refine ⟨dirs, files, hdirs, hfiles, hagrees.before hkeeps, ?_⟩
      rw [TreeIndex.serveAllChildren, hanswer dirs files hagrees, hrest, List.map_cons]

end TreeIndex

/-! ## The ranges of a built tree -/

/-- Ranges over fewer than `2 ^ 32` elements are read as they are. -/
theorem map_asRange_ranges {n : ℕ} {keys : List (Option ℕ)} (hkeys : keys.length < 2 ^ 32) :
    (ranges 0 (tally n keys)).map asRange = ranges 0 (tally n keys) := by
  have hid : ∀ range ∈ ranges 0 (tally n keys), asRange range = range := by
    intro range hrange
    obtain ⟨-, hle, hend⟩ := bounds_of_mem_ranges hrange
    have hsum := sum_tally_le n keys
    exact Prod.ext (asU32_of_lt (by omega)) (asU32_of_lt (by omega))
  exact (List.map_congr_left hid).trans (List.map_id _)

theorem inRanges_tally {n : ℕ} {keys : List (Option ℕ)} {children : List ℕ}
    (hlength : children.length = (tally n keys).sum) : InRanges (ranges 0 (tally n keys)) children where
  apart := pairwise_ranges _ _
  bounds range hrange := by
    obtain ⟨-, hle, hend⟩ := bounds_of_mem_ranges hrange
    omega

/-- Nodes whose files are grouped by these keys. -/
theorem TreeIndex.length_groupedFiles {tree : TreeIndex} {n : ℕ} {keys : List (Option ℕ)}
    (hranges : tree.nodes.map DirNode.fileRange = ranges 0 (tally n keys)) :
    tree.groupedFiles.length = (tally n keys).sum := by
  have hend := end_ranges (tally n keys) 0
  rw [← hranges, List.getLast?_map, Option.map_map, Nat.zero_add] at hend
  rw [groupedFiles, length_place, List.length_replicate]
  exact hend

/-- The files of a directory are those whose parent it is. -/
theorem TreeIndex.map_slice_groupedFiles {tree : TreeIndex} {n : ℕ} {keys : List (Option ℕ)}
    (hkeys : keys = tree.files.map (fileParentOf tree.dirIndexById tree.root))
    (hbound : ∀ k, some k ∈ keys → k < n) (hlength : tree.files.length < 2 ^ 32)
    (hranges : tree.nodes.map DirNode.fileRange = ranges 0 (tally n keys)) {index : ℕ}
    {range : ℕ × ℕ} (hrange : (ranges 0 (tally n keys))[index]? = some range) :
    (slice tree.groupedFiles range).map tree.fileAt =
      tree.files.filter (fun file ↦ fileParentOf tree.dirIndexById tree.root file = some index) := by
  set elements := tree.files.zipIdx.map (fun entry ↦
    (fileParentOf tree.dirIndexById tree.root entry.1, asU32 entry.2)) with helements
  have hzip : tree.files.zipIdx.map Prod.fst = tree.files := List.zipIdx_map_fst 0 tree.files
  have hfst : elements.map Prod.fst = keys := by
    rw [helements, List.map_map, hkeys]
    conv_rhs => rw [← hzip, List.map_map]
    rfl
  have hcursors : tree.nodes.map (fun node ↦ node.fileRange.1) =
      (ranges 0 (tally n (elements.map Prod.fst))).map Prod.fst := by
    rw [hfst, ← hranges, List.map_map]
    rfl
  have hbounds : ∀ element ∈ elements, ∀ k, element.1 = some k → k < n := fun element hmem k hk ↦
    hbound k (hfst ▸ hk ▸ List.mem_map_of_mem hmem)
  have hslots := tree.length_groupedFiles hranges
  rw [groupedFiles, length_place, ← hfst] at hslots
  rw [← hfst] at hrange
  have hat : ∀ entry ∈ tree.files.zipIdx, tree.fileAt (asU32 entry.2) = entry.1 := by
    rintro ⟨file, place⟩ hentry
    have hget := List.mk_mem_zipIdx_iff_getElem?.mp hentry
    have hplace := (List.getElem?_eq_some_iff.mp hget).1
    rw [asU32_of_lt (hplace.trans hlength), fileAt, List.getD_eq_getElem?_getD, hget, Option.getD_some]
  rw [groupedFiles, hcursors, slice_place hbounds hslots hrange, members, helements, List.filter_map,
    List.map_map, List.map_map]
  calc _ = (tree.files.zipIdx.filter (fun entry ↦
        fileParentOf tree.dirIndexById tree.root entry.1 = some index)).map Prod.fst :=
      List.map_congr_left fun entry hentry ↦ hat entry (List.mem_filter.mp hentry).1
    _ = (tree.files.zipIdx.map Prod.fst).filter (fun file ↦
        fileParentOf tree.dirIndexById tree.root file = some index) := by
      rw [List.filter_map]
      rfl
    _ = _ := by rw [hzip]

/-! ## All pages -/

/-- The directories and the files directly in a directory. -/
def TreeIndex.directChildren (tree : TreeIndex) (index : ℕ) : List TreeEntry :=
  ((List.range tree.directories.length).filter (fun child ↦
      structuralParent tree.directories tree.root child = some index)).map tree.directoryEntry ++
    (tree.files.filter (fun file ↦
      fileDirectory tree.directories tree.root file = some index)).map .file

theorem map_fileChildren_layoutNodes (count : ℕ) (dirParent fileParents : List (Option ℕ)) :
    (layoutNodes count dirParent fileParents).map DirNode.fileChildren =
      ranges 0 (tally count fileParents) := by
  rw [layoutNodes, List.map_map]
  apply List.map_snd_zip
  simp only [length_ranges, length_tally, le_refl]

namespace TreeIndex

def dirParents (tree : TreeIndex) : List (Option ℕ) :=
  tree.directories.zipIdx.map (dirParentOf tree.dirIndexById tree.root)

def fileParents (tree : TreeIndex) : List (Option ℕ) :=
  (tree.files.map (fileParentOf tree.dirIndexById tree.root)).map (fun parent ↦
    if parent.getD u32Max ≠ u32Max then parent else none)

/-- How `build` lays the children out. -/
structure IsLaidOut (tree : TreeIndex) : Prop where
  ids : (tree.directories.map DirectoryRecord.id).Nodup
  lookup : tree.dirIndexById = DirectoryLookup.new tree.directories
  root : tree.root = chooseRoot tree.directories (DirectoryLookup.new tree.directories)
  dirRanges : tree.nodes.map DirNode.dirChildren = ranges 0 (tally tree.directories.length tree.dirParents)
  fileRanges : tree.nodes.map DirNode.fileChildren =
    ranges 0 (tally tree.directories.length tree.fileParents)
  dirChildren : tree.dirChildren = layoutChildren tree.directories.length tree.dirParents
    (layoutNodes tree.directories.length tree.dirParents tree.fileParents)

theorem isLaidOut_of_build {fuel : ℕ} {transaction : BufferedIndexTransaction} {tree : TreeIndex}
    (hbuild : TreeIndex.build fuel transaction = some tree) : tree.IsLaidOut := by
  obtain ⟨nodes, hnodes, rfl⟩ := Option.map_eq_some_iff.mp hbuild
  exact {
    ids := KeyOrder.nodup_map_sortByKey _ _ transaction.directories.nodup_keys
    lookup := rfl
    root := rfl
    dirRanges := (map_kept_computeRollups DirNode.dirChildren (fun _ _ ↦ rfl) hnodes).trans
      (map_dirChildren_layoutNodes _ _ _)
    fileRanges := (map_kept_computeRollups DirNode.fileChildren (fun _ _ ↦ rfl) hnodes).trans
      (map_fileChildren_layoutNodes _ _ _)
    dirChildren := rfl }

namespace IsLaidOut

variable {tree : TreeIndex} (h : tree.IsLaidOut)

include h

theorem dirRanges_eq (hdirectories : tree.directories.length < 2 ^ 32) :
    tree.nodes.map DirNode.dirRange = ranges 0 (tally tree.directories.length tree.dirParents) := by
  have hkeys : tree.dirParents.length < 2 ^ 32 := by simpa [dirParents]
  rw [← map_asRange_ranges hkeys, ← h.dirRanges, List.map_map]
  rfl

theorem fileRanges_eq (hfiles : tree.files.length < 2 ^ 32) :
    tree.nodes.map DirNode.fileRange = ranges 0 (tally tree.directories.length tree.fileParents) := by
  have hkeys : tree.fileParents.length < 2 ^ 32 := by simpa [fileParents]
  rw [← map_asRange_ranges hkeys, ← h.fileRanges, List.map_map]
  rfl

theorem grouped (hdirectories : tree.directories.length < 2 ^ 32)
    (hfiles : tree.files.length < 2 ^ 32) : tree.Grouped where
  dirs := by
    rw [h.dirRanges_eq hdirectories]
    refine inRanges_tally ?_
    rw [h.dirChildren, layoutChildren, length_place, List.length_replicate]
  files := by
    rw [h.fileRanges_eq hfiles]
    exact inRanges_tally (length_groupedFiles (h.fileRanges_eq hfiles))

theorem length_nodes : tree.nodes.length = tree.directories.length := by
  have hsame := congrArg List.length h.dirRanges
  rwa [List.length_map, length_ranges, length_tally] at hsame

theorem getElem?_nodes {index : ℕ} (hindex : index < tree.directories.length) :
    tree.nodes[index]? = some (tree.nodeAt index) := by
  rw [nodeAt, List.getD_eq_getElem?_getD, List.getElem?_eq_getElem (h.length_nodes ▸ hindex),
    Option.getD_some]

theorem root_lt (hdirectories : tree.directories.length < 2 ^ 32) (index : ℕ)
    (hindex : tree.root = some index) : index < tree.directories.length :=
  chooseRoot_lt h.ids hdirectories (h.root ▸ hindex)

theorem fileParents_eq (hdirectories : tree.directories.length < 2 ^ 32) :
    tree.fileParents = tree.files.map (fileDirectory tree.directories tree.root) := by
  rw [fileParents, List.map_map]
  refine List.map_congr_left fun file _ ↦ ?_
  have hparent : fileParentOf tree.dirIndexById tree.root file =
      fileDirectory tree.directories tree.root file := by
    rw [h.lookup, fileParentOf_eq h.ids hdirectories]
  rw [Function.comp_apply, hparent]
  cases hplace : fileDirectory tree.directories tree.root file with
  | none => simp
  | some place =>
      have hlt := fileDirectory_lt (h.root_lt hdirectories) hplace
      have hmark : place ≠ u32Max := by
        unfold u32Max
        omega
      simp [hmark]

/-- A directory's range holds the directories whose parent it is. -/
theorem slice_dirChildren_perm (hdirectories : tree.directories.length < 2 ^ 32) {index : ℕ}
    (hindex : index < tree.directories.length) :
    (slice tree.dirChildren (tree.nodeAt index).dirRange).Perm
      ((List.range tree.directories.length).filter (fun child ↦
        structuralParent tree.directories tree.root child = some index)) := by
  have hforest := forest_structuralParent h.ids hdirectories (h.root_lt hdirectories)
    (show tree.dirParents = _ from congrArg (fun lookup ↦ tree.directories.zipIdx.map
      (dirParentOf lookup tree.root)) h.lookup) tree.fileParents
  have hkept : tree.nodes.map DirNode.dirChildren =
      (layoutNodes tree.directories.length tree.dirParents tree.fileParents).map DirNode.dirChildren :=
    h.dirRanges.trans (map_dirChildren_layoutNodes _ _ _).symm
  rw [← childrenOf_congr hkept, ← h.dirChildren] at hforest
  have hslice : childrenOf tree.nodes tree.dirChildren index =
      slice tree.dirChildren (tree.nodeAt index).dirRange := by
    have hsame := List.map_inj_left.mp ((h.dirRanges_eq hdirectories).trans h.dirRanges.symm) _
      (List.mem_of_getElem? (h.getElem?_nodes hindex))
    rw [childrenOf, h.getElem?_nodes hindex, hsame]
  rw [← hslice, List.perm_ext_iff_of_nodup (hforest.nodup index) (List.nodup_range.filter _)]
  intro child
  rw [hforest.mem_iff, List.mem_filter, List.mem_range, decide_eq_true_iff]

theorem map_slice_files (hdirectories : tree.directories.length < 2 ^ 32)
    (hfiles : tree.files.length < 2 ^ 32) {index : ℕ} (hindex : index < tree.directories.length) :
    (slice tree.groupedFiles (tree.nodeAt index).fileRange).map tree.fileAt =
      tree.files.filter (fun file ↦ fileDirectory tree.directories tree.root file = some index) := by
  have hparent : ∀ file, fileParentOf tree.dirIndexById tree.root file =
      fileDirectory tree.directories tree.root file := by
    intro file
    rw [h.lookup, fileParentOf_eq h.ids hdirectories]
  have hkeys : tree.fileParents = tree.files.map (fileParentOf tree.dirIndexById tree.root) :=
    (h.fileParents_eq hdirectories).trans (List.map_congr_left fun file _ ↦ (hparent file).symm)
  have hbound : ∀ k, some k ∈ tree.fileParents → k < tree.directories.length := by
    intro k hk
    rw [h.fileParents_eq hdirectories] at hk
    obtain ⟨file, -, hplace⟩ := List.mem_map.mp hk
    exact fileDirectory_lt (h.root_lt hdirectories) hplace
  have hrange : (ranges 0 (tally tree.directories.length tree.fileParents))[index]? =
      some (tree.nodeAt index).fileRange := by
    rw [← h.fileRanges_eq hfiles, List.getElem?_map, h.getElem?_nodes hindex, Option.map_some]
  rw [map_slice_groupedFiles hkeys hbound hfiles (h.fileRanges_eq hfiles) hrange]
  exact List.filter_congr fun file _ ↦ by rw [hparent]

/-- In whatever order each kind is, the children are all there, the larger first. -/
theorem childrenIn_spec (hdirectories : tree.directories.length < 2 ^ 32)
    (hfiles : tree.files.length < 2 ^ 32) {dirOrder fileOrder : List ℕ}
    (hdirOrder : tree.SortsDirectories dirOrder) (hfileOrder : tree.SortsFiles fileOrder) {index : ℕ}
    (hindex : index < tree.directories.length) :
    (tree.childrenIn dirOrder fileOrder index).Perm (tree.directChildren index) ∧
      (tree.childrenIn dirOrder fileOrder index).Pairwise
        (fun a b ↦ b.physicalBytes ≤ a.physicalBytes) := by
  have hmem := List.mem_of_getElem? (h.getElem?_nodes hindex)
  obtain ⟨hdirPerm, hdirSorted⟩ := hdirOrder _ (List.mem_map_of_mem hmem)
  obtain ⟨hfilePerm, hfileSorted⟩ := hfileOrder _ (List.mem_map_of_mem hmem)
  refine ⟨(tree.mergedChildren_perm _ _).trans (List.Perm.append ?_ ?_),
    pairwise_mergedChildren hdirSorted hfileSorted⟩
  · exact (hdirPerm.trans (h.slice_dirChildren_perm hdirectories hindex)).map _
  · rw [← h.map_slice_files hdirectories hfiles hindex, List.map_map]
    exact hfilePerm.map tree.fileEntry

theorem childCount_eq (hdirectories : tree.directories.length < 2 ^ 32)
    (hfiles : tree.files.length < 2 ^ 32) {id : UInt64} {index : ℕ}
    (hplace : directoryIndex tree.directories id = some index) :
    (tree.childCount id).map UInt64.toNat = some (tree.directChildren index).length := by
  have hindex := directoryIndex_lt hplace
  have hnode := h.getElem?_nodes hindex
  have hmem := List.mem_of_getElem? hnode
  have hgrouped := h.grouped hdirectories hfiles
  have hdirAs := List.map_inj_left.mp ((h.dirRanges_eq hdirectories).trans h.dirRanges.symm) _ hmem
  have hfileAs := List.map_inj_left.mp ((h.fileRanges_eq hfiles).trans h.fileRanges.symm) _ hmem
  have hdirs := (h.slice_dirChildren_perm hdirectories hindex).length_eq
  have hfileCount := congrArg List.length (h.map_slice_files hdirectories hfiles hindex)
  rw [length_slice (hgrouped.dirs.bounds _ (List.mem_map_of_mem hmem)).2, hdirAs] at hdirs
  rw [List.length_map, length_slice (hgrouped.files.bounds _ (List.mem_map_of_mem hmem)).2, hfileAs]
    at hfileCount
  have hdirBound := List.length_filter_le
    (fun child ↦ decide (structuralParent tree.directories tree.root child = some index))
    (List.range tree.directories.length)
  have hfileBound := List.length_filter_le
    (fun file ↦ decide (fileDirectory tree.directories tree.root file = some index)) tree.files
  rw [List.length_range] at hdirBound
  rw [childCount, h.lookup, DirectoryLookup.get_new h.ids hdirectories, hplace, Option.bind_some, hnode,
    Option.map_some, Option.map_some, hdirs, hfileCount, directChildren, List.length_append,
    List.length_map, List.length_map, asU32_of_lt (by omega), asU32_of_lt (by omega), UInt64.toNat_add,
    UInt64.toNat_ofNat', UInt64.toNat_ofNat']
  congr 1
  omega

end IsLaidOut

/-- Over any requests, each known directory has one list of its direct children, the
larger first, and its pages are parts of this list. -/
theorem childPages_slices {fuel : ℕ} {transaction : BufferedIndexTransaction} {tree : TreeIndex}
    (hbuild : TreeIndex.build fuel transaction = some tree)
    (hdirectories : tree.directories.length < 2 ^ 32) (hfiles : tree.files.length < 2 ^ 32)
    (requests : List ChildRequest) :
    ∃ children : UInt64 → List TreeEntry,
      (∀ id index, directoryIndex tree.directories id = some index →
        (children id).Perm (tree.directChildren index) ∧
        (children id).Pairwise (fun a b ↦ b.physicalBytes ≤ a.physicalBytes) ∧
        (tree.childCount id).map UInt64.toNat = some (children id).length) ∧
      tree.serveAllChildren tree.noOrders requests = requests.map (fun request ↦
        (directoryIndex tree.directories request.directoryId).map
          (fun _ ↦ request.page (children request.directoryId))) := by
  have hlaidOut := isLaidOut_of_build hbuild
  have hlookup : ∀ id, tree.dirIndexById.get id = directoryIndex tree.directories id := by
    intro id
    rw [hlaidOut.lookup, DirectoryLookup.get_new hlaidOut.ids hdirectories]
  obtain ⟨dirOrder, fileOrder, hdirOrder, hfileOrder, -, hserved⟩ :=
    (hlaidOut.grouped hdirectories hfiles).serveAllChildren (holdsOrders_noOrders tree) requests
  refine ⟨fun id ↦ ((directoryIndex tree.directories id).map
    (tree.childrenIn dirOrder fileOrder)).getD [], fun id index hplace ↦ ?_, ?_⟩
  · obtain ⟨hperm, hsorted⟩ := hlaidOut.childrenIn_spec hdirectories hfiles hdirOrder hfileOrder
      (directoryIndex_lt hplace)
    dsimp only
    rw [hplace, Option.map_some, Option.getD_some]
    refine ⟨hperm, hsorted, ?_⟩
    rw [hlaidOut.childCount_eq hdirectories hfiles hplace, hperm.length_eq]
  · rw [hserved]
    refine List.map_congr_left fun request _ ↦ ?_
    dsimp only
    rw [hlookup]
    cases directoryIndex tree.directories request.directoryId <;> rfl

end TreeIndex

theorem childPages_slices_twoLevels : ∃ tree, TreeIndex.build 3 twoLevels = some tree ∧
    ∃ children : UInt64 → List TreeEntry,
      (∀ id index, directoryIndex tree.directories id = some index →
        (children id).Perm (tree.directChildren index) ∧
        (children id).Pairwise (fun a b ↦ b.physicalBytes ≤ a.physicalBytes) ∧
        (tree.childCount id).map UInt64.toNat = some (children id).length) ∧
      tree.serveAllChildren tree.noOrders [⟨.ofMergeSort, 1, 0, 1⟩, ⟨.ofMergeSort, 1, 1, 1⟩] =
        [⟨.ofMergeSort, 1, 0, 1⟩, ⟨.ofMergeSort, 1, 1, 1⟩].map (fun request : ChildRequest ↦
          (directoryIndex tree.directories request.directoryId).map
            (fun _ ↦ request.page (children request.directoryId))) := by
  obtain ⟨tree, hbuild, hdirectories, hfiles⟩ := exists_build_twoLevels
  exact ⟨tree, hbuild, TreeIndex.childPages_slices hbuild (by omega) (by omega) _⟩

/-- A directory with `2 ^ 32` files shows none of them. -/
theorem childPages_crowded : ∃ tree, TreeIndex.build 1 (crowdedIndex (le_refl (2 ^ 32))) = some tree ∧
    directoryIndex tree.directories 1 = some 0 ∧ (tree.directChildren 0).length = 2 ^ 32 ∧
    tree.serveAllChildren tree.noOrders [⟨.ofMergeSort, 1, 0, 1⟩] = [some ([], 0)] := by
  obtain ⟨tree, hbuild⟩ := Option.isSome_iff_exists.mp isSome_build_crowded
  have hlaidOut := TreeIndex.isLaidOut_of_build hbuild
  have hdirectories : tree.directories = [crowdedDirectory] := by
    rw [TreeIndex.directories_of_build hbuild]
    exact List.perm_singleton.mp (KeyOrder.sortByKey_perm _ _)
  have hlength := length_files_crowded hbuild
  have hroot : tree.root = some 0 := by
    rw [hlaidOut.root, hdirectories]
    decide
  have hlookup : tree.dirIndexById.get 1 = some 0 := by
    rw [hlaidOut.lookup, hdirectories]
    decide
  have hdirectory : ∀ file ∈ tree.files, fileDirectory tree.directories tree.root file = some 0 := by
    intro file hfile
    rw [TreeIndex.files_of_build hbuild] at hfile
    obtain ⟨-, hperm⟩ := (treeRecords_crowded (le_refl (2 ^ 32))).snapshots (nodup_crowd le_rfl)
    obtain ⟨i, -, rfl⟩ := List.mem_map.mp (hperm.mem_iff.mpr hfile)
    have hplace : directoryIndex [crowdedDirectory] (crowdFile i).parentDirectoryId.val = some 0 := by
      have hone : directoryIndex [crowdedDirectory] 1 = some 0 := by decide
      exact hone
    rw [fileDirectory, hdirectories, hplace, Option.some_or]
  have hnone : tree.dirParents = [none] := by
    rw [TreeIndex.dirParents, hlaidOut.lookup, hroot, hdirectories]
    decide
  have hone : tree.directories.length = 1 := by rw [hdirectories, List.length_singleton]
  have hparents : tree.fileParents.count (some 0) = 2 ^ 32 := by
    have hall : tree.fileParents = List.replicate (2 ^ 32) (some 0) := by
      rw [hlaidOut.fileParents_eq (by omega)]
      refine List.eq_replicate_iff.mpr ⟨by rw [List.length_map, hlength], fun parent hparent ↦ ?_⟩
      obtain ⟨file, hfile, rfl⟩ := List.mem_map.mp hparent
      exact hdirectory file hfile
    rw [hall, List.count_replicate_self]
  have htally : tally 1 tree.fileParents = [2 ^ 32] := by
    obtain ⟨count, hcount⟩ := List.length_eq_one_iff.mp (length_tally 1 tree.fileParents)
    have hzero := getElem?_tally tree.fileParents Nat.one_pos
    rw [hcount, hparents] at hzero
    rw [hcount, Option.some.inj hzero]
  have hnode := hlaidOut.getElem?_nodes (show 0 < tree.directories.length by omega)
  have hdirRange : (tree.nodeAt 0).dirChildren = (0, 0) := by
    have hrange := congrArg (fun ranges ↦ ranges[0]?) hlaidOut.dirRanges
    simp only [List.getElem?_map, hnode, Option.map_some, hdirectories, hnone] at hrange
    exact Option.some.inj hrange
  have hfileRange : (tree.nodeAt 0).fileChildren = (0, 0 + 2 ^ 32) := by
    have hrange := congrArg (fun ranges ↦ ranges[0]?) hlaidOut.fileRanges
    simp only [List.getElem?_map, hnode, Option.map_some, hdirectories, List.length_singleton,
      htally] at hrange
    exact Option.some.inj hrange
  have hdirEmpty : (tree.nodeAt 0).dirRange.1 = (tree.nodeAt 0).dirRange.2 := by
    rw [DirNode.dirRange, hdirRange]
    rfl
  have hfileEmpty : (tree.nodeAt 0).fileRange.1 = (tree.nodeAt 0).fileRange.2 := by
    rw [DirNode.fileRange, hfileRange]
    rfl
  have hchildren : tree.directChildren 0 = tree.files.map .file := by
    have hself : (List.range 1).filter (fun child ↦
        structuralParent tree.directories tree.root child = some 0) = [] := by
      rw [List.range_one, List.filter_singleton, structuralParent_root hroot]
      rfl
    have hall : tree.files.filter (fun file ↦
        fileDirectory tree.directories tree.root file = some 0) = tree.files :=
      List.filter_eq_self.mpr fun file hfile ↦ decide_eq_true (hdirectory file hfile)
    rw [TreeIndex.directChildren, hone, hself, hall, List.map_nil, List.nil_append]
  refine ⟨tree, hbuild, ?_, ?_, ?_⟩
  · rw [hdirectories]
    decide
  · rw [hchildren, List.length_map, hlength]
  · simp only [TreeIndex.serveAllChildren, TreeIndex.forEachChild, hlookup, hdirEmpty, hfileEmpty,
      if_true, one_ne_zero, if_false, TreeIndex.slice_eq_nil]
    rw [TreeIndex.visitChildren_eq _ _ _ _ _ _ (Nat.zero_le _),
      TreeIndex.mergedChildren_of_nextChild_none rfl]
    rfl

end WinBlaze
