import WinBlaze.Lib.IdMap
import WinBlaze.UI.FolderTree

/-!
# The live tree

While a scan runs, directories arrive in any order and are put into the list of folders as soon
as their parents are there. The list shows the upper levels only. What it shows does not depend
on the order, as long as few parents are waited for.
-/

namespace WinBlaze

open Selection TreeSweep

structure LiveDirectory where
  id : UInt64
  parentId : UInt64
  hasParent : Bool
  name : String
  deriving DecidableEq, Repr

structure LiveTree extends FolderTree where
  indexById : IdMap UInt64 ℕ := KeyedArena.empty
  orphans : IdMap UInt64 (List LiveDirectory) := KeyedArena.empty
  backlog : List LiveDirectory := []
  cursor : ℕ := 0

def maxLiveDirectoriesPerFlush : ℕ := 4096

def maxLiveDepth : ℕ := 3

def maxLiveOrphans : ℕ := 5000

namespace LiveTree

variable (state : LiveTree)

/-- The depth of a node below this one. -/
def depthBelow (parent : Option ℕ) : ℕ :=
  match parent with
  | none => 0
  | some parent => ((state.nodes[parent]?).map TreeNodeUi.depth).getD 0 + 1

def liveNode (directory : LiveDirectory) (parent : Option ℕ) (depth : ℕ) : TreeNodeUi where
  id := directory.id
  isDirectory := true
  name := directory.name
  childrenLoaded := true
  expanded := parent.isNone
  depth := depth
  parent := parent

/-- A directory becomes a node, and the last child of its parent. -/
def attach (directory : LiveDirectory) (parent : Option ℕ) : LiveTree :=
  let index := state.nodes.length
  let nodes := state.nodes ++ [liveNode directory parent (state.depthBelow parent)]
  { state with
    nodes := match parent with
      | none => nodes
      | some parent => nodes.modify parent fun node ↦ { node with children := node.children ++ [index] }
    indexById := state.indexById.set directory.id index }

/-- Those that waited for a directory, the last first. -/
def released (directory : LiveDirectory) (parent : Option ℕ) : List (LiveDirectory × Option ℕ) :=
  if state.depthBelow parent + 1 ≤ maxLiveDepth then
    ((state.orphans.bucket directory.id).map (·, some state.nodes.length)).reverse
  else []

def insertNext (directory : LiveDirectory) (parent : Option ℕ) : LiveTree :=
  { state.attach directory parent with orphans := state.orphans.erase directory.id }

theorem length_released (directory : LiveDirectory) (parent : Option ℕ) :
    (state.released directory parent).length + (state.insertNext directory parent).orphans.elements.length ≤
      state.orphans.elements.length := by
  have hperm := (IdMap.elements_perm_erase state.orphans directory.id).length_eq
  rw [List.length_append] at hperm
  unfold released
  split_ifs
  · simp only [List.length_reverse, List.length_map, insertNext]
    omega
  · simp only [List.length_nil, insertNext]
    omega

/-- A directory and those that waited for it. The work is a stack, its top first. -/
def insertWithOrphans (state : LiveTree) (work : List (LiveDirectory × Option ℕ)) : LiveTree :=
  match work with
  | [] => state
  | (directory, parent) :: rest =>
      insertWithOrphans (state.insertNext directory parent) (state.released directory parent ++ rest)
termination_by work.length + state.orphans.elements.length
decreasing_by
  have hlength := state.length_released directory parent
  simp only [List.length_cons, List.length_append]
  omega

/-- One directory of the backlog. -/
def applyDirectory (directory : LiveDirectory) : LiveTree :=
  if (state.indexById.find? directory.id).isSome then state
  else if directory.hasParent then
    match state.indexById.find? directory.parentId with
    | none =>
        if state.orphans.records.length < maxLiveOrphans then
          { state with orphans := state.orphans.push directory.parentId directory }
        else state
    | some parent =>
        if maxLiveDepth < state.depthBelow (some parent) then state
        else state.insertWithOrphans [(directory, some parent)]
  else if state.nodes = [] then state.insertWithOrphans [(directory, none)]
  else state

/-- What arrives comes behind what is left of the backlog. -/
def enqueue (directories : List LiveDirectory) : LiveTree :=
  if state.backlog.length ≤ state.cursor then { state with backlog := directories, cursor := 0 }
  else { state with backlog := state.backlog ++ directories }

/-- One flush. It draws the list anew, if anything has changed, when the last time is long ago. -/
def applyLiveDirectories (directories : List LiveDirectory) (refresh : Bool) : LiveTree :=
  let queued := state.enqueue directories
  let chunkEnd := min (queued.cursor + maxLiveDirectoriesPerFlush) queued.backlog.length
  let applied := ((queued.backlog.take chunkEnd).drop queued.cursor).foldl applyDirectory
    { queued with cursor := chunkEnd }
  if applied.nodes.length ≠ state.nodes.length ∧ refresh then
    { applied with toFolderTree := FolderTree.rebuildTreeVisibleRows applied.nodes }
  else applied

/-- What happens to the list while a scan runs. -/
inductive Action
  | arrive (directories : List LiveDirectory) (refresh : Bool)
  | toggle (index : ℕ)
  | loadMore (index : ℕ)

def act (tree : TreeIndex) (sorts : Unstable ℕ) (state : LiveTree × ChildOrders) :
    Action → LiveTree × ChildOrders
  | .arrive directories refresh => (state.1.applyLiveDirectories directories refresh, state.2)
  | .toggle index =>
      let toggled := FolderTree.toggleTreeNodeExpansion tree sorts (state.1.toFolderTree, state.2) index
      ({ state.1 with toFolderTree := toggled.1 }, toggled.2)
  | .loadMore index =>
      let more := FolderTree.loadMoreTreeChildren tree sorts (state.1.toFolderTree, state.2) index
      ({ state.1 with toFolderTree := more.1 }, more.2)

def run (tree : TreeIndex) (sorts : Unstable ℕ) (orders : ChildOrders) (actions : List Action) :
    LiveTree × ChildOrders :=
  actions.foldl (act tree sorts) ({}, orders)

/-- Everything that has arrived, in this order. -/
def arrived (actions : List Action) : List LiveDirectory :=
  actions.flatMap fun
    | .arrive directories _ => directories
    | .toggle _ => []
    | .loadMore _ => []

end LiveTree

/-! ## What is to be shown -/

/-- The directories that a chain of parents connects with the root, and the length of the chain.
The first directory without a parent is the root. -/
inductive Placed (directories : List LiveDirectory) : ℕ → LiveDirectory → Prop
  | root {directory : LiveDirectory} (hroot : directories.find? (!·.hasParent) = some directory) :
      Placed directories 0 directory
  | child {depth : ℕ} {parent directory : LiveDirectory} (hparent : Placed directories depth parent)
      (hmem : directory ∈ directories) (hhas : directory.hasParent = true)
      (hid : directory.parentId = parent.id) (hdepth : depth < maxLiveDepth) :
      Placed directories (depth + 1) directory

namespace Placed

variable {directories : List LiveDirectory} {depth : ℕ} {directory : LiveDirectory}

theorem mem (h : Placed directories depth directory) : directory ∈ directories := by
  cases h with
  | root hroot => exact List.mem_of_find?_eq_some hroot
  | child _ hmem => exact hmem

theorem append (h : Placed directories depth directory) (more : List LiveDirectory) :
    Placed (directories ++ more) depth directory := by
  induction h with
  | root hroot => exact .root (by rw [List.find?_append, hroot, Option.some_or])
  | child _ hmem hhas hid hdepth ih => exact .child ih (List.mem_append_left _ hmem) hhas hid hdepth

/-- There is a root. -/
theorem exists_root (h : Placed directories depth directory) :
    ∃ root, directories.find? (!·.hasParent) = some root := by
  induction h with
  | root hroot => exact ⟨_, hroot⟩
  | child _ _ _ _ _ ih => exact ih

theorem find?_of_not_hasParent (h : Placed directories depth directory)
    (hhas : directory.hasParent = false) : directories.find? (!·.hasParent) = some directory := by
  cases h with
  | root hroot => exact hroot
  | child _ _ htrue => exact Bool.noConfusion (htrue.symm.trans hhas)

theorem unique (hids : (directories.map LiveDirectory.id).Nodup) (h : Placed directories depth directory)
    {depth' : ℕ} (h' : Placed directories depth' directory) : depth = depth' := by
  induction h generalizing depth' with
  | root hroot =>
      have hnot := List.find?_some hroot
      cases h' with
      | root => rfl
      | child _ _ hhas => simp [hhas] at hnot
  | child hparent hmem hhas hid hdepth ih =>
      cases h' with
      | root hroot =>
          have hnot := List.find?_some hroot
          simp [hhas] at hnot
      | child hparent' _ _ hid' =>
          have hsame := List.inj_on_of_nodup_map hids hparent.mem hparent'.mem (hid.symm.trans hid')
          exact congrArg Nat.succ (ih (hsame ▸ hparent'))

end Placed

namespace LiveTree

/-- A node of the list stands for a directory. -/
structure StandsFor (nodes : List TreeNodeUi) (i : ℕ) (node : TreeNodeUi) (directory : LiveDirectory) :
    Prop where
  id : node.id = directory.id
  name : node.name = directory.name
  plain : node.isDirectory = true ∧ node.isMoreRow = false ∧ node.childrenLoaded = true
  below : ∀ p, node.parent = some p → p < i ∧ ∃ parent : TreeNodeUi, nodes[p]? = some parent ∧
    parent.id = directory.parentId ∧ i ∈ parent.children ∧ node.depth = parent.depth + 1
  first : node.parent = none → i = 0

/-- Everything that has arrived is in at most one place, and nodes are where they belong. -/
structure Sound (seen : List LiveDirectory) (state : LiveTree) (work : List (LiveDirectory × Option ℕ)) :
    Prop where
  nodes : ∀ (i : ℕ) (node : TreeNodeUi), state.nodes[i]? = some node →
    ∃ directory, Placed seen node.depth directory ∧ StandsFor state.nodes i node directory
  links : ∀ (i : ℕ) (node : TreeNodeUi), state.nodes[i]? = some node → node.children.Nodup ∧
    ∀ j ∈ node.children, ∃ child : TreeNodeUi, state.nodes[j]? = some child ∧ child.parent = some i
  index : ∀ id i, state.indexById.find? id = some i ↔
    ∃ node : TreeNodeUi, state.nodes[i]? = some node ∧ node.id = id
  apart : (state.nodes.map (·.id) ++ work.map (·.1.id) ++
    state.orphans.elements.map LiveDirectory.id).Nodup
  below : ∀ directory p, (directory, some p) ∈ work → directory ∈ seen ∧ directory.hasParent = true ∧
    ∃ parent : TreeNodeUi, state.nodes[p]? = some parent ∧ parent.id = directory.parentId ∧
      parent.depth < maxLiveDepth
  first : ∀ directory, (directory, none) ∈ work →
    state.nodes = [] ∧ Placed seen 0 directory ∧ work.length = 1
  orphans : ∀ id waiting, state.orphans.find? id = some waiting → waiting ≠ [] ∧
    state.indexById.find? id = none ∧
    ∀ directory ∈ waiting, directory ∈ seen ∧ directory.hasParent = true ∧ directory.parentId = id

variable {seen : List LiveDirectory} {state : LiveTree} {work : List (LiveDirectory × Option ℕ)}

theorem getElem?_attach (directory : LiveDirectory) {parent : Option ℕ}
    (hparent : ∀ p, parent = some p → p < state.nodes.length) (i : ℕ) :
    (state.attach directory parent).nodes[i]? =
      if i = state.nodes.length then some (liveNode directory parent (state.depthBelow parent))
      else (state.nodes[i]?).map fun node ↦
        if parent = some i then { node with children := node.children ++ [state.nodes.length] }
        else node := by
  have hlast : ∀ node : TreeNodeUi, (state.nodes ++ [node])[i]? =
      if i = state.nodes.length then some node else state.nodes[i]? := by
    intro node
    rcases lt_trichotomy i state.nodes.length with hlt | rfl | hgt
    · rw [List.getElem?_append_left hlt, if_neg hlt.ne]
    · simp
    · rw [if_neg hgt.ne', List.getElem?_eq_none hgt.le, List.getElem?_eq_none]
      rw [List.length_append]
      exact Nat.succ_le_of_lt hgt
  cases parent with
  | none => simpa [attach] using hlast _
  | some p =>
      have hp := hparent p rfl
      by_cases hi : p = i
      · obtain rfl := hi
        simp [attach, hlast, hp.ne]
      · simp [attach, hlast, hi]

theorem map_id_attach (directory : LiveDirectory) (parent : Option ℕ) :
    (state.attach directory parent).nodes.map (·.id) = state.nodes.map (·.id) ++ [directory.id] := by
  cases parent with
  | none => simp [attach, liveNode]
  | some p =>
      have hmodify : ∀ nodes : List TreeNodeUi, ((nodes.modify p fun node ↦
          { node with children := node.children ++ [state.nodes.length] }).map (·.id)) =
          nodes.map (·.id) := by
        intro nodes
        refine List.ext_getElem? fun i ↦ ?_
        rw [List.getElem?_map, List.getElem?_map, List.getElem?_modify]
        cases nodes[i]? with
        | none => simp
        | some node => by_cases hi : p = i <;> simp [hi]
      rw [attach, hmodify, List.map_append, List.map_singleton, liveNode]

/-- The nodes that were there stay, and the last may be below one of them. -/
theorem attach_keeps (directory : LiveDirectory) {parent : Option ℕ}
    (hparent : ∀ p, parent = some p → p < state.nodes.length) {i : ℕ} {node : TreeNodeUi}
    (hnode : state.nodes[i]? = some node) :
    i ≠ state.nodes.length ∧ ∃ node' : TreeNodeUi, (state.attach directory parent).nodes[i]? = some node' ∧
      node'.toWbTreeNode = node.toWbTreeNode ∧ node'.depth = node.depth ∧ node'.parent = node.parent ∧
      node.children ⊆ node'.children := by
  have hne : i ≠ state.nodes.length := (List.getElem?_eq_some_iff.mp hnode).1.ne
  refine ⟨hne, _, by rw [getElem?_attach directory hparent, if_neg hne, hnode, Option.map_some], ?_⟩
  split_ifs
  · exact ⟨rfl, rfl, rfl, List.subset_append_left _ _⟩
  · exact ⟨rfl, rfl, rfl, List.Subset.refl _⟩

theorem attach_cases (directory : LiveDirectory) {parent : Option ℕ}
    (hparent : ∀ p, parent = some p → p < state.nodes.length) {i : ℕ} {node' : TreeNodeUi}
    (hnode' : (state.attach directory parent).nodes[i]? = some node') :
    (i = state.nodes.length ∧ node' = liveNode directory parent (state.depthBelow parent)) ∨
    ∃ node : TreeNodeUi, state.nodes[i]? = some node ∧ node' = if parent = some i then
      { node with children := node.children ++ [state.nodes.length] } else node := by
  rw [getElem?_attach directory hparent] at hnode'
  by_cases hi : i = state.nodes.length
  · rw [if_pos hi] at hnode'
    exact Or.inl ⟨hi, (Option.some.inj hnode').symm⟩
  · rw [if_neg hi] at hnode'
    obtain ⟨node, hnode, hsame⟩ := Option.map_eq_some_iff.mp hnode'
    exact Or.inr ⟨node, hnode, hsame.symm⟩

namespace Sound

theorem nodup_nodes (h : Sound seen state work) : (state.nodes.map (·.id)).Nodup :=
  (List.nodup_append.mp (List.nodup_append.mp h.apart).1).1

theorem later (h : Sound seen state work) {j p : ℕ} {child : TreeNodeUi}
    (hchild : state.nodes[j]? = some child) (hparent : child.parent = some p) : p < j := by
  obtain ⟨directory, -, hstands⟩ := h.nodes j child hchild
  exact (hstands.below p hparent).1

theorem forest (h : Sound seen state work) :
    Outlines.Forest (FolderTree.openChildren state.nodes) state.nodes.length :=
  FolderTree.forest_openChildren (fun i node hnode ↦ (h.links i node hnode).1)
    (fun i node hnode ↦ (h.links i node hnode).2) fun _ _ _ hchild hparent ↦ h.later hchild hparent

/-- What is known of the place that a directory gets. -/
theorem place_of_cons {directory : LiveDirectory} {parent : Option ℕ}
    (h : Sound seen state ((directory, parent) :: work)) :
    Placed seen (state.depthBelow parent) directory ∧
      (∀ p, parent = some p → p < state.nodes.length) ∧
      StandsFor (state.attach directory parent).nodes state.nodes.length
        (liveNode directory parent (state.depthBelow parent)) directory := by
  cases parent with
  | none =>
      obtain ⟨hempty, hroot, -⟩ := h.first directory List.mem_cons_self
      refine ⟨hroot, fun p hp ↦ (by cases hp), rfl, rfl, ⟨rfl, rfl, rfl⟩, fun p hp ↦ (by cases hp),
        fun _ ↦ ?_⟩
      rw [hempty, List.length_nil]
  | some p =>
      obtain ⟨hseen, hhas, above, habove, hid, hdepth⟩ := h.below directory p List.mem_cons_self
      have hlt : ∀ q, some p = some q → q < state.nodes.length := by
        intro q hq
        obtain rfl := Option.some.inj hq
        exact (List.getElem?_eq_some_iff.mp habove).1
      have hbelow : state.depthBelow (some p) = above.depth + 1 := by
        simp [depthBelow, habove]
      obtain ⟨other, hother, hstands⟩ := h.nodes p above habove
      refine ⟨?_, hlt, rfl, rfl, ⟨rfl, rfl, rfl⟩, fun q hq ↦ ?_, fun hnone ↦ by cases hnone⟩
      · rw [hbelow]
        exact .child hother hseen hhas (hid.symm.trans hstands.id) hdepth
      · obtain rfl := Option.some.inj hq
        have hne : p ≠ state.nodes.length := (hlt p rfl).ne
        refine ⟨hlt p rfl, { above with children := above.children ++ [state.nodes.length] }, ?_, hid,
          by simp, hbelow⟩
        rw [getElem?_attach directory hlt, if_neg hne, habove, Option.map_some, if_pos rfl]

/-- The ids of all that waits stay apart. -/
theorem apart_insertNext {directory : LiveDirectory} {parent : Option ℕ}
    (h : Sound seen state ((directory, parent) :: work)) :
    ((state.insertNext directory parent).nodes.map (·.id) ++
      (state.released directory parent ++ work).map (·.1.id) ++
      (state.insertNext directory parent).orphans.elements.map LiveDirectory.id).Nodup := by
  have hreleased : ((state.released directory parent).map (·.1.id)).Sublist
      ((state.orphans.bucket directory.id).map LiveDirectory.id).reverse := by
    unfold released
    split_ifs
    · rw [List.map_reverse, List.map_map]
      exact List.Sublist.refl _
    · exact List.nil_sublist _
  have hids : (state.insertNext directory parent).nodes.map (·.id) =
      state.nodes.map (·.id) ++ [directory.id] := map_id_attach directory parent
  have horphans := (IdMap.elements_perm_erase state.orphans directory.id).map LiveDirectory.id
  rw [List.map_append] at horphans
  -- the same ids, those that are released before the others
  have hperm : (state.nodes.map (·.id) ++ ((directory, parent) :: work).map (·.1.id) ++
      state.orphans.elements.map LiveDirectory.id).Perm
      (state.nodes.map (·.id) ++ [directory.id] ++
        (((state.orphans.bucket directory.id).map LiveDirectory.id).reverse ++ work.map (·.1.id)) ++
        (state.orphans.erase directory.id).elements.map LiveDirectory.id) := by
    rw [List.map_cons, List.append_assoc, List.append_assoc, List.append_assoc, List.cons_append]
    refine (List.Perm.cons _ ?_).append_left _
    refine (horphans.append_left _).trans ?_
    rw [← List.append_assoc]
    exact ((List.perm_append_comm).trans ((List.reverse_perm _).symm.append_right _)).append_right _
  rw [hids, List.map_append]
  refine (hperm.nodup_iff.mp h.apart).sublist ?_
  exact (((hreleased.append (List.Sublist.refl _))).append_left _).append_right _

/-- Every node stands for a directory, the new one for its own. -/
theorem nodes_insertNext {directory : LiveDirectory} {parent : Option ℕ}
    (h : Sound seen state ((directory, parent) :: work)) (i : ℕ) (node' : TreeNodeUi)
    (hnode' : (state.attach directory parent).nodes[i]? = some node') :
    ∃ other, Placed seen node'.depth other ∧
      StandsFor (state.attach directory parent).nodes i node' other := by
  obtain ⟨hplaced, hparent, hstands⟩ := h.place_of_cons
  rcases attach_cases directory hparent hnode' with ⟨rfl, rfl⟩ | ⟨node, hnode, rfl⟩
  · exact ⟨directory, hplaced, hstands⟩
  · obtain ⟨other, hother, hid, hname, hplain, hbelow, hfirst⟩ := h.nodes i node hnode
    have hstays : ∀ p, node.parent = some p → p < i ∧ ∃ above : TreeNodeUi,
        (state.attach directory parent).nodes[p]? = some above ∧ above.id = other.parentId ∧
          i ∈ above.children ∧ node.depth = above.depth + 1 := by
      intro p hp
      obtain ⟨hlt, above, habove, hsame, hchild, hdepth⟩ := hbelow p hp
      obtain ⟨-, above', habove', hdata, hdepth', -, hchildren⟩ := attach_keeps directory hparent habove
      exact ⟨hlt, above', habove', by rw [hdata, hsame], hchildren hchild, by rw [hdepth, hdepth']⟩
    split_ifs
    · exact ⟨other, hother, hid, hname, hplain, hstays, hfirst⟩
    · exact ⟨other, hother, hid, hname, hplain, hstays, hfirst⟩

theorem getElem?_attach_length {directory : LiveDirectory} {parent : Option ℕ}
    (h : Sound seen state ((directory, parent) :: work)) :
    (state.attach directory parent).nodes[state.nodes.length]? =
      some (liveNode directory parent (state.depthBelow parent)) := by
  rw [getElem?_attach directory h.place_of_cons.2.1, if_pos rfl]

/-- The parent of the new node has one more child, the others have those that they had. -/
theorem links_insertNext {directory : LiveDirectory} {parent : Option ℕ}
    (h : Sound seen state ((directory, parent) :: work)) (i : ℕ) (node' : TreeNodeUi)
    (hnode' : (state.attach directory parent).nodes[i]? = some node') :
    node'.children.Nodup ∧ ∀ j ∈ node'.children, ∃ child : TreeNodeUi,
      (state.attach directory parent).nodes[j]? = some child ∧ child.parent = some i := by
  obtain ⟨-, hparent, -⟩ := h.place_of_cons
  rcases attach_cases directory hparent hnode' with ⟨rfl, rfl⟩ | ⟨node, hnode, rfl⟩
  · exact ⟨List.nodup_nil, fun j hj ↦ absurd hj List.not_mem_nil⟩
  · obtain ⟨hnodup, hlinks⟩ := h.links i node hnode
    have hstay : ∀ j ∈ node.children, j ≠ state.nodes.length ∧ ∃ child : TreeNodeUi,
        (state.attach directory parent).nodes[j]? = some child ∧ child.parent = some i := by
      intro j hj
      obtain ⟨child, hchild, habove⟩ := hlinks j hj
      obtain ⟨hne, child', hchild', -, -, hparent', -⟩ := attach_keeps directory hparent hchild
      exact ⟨hne, child', hchild', hparent'.trans habove⟩
    split_ifs with hi
    · refine ⟨List.nodup_append.mpr ⟨hnodup, List.nodup_singleton _, ?_⟩, fun j hj ↦ ?_⟩
      · intro j hj k hk
        rw [List.mem_singleton.mp hk]
        exact (hstay j hj).1
      · rcases List.mem_append.mp hj with hold | hnew
        · exact (hstay j hold).2
        · rw [List.mem_singleton.mp hnew]
          exact ⟨_, h.getElem?_attach_length, hi⟩
    · exact ⟨hnodup, fun j hj ↦ (hstay j hj).2⟩

/-- The index finds the new node under its id. -/
theorem index_insertNext {directory : LiveDirectory} {parent : Option ℕ}
    (h : Sound seen state ((directory, parent) :: work)) (id : UInt64) (i : ℕ) :
    (state.insertNext directory parent).indexById.find? id = some i ↔
      ∃ node : TreeNodeUi, (state.attach directory parent).nodes[i]? = some node ∧ node.id = id := by
  obtain ⟨-, hparent, -⟩ := h.place_of_cons
  -- the id of a node that was there is another one
  have hother : ∀ (i : ℕ) (node : TreeNodeUi), state.nodes[i]? = some node → node.id ≠ directory.id := by
    intro i node hnode
    have hapart := List.nodup_append.mp (List.nodup_append.mp h.apart).1
    exact hapart.2.2 _ (List.mem_map_of_mem (List.mem_of_getElem? hnode)) _ (by simp)
  have hset : (state.insertNext directory parent).indexById.find? id =
      if id = directory.id then some state.nodes.length else state.indexById.find? id :=
    IdMap.find?_set state.indexById directory.id id state.nodes.length
  rw [hset]
  constructor
  · intro hfind
    split_ifs at hfind with hid
    · obtain rfl := Option.some.inj hfind
      exact ⟨_, h.getElem?_attach_length, hid.symm⟩
    · obtain ⟨node, hnode, hsame⟩ := (h.index id i).mp hfind
      obtain ⟨-, node', hnode', hdata, -⟩ := attach_keeps directory hparent hnode
      exact ⟨node', hnode', (congrArg WbTreeNode.id hdata).trans hsame⟩
  · rintro ⟨node', hnode', rfl⟩
    rcases attach_cases directory hparent hnode' with ⟨rfl, rfl⟩ | ⟨node, hnode, hsame⟩
    · exact if_pos rfl
    · have hid : node'.id = node.id := by
        rw [hsame]
        split_ifs <;> rfl
      rw [hid, if_neg (hother i node hnode)]
      exact (h.index node.id i).mpr ⟨node, hnode, rfl⟩

/-- What is released waits for the new node, and the rest for nodes that stay. -/
theorem below_insertNext {directory : LiveDirectory} {parent : Option ℕ}
    (h : Sound seen state ((directory, parent) :: work)) (other : LiveDirectory) (p : ℕ)
    (hmem : (other, some p) ∈ state.released directory parent ++ work) :
    other ∈ seen ∧ other.hasParent = true ∧ ∃ above : TreeNodeUi,
      (state.attach directory parent).nodes[p]? = some above ∧ above.id = other.parentId ∧
        above.depth < maxLiveDepth := by
  rcases List.mem_append.mp hmem with hreleased | hrest
  · unfold released at hreleased
    split_ifs at hreleased with hdepth
    · obtain ⟨waiting, hwaiting, heq⟩ := List.mem_map.mp (List.mem_reverse.mp hreleased)
      obtain ⟨rfl, hlength⟩ := Prod.mk.inj heq
      obtain rfl := Option.some.inj hlength
      cases hfind : state.orphans.find? directory.id with
      | none => simp [IdMap.bucket, hfind] at hwaiting
      | some bucket =>
          rw [IdMap.bucket, hfind, Option.getD_some] at hwaiting
          obtain ⟨hseen, hhas, hid⟩ := (h.orphans directory.id bucket hfind).2.2 waiting hwaiting
          exact ⟨hseen, hhas, _, h.getElem?_attach_length, hid.symm, Nat.lt_of_succ_le hdepth⟩
    · exact absurd hreleased List.not_mem_nil
  · obtain ⟨hseen, hhas, above, habove, hid, hdepth⟩ := h.below other p (List.mem_cons_of_mem _ hrest)
    obtain ⟨-, above', habove', hdata, hdepth', -⟩ := attach_keeps directory h.place_of_cons.2.1 habove
    exact ⟨hseen, hhas, above', habove', (congrArg WbTreeNode.id hdata).trans hid, hdepth' ▸ hdepth⟩

/-- A root is inserted alone, and none is released. -/
theorem not_mem_released {directory other : LiveDirectory} {parent : Option ℕ}
    (h : Sound seen state ((directory, parent) :: work)) :
    (other, none) ∉ state.released directory parent ++ work := by
  intro hmem
  rcases List.mem_append.mp hmem with hreleased | hrest
  · unfold released at hreleased
    split_ifs at hreleased
    · obtain ⟨_, -, heq⟩ := List.mem_map.mp (List.mem_reverse.mp hreleased)
      cases (Prod.mk.inj heq).2
    · exact List.not_mem_nil hreleased
  · have hlength := (h.first other (List.mem_cons_of_mem _ hrest)).2.2
    rw [List.length_cons] at hlength
    exact List.ne_nil_of_mem hrest (List.eq_nil_of_length_eq_zero (Nat.succ.inj hlength))

/-- Nothing waits for the new node any more. -/
theorem orphans_insertNext {directory : LiveDirectory} {parent : Option ℕ}
    (h : Sound seen state ((directory, parent) :: work)) (id : UInt64) (waiting : List LiveDirectory)
    (hwaiting : (state.orphans.erase directory.id).find? id = some waiting) : waiting ≠ [] ∧
      (state.insertNext directory parent).indexById.find? id = none ∧
      ∀ other ∈ waiting, other ∈ seen ∧ other.hasParent = true ∧ other.parentId = id := by
  by_cases hid : id = directory.id
  · have hnone : (state.orphans.erase directory.id).find? directory.id = none :=
      IdMap.find?_erase_self _ _
    rw [hid] at hwaiting
    exact absurd (hnone.symm.trans hwaiting) (by simp)
  · have hstays : (state.orphans.erase directory.id).find? id = state.orphans.find? id :=
      IdMap.find?_erase_of_ne _ hid
    obtain ⟨hne, hnone, hall⟩ := h.orphans id waiting (hstays.symm.trans hwaiting)
    refine ⟨hne, ?_, hall⟩
    exact (IdMap.find?_set_of_ne state.indexById state.nodes.length hid).trans hnone

theorem insertNext {directory : LiveDirectory} {parent : Option ℕ}
    (h : Sound seen state ((directory, parent) :: work)) :
    Sound seen (state.insertNext directory parent) (state.released directory parent ++ work) where
  nodes := h.nodes_insertNext
  links := h.links_insertNext
  index := h.index_insertNext
  apart := h.apart_insertNext
  below := h.below_insertNext
  first _ hmem := absurd hmem h.not_mem_released
  orphans := h.orphans_insertNext

theorem insertWithOrphans (h : Sound seen state work) : Sound seen (insertWithOrphans state work) [] := by
  induction state, work using LiveTree.insertWithOrphans.induct with
  | case1 state => rwa [LiveTree.insertWithOrphans]
  | case2 state directory parent rest ih =>
      rw [LiveTree.insertWithOrphans]
      exact ih h.insertNext

theorem append (h : Sound seen state work) (more : List LiveDirectory) :
    Sound (seen ++ more) state work := by
  refine ⟨fun i node hnode ↦ ?_, h.links, h.index, h.apart, fun directory p hmem ↦ ?_,
    fun directory hmem ↦ ?_, fun id waiting hwaiting ↦ ?_⟩
  · obtain ⟨directory, hplaced, hstands⟩ := h.nodes i node hnode
    exact ⟨directory, hplaced.append more, hstands⟩
  · exact (h.below directory p hmem).imp (List.mem_append_left _) id
  · obtain ⟨hempty, hplaced, hlength⟩ := h.first directory hmem
    exact ⟨hempty, hplaced.append more, hlength⟩
  · obtain ⟨hne, hnone, hall⟩ := h.orphans id waiting hwaiting
    exact ⟨hne, hnone, fun directory hmem ↦ (hall directory hmem).imp (List.mem_append_left _) (fun h ↦ h)⟩

/-- What is known has arrived. -/
theorem mem_seen (h : Sound seen state work) {id : UInt64}
    (hmem : id ∈ state.nodes.map (·.id) ++ state.orphans.elements.map LiveDirectory.id) :
    id ∈ seen.map LiveDirectory.id := by
  rcases List.mem_append.mp hmem with hnode | horphan
  · obtain ⟨node, hin, rfl⟩ := List.mem_map.mp hnode
    obtain ⟨i, hi⟩ := List.mem_iff_getElem?.mp hin
    obtain ⟨directory, hplaced, hstands⟩ := h.nodes i node hi
    exact List.mem_map.mpr ⟨directory, hplaced.mem, hstands.id.symm⟩
  · obtain ⟨directory, hdirectory, rfl⟩ := List.mem_map.mp horphan
    obtain ⟨id, waiting, hwaiting, hmem⟩ := (IdMap.mem_elements_iff _ _).mp hdirectory
    exact List.mem_map_of_mem ((h.orphans id waiting hwaiting).2.2 directory hmem).1

/-- One directory is to be put in. -/
theorem start (h : Sound seen state []) {directory : LiveDirectory} {parent : Option ℕ}
    (hfresh : directory.id ∉ state.nodes.map (·.id) ++ state.orphans.elements.map LiveDirectory.id)
    (hbelow : ∀ p, parent = some p → directory ∈ seen ∧ directory.hasParent = true ∧
      ∃ above : TreeNodeUi, state.nodes[p]? = some above ∧ above.id = directory.parentId ∧
        above.depth < maxLiveDepth)
    (hfirst : parent = none → state.nodes = [] ∧ Placed seen 0 directory) :
    Sound seen state [(directory, parent)] := by
  refine ⟨h.nodes, h.links, h.index, ?_, fun other p hmem ↦ ?_, fun other hmem ↦ ?_, h.orphans⟩
  · have hapart := h.apart
    rw [List.map_nil, List.append_nil] at hapart
    have hperm : (state.nodes.map (·.id) ++ [(directory, parent)].map (·.1.id) ++
        state.orphans.elements.map LiveDirectory.id).Perm
        (directory.id :: (state.nodes.map (·.id) ++ state.orphans.elements.map LiveDirectory.id)) := by
      rw [List.append_assoc]
      exact List.perm_middle
    exact hperm.nodup_iff.mpr (List.nodup_cons.mpr ⟨hfresh, hapart⟩)
  · obtain ⟨rfl, hp⟩ := Prod.mk.inj (List.mem_singleton.mp hmem)
    exact hbelow p hp.symm
  · obtain ⟨rfl, hp⟩ := Prod.mk.inj (List.mem_singleton.mp hmem)
    exact ⟨(hfirst hp.symm).1, (hfirst hp.symm).2, rfl⟩

/-- A directory waits. -/
theorem park (h : Sound seen state []) {directory : LiveDirectory}
    (hfresh : directory.id ∉ state.nodes.map (·.id) ++ state.orphans.elements.map LiveDirectory.id)
    (hseen : directory ∈ seen) (hhas : directory.hasParent = true)
    (hnone : state.indexById.find? directory.parentId = none) :
    Sound seen { state with orphans := state.orphans.push directory.parentId directory } [] := by
  refine ⟨h.nodes, h.links, h.index, ?_, fun _ _ hmem ↦ absurd hmem List.not_mem_nil,
    fun _ hmem ↦ absurd hmem List.not_mem_nil, fun id waiting hwaiting ↦ ?_⟩
  · have hapart := h.apart
    rw [List.map_nil, List.append_nil] at hapart ⊢
    have hpush := (IdMap.elements_push_perm state.orphans directory.parentId directory).map LiveDirectory.id
    have hperm := (hpush.append_left (state.nodes.map (·.id))).trans List.perm_middle
    exact hperm.nodup_iff.mpr (List.nodup_cons.mpr ⟨hfresh, hapart⟩)
  · rw [IdMap.find?_push] at hwaiting
    split_ifs at hwaiting with hid
    · obtain rfl := Option.some.inj hwaiting
      refine ⟨List.append_ne_nil_of_right_ne_nil _ (List.cons_ne_nil _ _), hid ▸ hnone,
        fun other hother ↦ ?_⟩
      rcases List.mem_append.mp hother with hold | hnew
      · cases hfind : state.orphans.find? directory.parentId with
        | none => simp [IdMap.bucket, hfind] at hold
        | some bucket =>
            rw [IdMap.bucket, hfind, Option.getD_some] at hold
            exact hid ▸ (h.orphans directory.parentId bucket hfind).2.2 other hold
      · rw [List.mem_singleton.mp hnew]
        exact ⟨hseen, hhas, hid.symm⟩
    · exact h.orphans id waiting hwaiting

end Sound

theorem length_insertWithOrphans (state : LiveTree) (work : List (LiveDirectory × Option ℕ)) :
    state.nodes.length + work.length ≤ (state.insertWithOrphans work).nodes.length := by
  induction state, work using LiveTree.insertWithOrphans.induct with
  | case1 state => rw [insertWithOrphans, List.length_nil, Nat.add_zero]
  | case2 state directory parent rest ih =>
      have hids : (state.attach directory parent).nodes.map (·.id) = _ := map_id_attach directory parent
      have hlength := congrArg List.length hids
      rw [List.length_map, List.length_append, List.length_map, List.length_singleton] at hlength
      rw [List.length_append, insertNext, hlength] at ih
      rw [insertWithOrphans, List.length_cons]
      exact le_trans (by omega) ih

/-- What becomes of a directory. -/
inductive Applied (state : LiveTree) (directory : LiveDirectory) : LiveTree → Prop
  | known (hknown : (state.indexById.find? directory.id).isSome) : Applied state directory state
  | parked (hhas : directory.hasParent = true) (hnone : state.indexById.find? directory.parentId = none)
      (hroom : state.orphans.records.length < maxLiveOrphans) :
      Applied state directory { state with orphans := state.orphans.push directory.parentId directory }
  | refused (hhas : directory.hasParent = true) (hnone : state.indexById.find? directory.parentId = none)
      (hfull : maxLiveOrphans ≤ state.orphans.records.length) : Applied state directory state
  | below {parent : ℕ} (hhas : directory.hasParent = true)
      (hparent : state.indexById.find? directory.parentId = some parent)
      (hdepth : state.depthBelow (some parent) ≤ maxLiveDepth) :
      Applied state directory (state.insertWithOrphans [(directory, some parent)])
  | tooDeep {parent : ℕ} (hhas : directory.hasParent = true)
      (hparent : state.indexById.find? directory.parentId = some parent)
      (hdepth : maxLiveDepth < state.depthBelow (some parent)) : Applied state directory state
  | root (hhas : directory.hasParent = false) (hempty : state.nodes = []) :
      Applied state directory (state.insertWithOrphans [(directory, none)])
  | otherRoot (hhas : directory.hasParent = false) (hnodes : state.nodes ≠ []) :
      Applied state directory state

theorem applied (state : LiveTree) (directory : LiveDirectory) :
    Applied state directory (state.applyDirectory directory) := by
  unfold applyDirectory
  by_cases hknown : (state.indexById.find? directory.id).isSome = true
  · rw [if_pos hknown]
    exact .known hknown
  rw [if_neg hknown]
  by_cases hhas : directory.hasParent = true
  · rw [if_pos hhas]
    cases hparent : state.indexById.find? directory.parentId with
    | none =>
        simp only
        split_ifs with hroom
        · exact .parked hhas hparent hroom
        · exact .refused hhas hparent (not_lt.mp hroom)
    | some parent =>
        simp only
        split_ifs with hdepth
        · exact .tooDeep hhas hparent hdepth
        · exact .below hhas hparent (not_lt.mp hdepth)
  · rw [if_neg hhas]
    split_ifs with hempty
    · exact .root (Bool.not_eq_true _ ▸ hhas) hempty
    · exact .otherRoot (Bool.not_eq_true _ ▸ hhas) hempty

/-- A list without nodes has seen no root. -/
def Rooted (seen : List LiveDirectory) (state : LiveTree) : Prop :=
  state.nodes = [] → seen.find? (!·.hasParent) = none

theorem depthBelow_of_getElem? {p : ℕ} {above : TreeNodeUi} (habove : state.nodes[p]? = some above) :
    state.depthBelow (some p) = above.depth + 1 := by
  rw [depthBelow, habove, Option.map_some, Option.getD_some]

namespace Sound

section

variable {directory : LiveDirectory} (h : Sound seen state [])
  (hids : ((seen ++ [directory]).map LiveDirectory.id).Nodup)

include h hids

theorem fresh :
    directory.id ∉ state.nodes.map (·.id) ++ state.orphans.elements.map LiveDirectory.id := by
  intro hmem
  rw [List.map_append, List.nodup_append] at hids
  exact hids.2.2 _ (h.mem_seen hmem) _ (List.mem_singleton_self _) rfl

theorem start_below {parent : ℕ} (hhas : directory.hasParent = true)
    (hparent : state.indexById.find? directory.parentId = some parent)
    (hdepth : state.depthBelow (some parent) ≤ maxLiveDepth) :
    Sound (seen ++ [directory]) state [(directory, some parent)] := by
  refine (h.append [directory]).start (h.fresh hids) (fun p hp ↦ ?_) fun hnone ↦ by cases hnone
  obtain rfl := Option.some.inj hp
  obtain ⟨above, habove, hid⟩ := (h.index _ _).mp hparent
  rw [depthBelow_of_getElem? habove] at hdepth
  exact ⟨List.mem_append_right _ List.mem_cons_self, hhas, above, habove, hid, hdepth⟩

theorem start_root (hroot : Rooted seen state) (hhas : directory.hasParent = false)
    (hempty : state.nodes = []) : Sound (seen ++ [directory]) state [(directory, none)] := by
  refine (h.append [directory]).start (h.fresh hids) (fun p hp ↦ by cases hp) fun _ ↦ ⟨hempty, .root ?_⟩
  rw [List.find?_append, hroot hempty]
  simp [hhas]

theorem applyDirectory (hroot : Rooted seen state) :
    Sound (seen ++ [directory]) (state.applyDirectory directory) [] ∧
      Rooted (seen ++ [directory]) (state.applyDirectory directory) := by
  have hmore := h.append [directory]
  have hkeeps : directory.hasParent = true → Rooted (seen ++ [directory]) state := by
    intro hhas hempty
    rw [List.find?_append, hroot hempty]
    simp [hhas]
  have hfilled : ∀ parent,
      Rooted (seen ++ [directory]) (state.insertWithOrphans [(directory, parent)]) := by
    intro parent hempty
    have hlength := length_insertWithOrphans state [(directory, parent)]
    simp [hempty] at hlength
  have happlied := applied state directory
  generalize state.applyDirectory directory = next at happlied ⊢
  cases happlied with
  | known hknown =>
      obtain ⟨i, hi⟩ := Option.isSome_iff_exists.mp hknown
      obtain ⟨node, hnode, hid⟩ := (h.index _ _).mp hi
      refine absurd (List.mem_append_left _ ?_) (h.fresh hids)
      exact hid ▸ List.mem_map_of_mem (List.mem_of_getElem? hnode)
  | parked hhas hnone =>
      have hseen : directory ∈ seen ++ [directory] := List.mem_append_right _ List.mem_cons_self
      exact ⟨hmore.park (h.fresh hids) hseen hhas hnone, hkeeps hhas⟩
  | refused hhas => exact ⟨hmore, hkeeps hhas⟩
  | below hhas hparent hdepth =>
      exact ⟨(h.start_below hids hhas hparent hdepth).insertWithOrphans, hfilled _⟩
  | tooDeep hhas => exact ⟨hmore, hkeeps hhas⟩
  | root hhas hempty => exact ⟨(h.start_root hids hroot hhas hempty).insertWithOrphans, hfilled _⟩
  | otherRoot hhas hnodes => exact ⟨hmore, fun hnone ↦ absurd hnone hnodes⟩

end

end Sound

/-! ## Nothing is lost -/

/-- What is to be shown is shown, to be put in, or waits. -/
def Kept (all seen : List LiveDirectory) (state : LiveTree)
    (work : List (LiveDirectory × Option ℕ)) : Prop :=
  ∀ directory ∈ seen, ∀ depth, Placed all depth directory →
    (state.indexById.find? directory.id).isSome ∨ directory ∈ work.map Prod.fst ∨
      directory ∈ state.orphans.elements

/-- Who comes before its parent comes while few parents are known of. -/
def InTime (directories : List LiveDirectory) : Prop :=
  ∀ first directory later, directories = first ++ directory :: later → directory.hasParent = true →
    ∀ depth, Placed directories depth directory →
      (∃ above parent, Placed first above parent ∧ parent.id = directory.parentId) ∨
      (first.map LiveDirectory.parentId).dedup.length < maxLiveOrphans

theorem inTime_of_length_le {directories : List LiveDirectory} (h : directories.length ≤ maxLiveOrphans) :
    InTime directories := by
  intro first directory later hsplit _ _ _
  right
  calc (first.map LiveDirectory.parentId).dedup.length
      ≤ (first.map LiveDirectory.parentId).length := (List.dedup_sublist _).length_le
    _ < maxLiveOrphans := by
      rw [hsplit, List.length_append, List.length_cons] at h
      rw [List.length_map]
      omega

variable {all : List LiveDirectory}

/-- A node is as deep as its directory is to be. -/
theorem Sound.depth_eq (h : Sound seen state work) (hids : (all.map LiveDirectory.id).Nodup)
    (hbegins : seen <+: all) {i depth : ℕ} {node : TreeNodeUi} {directory : LiveDirectory}
    (hnode : state.nodes[i]? = some node) (hplaced : Placed all depth directory)
    (hid : node.id = directory.id) : node.depth = depth := by
  obtain ⟨more, rfl⟩ := hbegins
  obtain ⟨other, hother, hstands⟩ := h.nodes i node hnode
  have hall := hother.append more
  have hsame := List.inj_on_of_nodup_map hids hall.mem hplaced.mem (hstands.id.symm.trans hid)
  exact hall.unique hids (hsame ▸ hplaced)

/-- What is below a node is one level deeper. -/
theorem Sound.depthBelow_eq (h : Sound seen state work) (hids : (all.map LiveDirectory.id).Nodup)
    (hbegins : seen <+: all) {p depth : ℕ} {above : TreeNodeUi} {directory : LiveDirectory}
    (habove : state.nodes[p]? = some above) (hplaced : Placed all depth directory)
    (hhas : directory.hasParent = true) (hid : directory.parentId = above.id) :
    state.depthBelow (some p) = depth ∧ depth ≤ maxLiveDepth := by
  cases hplaced with
  | root hroot =>
      have hnot := List.find?_some hroot
      simp [hhas] at hnot
  | child hparent _ _ hsame hdepth =>
      have heq := h.depth_eq hids hbegins habove hparent (hid.symm.trans hsame)
      exact ⟨(depthBelow_of_getElem? habove).trans (congrArg Nat.succ heq), hdepth⟩

/-- Nothing waits when its parent is there, so what is to be shown is shown. -/
theorem Sound.isSome_of_placed (h : Sound seen state []) (hbegins : seen <+: all)
    (hkept : Kept all seen state []) {depth : ℕ} {directory : LiveDirectory}
    (hplaced : Placed seen depth directory) : (state.indexById.find? directory.id).isSome := by
  obtain ⟨more, rfl⟩ := hbegins
  have hshown : ∀ {depth : ℕ} {directory : LiveDirectory}, Placed seen depth directory →
      (directory.hasParent = true → (state.indexById.find? directory.parentId).isSome) →
      (state.indexById.find? directory.id).isSome := by
    intro depth directory hplaced hparent
    rcases hkept directory hplaced.mem depth (hplaced.append more) with hindex | hwork | horphan
    · exact hindex
    · exact absurd hwork List.not_mem_nil
    · obtain ⟨id, waiting, hwaiting, hmem⟩ := (IdMap.mem_elements_iff _ _).mp horphan
      obtain ⟨-, hnone, hall⟩ := h.orphans id waiting hwaiting
      obtain ⟨-, hhas, rfl⟩ := hall directory hmem
      simp [hnone] at hparent
      simp [hhas] at hparent
  induction hplaced with
  | root hroot =>
      refine hshown (.root hroot) fun hhas ↦ ?_
      have hnot := List.find?_some hroot
      simp [hhas] at hnot
  | child hparent hmem hhas hid hdepth ih =>
      exact hshown (.child hparent hmem hhas hid hdepth) fun _ ↦ hid ▸ ih

theorem Kept.insertNext {directory : LiveDirectory} {parent : Option ℕ}
    (hkept : Kept all seen state ((directory, parent) :: work))
    (h : Sound seen state ((directory, parent) :: work))
    (hids : (all.map LiveDirectory.id).Nodup) (hbegins : seen <+: all) :
    Kept all seen (state.insertNext directory parent) (state.released directory parent ++ work) := by
  obtain ⟨more, rfl⟩ := id hbegins
  have hset : ∀ id, (state.insertNext directory parent).indexById.find? id =
      if id = directory.id then some state.nodes.length else state.indexById.find? id := fun id ↦
    IdMap.find?_set state.indexById directory.id id state.nodes.length
  intro other hother depth hplaced
  rw [hset]
  by_cases hid : other.id = directory.id
  · simp [hid]
  rw [if_neg hid]
  rcases hkept other hother depth hplaced with hindex | hwork | horphan
  · exact Or.inl hindex
  · rcases List.mem_cons.mp hwork with rfl | hrest
    · exact absurd rfl hid
    · refine Or.inr (Or.inl ?_)
      rw [List.map_append]
      exact List.mem_append_right _ hrest
  · rcases List.mem_append.mp ((IdMap.elements_perm_erase state.orphans directory.id).mem_iff.mp horphan)
      with hbucket | hstays
    · -- it waited for this directory, which is not too deep for it
      cases hfind : state.orphans.find? directory.id with
      | none => simp [IdMap.bucket, hfind] at hbucket
      | some waiting =>
          have hin := hbucket
          rw [IdMap.bucket, hfind, Option.getD_some] at hin
          obtain ⟨-, hhas, hparent⟩ := (h.orphans directory.id waiting hfind).2.2 other hin
          obtain ⟨hhere, -, -⟩ := h.place_of_cons
          have hdepth : state.depthBelow parent + 1 ≤ maxLiveDepth := by
            cases hplaced with
            | root hroot =>
                have hnot := List.find?_some hroot
                simp [hhas] at hnot
            | child habove _ _ hsame hlt =>
                have hall := hhere.append more
                have heq := List.inj_on_of_nodup_map hids habove.mem hall.mem (hsame.symm.trans hparent)
                exact (habove.unique hids (heq ▸ hall)) ▸ hlt
          refine Or.inr (Or.inl ?_)
          rw [released, if_pos hdepth, List.map_append, List.map_reverse, List.map_map]
          exact List.mem_append_left _ (List.mem_reverse.mpr (by simpa using hbucket))
    · exact Or.inr (Or.inr hstays)

theorem Kept.insertWithOrphans (hkept : Kept all seen state work) (h : Sound seen state work)
    (hids : (all.map LiveDirectory.id).Nodup) (hbegins : seen <+: all) :
    Kept all seen (state.insertWithOrphans work) [] := by
  induction state, work using LiveTree.insertWithOrphans.induct with
  | case1 state => rwa [LiveTree.insertWithOrphans]
  | case2 state directory parent rest ih =>
      rw [LiveTree.insertWithOrphans]
      exact ih (hkept.insertNext h hids hbegins) h.insertNext

theorem Kept.concat (hkept : Kept all seen state work) {directory : LiveDirectory}
    (hlast : ∀ depth, Placed all depth directory →
      (state.indexById.find? directory.id).isSome ∨ directory ∈ work.map Prod.fst ∨
        directory ∈ state.orphans.elements) : Kept all (seen ++ [directory]) state work := by
  intro other hother
  rcases List.mem_append.mp hother with hold | hnew
  · exact hkept other hold
  · exact List.mem_singleton.mp hnew ▸ hlast

/-- As long as directories come in time, there is room for those that wait. -/
theorem Sound.not_refused (h : Sound seen state []) (hkept : Kept all seen state [])
    (htime : InTime all) {directory : LiveDirectory} {later : List LiveDirectory}
    (hall : all = seen ++ directory :: later) {depth : ℕ} (hplaced : Placed all depth directory)
    (hhas : directory.hasParent = true) (hnone : state.indexById.find? directory.parentId = none) :
    state.orphans.records.length < maxLiveOrphans := by
  rcases htime seen directory later hall hhas depth hplaced with ⟨above, parent, hparent, hid⟩ | hfew
  · have hsome := h.isSome_of_placed ⟨_, hall.symm⟩ hkept hparent
    simp [hid, hnone] at hsome
  · -- every key is the parent of one that waits
    have hsub : state.orphans.records.map Prod.fst ⊆ (seen.map LiveDirectory.parentId).dedup := by
      intro id hid
      obtain ⟨⟨id, waiting⟩, hmem, rfl⟩ := List.mem_map.mp hid
      obtain ⟨hne, -, hwaiting⟩ := h.orphans id waiting ((IdMap.find?_eq_some_iff _ _ _).mpr hmem)
      obtain ⟨first, hfirst⟩ := List.exists_mem_of_ne_nil waiting hne
      obtain ⟨hseen, -, hparent⟩ := hwaiting first hfirst
      exact List.mem_dedup.mpr (List.mem_map.mpr ⟨first, hseen, hparent⟩)
    have hle := (List.Nodup.subperm state.orphans.nodup_keys hsub).length_le
    rw [List.length_map] at hle
    exact hle.trans_lt hfew

theorem Kept.applyDirectory (hkept : Kept all seen state []) (h : Sound seen state [])
    (hroot : Rooted seen state) (hids : (all.map LiveDirectory.id).Nodup) (htime : InTime all)
    {directory : LiveDirectory} {later : List LiveDirectory} (hall : all = seen ++ directory :: later) :
    Kept all (seen ++ [directory]) (state.applyDirectory directory) [] := by
  have hbegins : seen ++ [directory] <+: all := by
    refine ⟨later, ?_⟩
    rw [hall, List.append_assoc, List.singleton_append]
  have hsome : seen <+: all := ⟨_, hall.symm⟩
  have hfirst : ((seen ++ [directory]).map LiveDirectory.id).Nodup :=
    hids.sublist (hbegins.sublist.map _)
  have happlied := applied state directory
  generalize state.applyDirectory directory = next at happlied ⊢
  cases happlied with
  | known hknown => exact hkept.concat fun _ _ ↦ Or.inl hknown
  | parked hhas hnone =>
      have hpush := IdMap.elements_push_perm state.orphans directory.parentId directory
      have hstays : Kept all seen
          { state with orphans := state.orphans.push directory.parentId directory } [] :=
        fun other hother depth hplaced ↦ (hkept other hother depth hplaced).imp id (Or.imp id fun horphan ↦
          hpush.mem_iff.mpr (List.mem_cons_of_mem _ horphan))
      exact hstays.concat fun _ _ ↦ Or.inr (Or.inr (hpush.mem_iff.mpr List.mem_cons_self))
  | refused hhas hnone hfull =>
      exact hkept.concat fun depth hplaced ↦
        absurd (h.not_refused hkept htime hall hplaced hhas hnone) (not_lt.mpr hfull)
  | below hhas hparent hdepth =>
      refine Kept.insertWithOrphans (Kept.concat ?_ fun _ _ ↦ Or.inr (Or.inl (by simp)))
        (h.start_below hfirst hhas hparent hdepth) hids hbegins
      exact fun other hother depth hplaced ↦ (hkept other hother depth hplaced).imp id (Or.imp (by simp) id)
  | tooDeep hhas hparent hdepth =>
      refine hkept.concat fun depth hplaced ↦ ?_
      obtain ⟨above, habove, hid⟩ := (h.index _ _).mp hparent
      obtain ⟨heq, hle⟩ := h.depthBelow_eq hids hsome habove hplaced hhas hid.symm
      exact absurd hdepth (not_lt.mpr (heq ▸ hle))
  | root hhas hempty =>
      refine Kept.insertWithOrphans (Kept.concat ?_ fun _ _ ↦ Or.inr (Or.inl (by simp)))
        (h.start_root hfirst hroot hhas hempty) hids hbegins
      exact fun other hother depth hplaced ↦ (hkept other hother depth hplaced).imp id (Or.imp (by simp) id)
  | otherRoot hhas hnodes =>
      refine hkept.concat fun depth hplaced ↦ ?_
      -- another directory without a parent came first
      obtain ⟨node, hnode⟩ := List.exists_mem_of_ne_nil _ hnodes
      obtain ⟨i, hi⟩ := List.mem_iff_getElem?.mp hnode
      obtain ⟨_, hother, -⟩ := h.nodes i node hi
      obtain ⟨root, hfind⟩ := hother.exists_root
      have hthis := hplaced.find?_of_not_hasParent hhas
      rw [hall, List.find?_append, hfind, Option.some_or] at hthis
      obtain rfl := Option.some.inj hthis
      refine absurd hfirst fun hnodup ↦ ?_
      rw [List.map_append, List.nodup_append] at hnodup
      exact hnodup.2.2 _ (List.mem_map_of_mem (List.mem_of_find?_eq_some hfind)) _
        (List.mem_singleton_self _) rfl

/-! ## Whole scans -/

/-- The list follows what it has taken in. -/
structure Follows (seen : List LiveDirectory) (state : LiveTree) : Prop where
  sound : Sound seen state []
  rooted : Rooted seen state
  kept : ∀ all, seen <+: all → (all.map LiveDirectory.id).Nodup → InTime all → Kept all seen state []

theorem Follows.foldl (directories : List LiveDirectory) (h : Follows seen state)
    (hids : ((seen ++ directories).map LiveDirectory.id).Nodup) :
    Follows (seen ++ directories) (directories.foldl applyDirectory state) := by
  induction directories generalizing seen state with
  | nil => rwa [List.append_nil]
  | cons directory rest ih =>
      rw [← List.singleton_append, ← List.append_assoc] at hids ⊢
      have hfirst : ((seen ++ [directory]).map LiveDirectory.id).Nodup :=
        hids.sublist ((List.sublist_append_left _ _).map _)
      obtain ⟨hsound, hrooted⟩ := h.sound.applyDirectory hfirst h.rooted
      refine ih ⟨hsound, hrooted, fun all hbegins hnodup htime ↦ ?_⟩ hids
      obtain ⟨later, hall⟩ := hbegins
      rw [List.append_assoc, List.singleton_append] at hall
      exact (h.kept all ⟨_, hall⟩ hnodup htime).applyDirectory h.sound h.rooted hnodup htime hall.symm

/-- Only the rows change, and whether folders are open. -/
theorem Follows.redraw (h : Follows seen state) {state' : LiveTree}
    (hindex : state'.indexById = state.indexById) (horphans : state'.orphans = state.orphans)
    (expands : ℕ → TreeNodeUi → Bool)
    (hget : ∀ i : ℕ, state'.nodes[i]? =
      (state.nodes[i]?).map fun node ↦ ({ node with expanded := expands i node } : TreeNodeUi)) :
    Follows seen state' := by
  have hold : ∀ (i : ℕ) (node' : TreeNodeUi), state'.nodes[i]? = some node' →
      ∃ node : TreeNodeUi, state.nodes[i]? = some node ∧
        node' = { node with expanded := node'.expanded } := by
    intro i node' hnode'
    rw [hget] at hnode'
    obtain ⟨node, hnode, rfl⟩ := Option.map_eq_some_iff.mp hnode'
    exact ⟨node, hnode, rfl⟩
  have hnew : ∀ (i : ℕ) (node : TreeNodeUi), state.nodes[i]? = some node →
      state'.nodes[i]? = some { node with expanded := expands i node } := by
    intro i node hnode
    rw [hget, hnode, Option.map_some]
  have hids : state'.nodes.map (·.id) = state.nodes.map (·.id) := by
    refine List.ext_getElem? fun i ↦ ?_
    rw [List.getElem?_map, List.getElem?_map, hget, Option.map_map]
    rfl
  refine ⟨⟨fun i node' hnode' ↦ ?_, fun i node' hnode' ↦ ?_, fun id i ↦ ?_, ?_,
    fun _ _ hmem ↦ absurd hmem List.not_mem_nil, fun _ hmem ↦ absurd hmem List.not_mem_nil, ?_⟩,
    fun hempty ↦ ?_, ?_⟩
  · obtain ⟨node, hnode, hsame⟩ := hold i node' hnode'
    obtain ⟨directory, hplaced, hid, hname, hplain, hbelow, hfirst⟩ := h.sound.nodes i node hnode
    rw [hsame]
    refine ⟨directory, hplaced, hid, hname, hplain, fun p hp ↦ ?_, hfirst⟩
    obtain ⟨hlt, above, habove, hrest⟩ := hbelow p hp
    exact ⟨hlt, _, hnew p above habove, hrest⟩
  · obtain ⟨node, hnode, hsame⟩ := hold i node' hnode'
    obtain ⟨hnodup, hlinks⟩ := h.sound.links i node hnode
    rw [hsame]
    refine ⟨hnodup, fun j hj ↦ ?_⟩
    obtain ⟨child, hchild, hparent⟩ := hlinks j hj
    exact ⟨_, hnew j child hchild, hparent⟩
  · rw [hindex, h.sound.index id i]
    constructor
    · rintro ⟨node, hnode, hid⟩
      exact ⟨_, hnew i node hnode, hid⟩
    · rintro ⟨node', hnode', hid⟩
      obtain ⟨node, hnode, hsame⟩ := hold i node' hnode'
      rw [hsame] at hid
      exact ⟨node, hnode, hid⟩
  · rw [hids, horphans]
    exact h.sound.apart
  · rw [horphans, hindex]
    exact h.sound.orphans
  · rw [hempty, List.map_nil] at hids
    exact h.rooted (List.map_eq_nil_iff.mp hids.symm)
  · intro all hbegins hnodup htime directory hmem depth hplaced
    rw [hindex, horphans]
    exact h.kept all hbegins hnodup htime directory hmem depth hplaced

theorem insertWithOrphans_queue (state : LiveTree) (work : List (LiveDirectory × Option ℕ)) :
    (state.insertWithOrphans work).backlog = state.backlog ∧
      (state.insertWithOrphans work).cursor = state.cursor ∧
      (state.insertWithOrphans work).visibleRows = state.visibleRows := by
  induction state, work using LiveTree.insertWithOrphans.induct with
  | case1 state =>
      rw [insertWithOrphans]
      exact ⟨rfl, rfl, rfl⟩
  | case2 state directory parent rest ih =>
      rw [insertWithOrphans]
      exact ih

/-- Taking directories in changes neither the queue nor the rows. -/
theorem foldl_applyDirectory_queue (directories : List LiveDirectory) (state : LiveTree) :
    (directories.foldl applyDirectory state).backlog = state.backlog ∧
      (directories.foldl applyDirectory state).cursor = state.cursor ∧
      (directories.foldl applyDirectory state).visibleRows = state.visibleRows := by
  induction directories generalizing state with
  | nil => exact ⟨rfl, rfl, rfl⟩
  | cons directory rest ih =>
      obtain ⟨hbacklog, hcursor, hrows⟩ := ih (state.applyDirectory directory)
      have hstep : (state.applyDirectory directory).backlog = state.backlog ∧
          (state.applyDirectory directory).cursor = state.cursor ∧
          (state.applyDirectory directory).visibleRows = state.visibleRows := by
        have happlied := applied state directory
        generalize state.applyDirectory directory = next at happlied ⊢
        cases happlied with
        | below | root => exact insertWithOrphans_queue state _
        | _ => exact ⟨rfl, rfl, rfl⟩
      exact ⟨hbacklog.trans hstep.1, hcursor.trans hstep.2.1, hrows.trans hstep.2.2⟩

theorem drop_enqueue (state : LiveTree) (directories : List LiveDirectory) :
    (state.enqueue directories).backlog.drop (state.enqueue directories).cursor =
      state.backlog.drop state.cursor ++ directories := by
  unfold enqueue
  split_ifs with hdone
  · rw [List.drop_eq_nil_of_le hdone, List.nil_append, List.drop_zero]
  · rw [List.drop_append_of_le_length (not_le.mp hdone).le]

/-- The backlog from the cursor on is the chunk and the rest. -/
theorem drop_eq_chunk (backlog : List LiveDirectory) (cursor count : ℕ) :
    backlog.drop cursor = (backlog.take (min (cursor + count) backlog.length)).drop cursor ++
      backlog.drop (min (cursor + count) backlog.length) := by
  rcases le_total backlog.length cursor with hdone | hleft
  · rw [min_eq_right (hdone.trans (Nat.le_add_right _ _)), List.take_length, List.drop_length,
      List.append_nil]
  · have hle : cursor ≤ min (cursor + count) backlog.length := le_min (Nat.le_add_right _ _) hleft
    conv_lhs => rw [← List.take_append_drop (min (cursor + count) backlog.length) backlog]
    rw [List.drop_append_of_le_length]
    rwa [List.length_take, min_eq_left (min_le_right _ _)]

/-- A flush takes in the next of what has arrived. -/
theorem Follows.applyLiveDirectories (h : Follows seen state) (directories : List LiveDirectory)
    (refresh : Bool)
    (hids : ((seen ++ (state.backlog.drop state.cursor ++ directories)).map LiveDirectory.id).Nodup) :
    let next := state.applyLiveDirectories directories refresh
    ∃ taken, Follows (seen ++ taken) next ∧
      state.backlog.drop state.cursor ++ directories = taken ++ next.backlog.drop next.cursor ∧
      (next.visibleRows = state.visibleRows ∨
        next.toFolderTree = FolderTree.rebuildTreeVisibleRows next.nodes) := by
  intro next
  obtain ⟨queued, hqueued⟩ : ∃ queued, queued = state.enqueue directories := ⟨_, rfl⟩
  obtain ⟨chunkEnd, hend⟩ : ∃ chunkEnd,
    chunkEnd = min (queued.cursor + maxLiveDirectoriesPerFlush) queued.backlog.length := ⟨_, rfl⟩
  obtain ⟨taken, htaken⟩ : ∃ taken, taken = (queued.backlog.take chunkEnd).drop queued.cursor := ⟨_, rfl⟩
  obtain ⟨applied, happlied⟩ : ∃ applied,
    applied = taken.foldl applyDirectory { queued with cursor := chunkEnd } := ⟨_, rfl⟩
  have hnext : next = if applied.nodes.length ≠ state.nodes.length ∧ refresh then
      { applied with toFolderTree := FolderTree.rebuildTreeVisibleRows applied.nodes } else applied := by
    rw [happlied, htaken, hend, hqueued]
    rfl
  have hsplit : state.backlog.drop state.cursor ++ directories = taken ++ queued.backlog.drop chunkEnd := by
    rw [← drop_enqueue, ← hqueued, htaken, hend]
    exact drop_eq_chunk _ _ _
  have hstart : Follows seen { queued with cursor := chunkEnd } := by
    have hsame : queued.nodes = state.nodes ∧ queued.indexById = state.indexById ∧
        queued.orphans = state.orphans := by
      rw [hqueued, enqueue]
      split_ifs <;> exact ⟨rfl, rfl, rfl⟩
    refine h.redraw hsame.2.1 hsame.2.2 (fun _ node ↦ node.expanded) fun i ↦ ?_
    rw [← hsame.1]
    exact Option.map_id_apply.symm
  have htook : Follows (seen ++ taken) applied := by
    rw [happlied]
    refine hstart.foldl taken (hids.sublist (List.Sublist.map _ (List.Sublist.append_left ?_ _)))
    rw [hsplit]
    exact List.sublist_append_left _ _
  obtain ⟨hbacklog, hcursor, hrows⟩ := foldl_applyDirectory_queue taken { queued with cursor := chunkEnd }
  rw [← happlied] at hbacklog hcursor hrows
  have hqueuedRows : queued.visibleRows = state.visibleRows := by
    rw [hqueued, enqueue]
    split_ifs <;> rfl
  rw [hnext]
  refine ⟨taken, ?_⟩
  split_ifs
  · refine ⟨htook.redraw rfl rfl (fun _ node ↦ node.expanded) fun i ↦ Option.map_id_apply.symm, ?_,
      Or.inr rfl⟩
    rw [hsplit, hbacklog, hcursor]
  · refine ⟨htook, ?_, Or.inl (hrows.trans hqueuedRows)⟩
    rw [hsplit, hbacklog, hcursor]

section

variable (tree : TreeIndex) (sorts : Unstable ℕ) (orders : ChildOrders)

/-- Everything in the list is loaded, so opening a folder asks nothing of the index. -/
theorem Follows.toggle (h : Follows seen state) (index : ℕ) :
    act tree sorts (state, orders) (.toggle index) = (state, orders) ∨
    ∃ nodes, act tree sorts (state, orders) (.toggle index) =
        ({ state with toFolderTree := FolderTree.rebuildTreeVisibleRows nodes }, orders) ∧
      Follows seen { state with toFolderTree := FolderTree.rebuildTreeVisibleRows nodes } := by
  unfold act FolderTree.toggleTreeNodeExpansion
  cases hnode : state.nodes[index]? with
  | none => exact Or.inl (by simp only [hnode])
  | some node =>
      right
      obtain ⟨directory, -, hstands⟩ := h.sound.nodes index node hnode
      obtain ⟨hdirectory, hplain, hloaded⟩ := hstands.plain
      have hasked : FolderTree.ensureTreeChildrenLoaded tree sorts state.nodes orders index =
          (state.nodes, orders) := by
        simp [FolderTree.ensureTreeChildrenLoaded, hnode, hloaded]
      refine ⟨state.nodes.modify index fun node ↦ { node with expanded := !node.expanded }, ?_, ?_⟩
      · simp only [hnode, hdirectory, hplain, hasked, ite_self]
        rfl
      · refine h.redraw rfl rfl (fun i node ↦ if index = i then !node.expanded else node.expanded)
          fun i ↦ ?_
        refine (List.getElem?_modify _ _ _ _).trans (congrArg (Option.map · _) (funext fun node ↦ ?_))
        split_ifs <;> rfl

theorem Follows.loadMore (h : Follows seen state) (index : ℕ) :
    act tree sorts (state, orders) (.loadMore index) = (state, orders) := by
  unfold act FolderTree.loadMoreTreeChildren
  cases hnode : state.nodes[index]? with
  | none => simp only [hnode]
  | some node =>
      obtain ⟨directory, -, hstands⟩ := h.sound.nodes index node hnode
      simp [hnode, hstands.plain.2.1]

theorem arrived_append (actions : List Action) (action : Action) :
    arrived (actions ++ [action]) = arrived actions ++ arrived [action] :=
  List.flatMap_append

theorem follows_run (actions : List Action) (hids : ((arrived actions).map LiveDirectory.id).Nodup) :
    let shown := (run tree sorts orders actions).1
    ∃ seen, arrived actions = seen ++ shown.backlog.drop shown.cursor ∧ Follows seen shown ∧
      ∃ earlier, earlier <+: actions ∧ shown.visibleRows =
        (FolderTree.rebuildTreeVisibleRows (run tree sorts orders earlier).1.nodes).visibleRows := by
  induction actions using List.reverseRecOn with
  | nil =>
      refine ⟨[], rfl, ⟨?_, fun _ ↦ rfl, fun _ _ _ _ directory hmem ↦ absurd hmem List.not_mem_nil⟩, [],
        List.prefix_rfl, rfl⟩
      constructor <;> simp [run, IdMap.elements]
  | append_singleton actions action ih =>
      rw [arrived_append] at hids ⊢
      obtain ⟨seen, harrived, hfollows, earlier, hearlier, hrows⟩ :=
        ih (hids.sublist ((List.sublist_append_left _ _).map _))
      obtain ⟨before, hbefore⟩ : ∃ before, before = run tree sorts orders actions := ⟨_, rfl⟩
      have hrun : run tree sorts orders (actions ++ [action]) = act tree sorts before action := by
        rw [hbefore]
        exact List.foldl_concat _ _ _ _
      have hmore : earlier <+: actions ++ [action] := hearlier.trans (List.prefix_append _ _)
      rw [← hbefore] at harrived hfollows hrows
      rw [hrun]
      cases action with
      | arrive directories refresh =>
          have hsame : arrived [.arrive directories refresh] = directories := List.append_nil _
          rw [hsame, harrived, List.append_assoc] at hids ⊢
          obtain ⟨taken, hnext, hsplit, hdrawn⟩ := hfollows.applyLiveDirectories directories refresh hids
          refine ⟨seen ++ taken, ?_, hnext, ?_⟩
          · rw [hsplit, List.append_assoc]
            rfl
          · rcases hdrawn with hstays | hdraws
            · exact ⟨earlier, hmore, hstays.trans hrows⟩
            · refine ⟨actions ++ [.arrive directories refresh], List.prefix_rfl, ?_⟩
              rw [hrun]
              exact congrArg FolderTree.visibleRows hdraws
      | toggle index =>
          have hsame : arrived [.toggle index] = [] := rfl
          rw [hsame, List.append_nil]
          rcases hfollows.toggle tree sorts before.2 index with hstays | ⟨nodes, hdraws, hnext⟩
          · rw [hstays]
            exact ⟨seen, harrived, hfollows, earlier, hmore, hrows⟩
          · refine ⟨seen, ?_, ?_, actions ++ [.toggle index], List.prefix_rfl, ?_⟩
            · rw [hdraws]
              exact harrived
            · rw [hdraws]
              exact hnext
            · rw [hrun, hdraws]
              rfl
      | loadMore index =>
          have hsame : arrived [.loadMore index] = [] := rfl
          rw [hsame, List.append_nil, hfollows.loadMore tree sorts before.2 index]
          exact ⟨seen, harrived, hfollows, earlier, hmore, hrows⟩

end

end LiveTree

end WinBlaze
