import WinBlaze.Index.ChildPages
import WinBlaze.Lib.Outlines

/-!
# The folder tree

The list of folders loads what a folder holds when it is opened first, one page at a time, with
a row for the rest behind it. Whatever is opened, closed and loaded, an open folder shows the
first of its children in the one order that the index has for them.
-/

namespace WinBlaze

open Selection TreeSweep

/-! ## What the index gives -/

structure WbTreeNode where
  id : UInt64 := 0
  isDirectory : Bool := false
  name : String := ""
  logicalBytes : UInt64 := 0
  physicalBytes : UInt64 := 0
  fileCount : UInt64 := 0
  itemCount : UInt64 := 0
  modifiedUtc : Int64 := 0
  hasModifiedUtc : Bool := false
  deriving DecidableEq, Repr

/-- A directory, under this name. -/
def WbTreeNode.ofDirectory (record : DirectoryRecord) (rollup : DirRollup) (name : String) :
    WbTreeNode where
  id := record.id.val
  isDirectory := true
  name := name
  logicalBytes := rollup.logicalBytes
  physicalBytes := rollup.physicalBytes
  fileCount := rollup.fileCount
  itemCount := rollup.itemCount
  modifiedUtc := rollup.modifiedUtcMax.getD 0
  hasModifiedUtc := rollup.modifiedUtcMax.isSome

def TreeEntry.toNode : TreeEntry → WbTreeNode
  | directory record rollup => .ofDirectory record rollup record.name
  | file record =>
      { id := record.id.val
        name := record.name
        logicalBytes := record.sizeBytes
        physicalBytes := record.allocationBytes
        modifiedUtc := record.timestamps.modified.getD 0
        hasModifiedUtc := record.timestamps.modified.isSome }

namespace TreeIndex

variable (tree : TreeIndex)

def wbTreeRoot : Option WbTreeNode :=
  tree.root.map fun root ↦
    let record := tree.directories.getD root default
    .ofDirectory record (tree.nodeAt root).rollup record.fullPath

def treeChildrenLimit : ℕ := 4096

/-- The children from an offset on, and how many there are, with the orders it leaves. -/
def wbTreeChildren (sorts : Unstable ℕ) (orders : ChildOrders) (parentId : UInt64) (offset : ℕ) :
    (List WbTreeNode × ℕ) × ChildOrders :=
  let answer := tree.forEachChild orders ⟨sorts, parentId, offset, treeChildrenLimit⟩
  (((answer.1.getD ([], 0)).1.map TreeEntry.toNode, ((tree.childCount parentId).getD 0).toNat), answer.2)

end TreeIndex

/-! ## The rows -/

/-- A node, its place among the others, and what is shown of it. -/
structure TreeNodeUi extends WbTreeNode where
  isMoreRow : Bool := false
  depth : ℕ := 0
  expanded : Bool := false
  childrenLoaded : Bool := false
  parent : Option ℕ := none
  children : List ℕ := []
  deriving DecidableEq, Repr

def moreRowName (missing : ℕ) : String := "+ " ++ toString missing ++ " more items (largest are shown)"

def remainingBytes (parent : UInt64) (children : List UInt64) : UInt64 :=
  children.foldl (fun parent bytes ↦ parent - min parent bytes) parent

structure FolderTree where
  nodes : List TreeNodeUi := []
  visibleRows : List ℕ := []
  deriving DecidableEq, Repr

namespace FolderTree

def childNode (node : WbTreeNode) (depth parent : ℕ) : TreeNodeUi :=
  { toWbTreeNode := node, depth := depth, parent := some parent }

/-- The row for what is missing of a folder with these children. -/
def moreRow (folder : TreeNodeUi) (parent missing : ℕ) (shown : List WbTreeNode) : TreeNodeUi where
  isDirectory := true
  name := moreRowName missing
  physicalBytes := remainingBytes folder.physicalBytes (shown.map WbTreeNode.physicalBytes)
  logicalBytes := remainingBytes folder.logicalBytes (shown.map WbTreeNode.logicalBytes)
  isMoreRow := true
  depth := folder.depth + 1
  parent := some parent

/-- The nodes whose rows follow that of a node. -/
def openChildren (nodes : List TreeNodeUi) (index : ℕ) : List ℕ :=
  match nodes[index]? with
  | some node => if node.isDirectory && node.expanded then node.children else []
  | none => []

def rebuildTreeVisibleRows (nodes : List TreeNodeUi) : FolderTree where
  nodes := nodes
  visibleRows := if nodes = [] then [] else Outlines.walk (openChildren nodes) nodes.length [0]

section

variable (tree : TreeIndex) (sorts : Unstable ℕ)

/-- The first children of a folder, and the row for the rest. -/
def loadChildren (nodes : List TreeNodeUi) (index : ℕ) (folder : TreeNodeUi) (fetched : List WbTreeNode)
    (total : ℕ) : List TreeNodeUi :=
  let more := if fetched.length < total then
    [moreRow folder index (total - fetched.length) fetched] else []
  let added := fetched.map (childNode · (folder.depth + 1) index) ++ more
  (nodes ++ added).set index
    { folder with children := List.range' nodes.length added.length, childrenLoaded := true }

def ensureTreeChildrenLoaded (nodes : List TreeNodeUi) (orders : ChildOrders) (index : ℕ) :
    List TreeNodeUi × ChildOrders :=
  match nodes[index]? with
  | none => (nodes, orders)
  | some node =>
      if node.childrenLoaded || !node.isDirectory || node.isMoreRow then (nodes, orders)
      else
        let reply := tree.wbTreeChildren sorts orders node.id 0
        (loadChildren nodes index node reply.1.1 reply.1.2, reply.2)

def loadTreeSnapshot (orders : ChildOrders) : FolderTree × ChildOrders :=
  match tree.wbTreeRoot with
  | none => ({}, orders)
  | some root =>
      let loaded := ensureTreeChildrenLoaded tree sorts [{ toWbTreeNode := root }] orders 0
      (rebuildTreeVisibleRows (loaded.1.modify 0 fun node ↦ { node with expanded := true }), loaded.2)

def toggleTreeNodeExpansion (state : FolderTree × ChildOrders) (index : ℕ) : FolderTree × ChildOrders :=
  match state.1.nodes[index]? with
  | none => state
  | some node =>
      if !node.isDirectory || node.isMoreRow then state
      else
        let loaded := if node.expanded then (state.1.nodes, state.2)
          else ensureTreeChildrenLoaded tree sorts state.1.nodes state.2 index
        (rebuildTreeVisibleRows
          (loaded.1.modify index fun node ↦ { node with expanded := !node.expanded }), loaded.2)

/-- The children that were fetched go before the row for the rest. -/
def spliceChildren (nodes : List TreeNodeUi) (index parent : ℕ) (more folder : TreeNodeUi)
    (fetched : List WbTreeNode) (total : ℕ) : List TreeNodeUi :=
  let added := nodes ++ fetched.map (childNode · (folder.depth + 1) parent)
  let siblings := folder.children.dropLast ++ List.range' nodes.length fetched.length
  let nowLoaded := folder.children.length - 1 + fetched.length
  if nowLoaded < total then
    (added.set index { more with name := moreRowName (total - nowLoaded) }).set parent
      { folder with children := siblings ++ [index] }
  else added.set parent { folder with children := siblings }

def loadMoreTreeChildren (state : FolderTree × ChildOrders) (index : ℕ) : FolderTree × ChildOrders :=
  match state.1.nodes[index]? with
  | none => state
  | some more =>
      match if more.isMoreRow then more.parent else none with
      | none => state
      | some parent =>
          match state.1.nodes[parent]? with
          | none => state
          | some folder =>
              let reply := tree.wbTreeChildren sorts state.2 folder.id (folder.children.length - 1)
              if reply.1.1 = [] then (state.1, reply.2)
              else
                (rebuildTreeVisibleRows
                  (spliceChildren state.1.nodes index parent more folder reply.1.1 reply.1.2), reply.2)

/-- What happens to the list, and to the orders that it shares with others. -/
inductive Action
  | load
  | toggle (index : ℕ)
  | loadMore (index : ℕ)
  | other (request : ChildRequest)

def act (state : FolderTree × ChildOrders) : Action → FolderTree × ChildOrders
  | .load => loadTreeSnapshot tree sorts state.2
  | .toggle index => toggleTreeNodeExpansion tree sorts state index
  | .loadMore index => loadMoreTreeChildren tree sorts state index
  | .other request => (state.1, (tree.forEachChild state.2 request).2)

def run (actions : List Action) : FolderTree × ChildOrders :=
  actions.foldl (act tree sorts) ({}, tree.noOrders)

end

/-! ## What a folder shows -/

variable {root : Option WbTreeNode} {listing : UInt64 → List WbTreeNode} {nodes : List TreeNodeUi}

/-- The rows of a folder are its first children, and one for the rest if there is any. -/
def Shows (listing : UInt64 → List WbTreeNode) (nodes : List TreeNodeUi) (folder : TreeNodeUi) : Prop :=
  ∃ shown rest, folder.children = shown ++ rest ∧
    shown.map (fun j ↦ nodes[j]?.map TreeNodeUi.toWbTreeNode) =
      ((listing folder.id).take shown.length).map some ∧
    (∀ j ∈ shown, ∀ child : TreeNodeUi, nodes[j]? = some child → child.isMoreRow = false) ∧
    (rest = [] ∧ shown.length = (listing folder.id).length ∨
      ∃ (m : ℕ) (more : TreeNodeUi), rest = [m] ∧ nodes[m]? = some more ∧ more.isMoreRow = true ∧
        shown.length < (listing folder.id).length ∧
        more.name = moreRowName ((listing folder.id).length - shown.length))

/-- The nodes are a tree, and folders show what they have loaded. -/
structure Sound (root : Option WbTreeNode) (listing : UInt64 → List WbTreeNode)
    (nodes : List TreeNodeUi) : Prop where
  first : ∀ node : TreeNodeUi, nodes[0]? = some node → root = some node.toWbTreeNode
  parents : ∀ (j : ℕ) (child : TreeNodeUi) (p : ℕ), nodes[j]? = some child → child.parent = some p →
    p < j ∧ ∃ folder : TreeNodeUi, nodes[p]? = some folder ∧ folder.childrenLoaded = true ∧
      child.depth = folder.depth + 1
  links : ∀ (i : ℕ) (node : TreeNodeUi), nodes[i]? = some node → ∀ j ∈ node.children,
    ∃ child : TreeNodeUi, nodes[j]? = some child ∧ child.parent = some i
  nodup : ∀ (i : ℕ) (node : TreeNodeUi), nodes[i]? = some node → node.children.Nodup
  loaded : ∀ (i : ℕ) (node : TreeNodeUi), nodes[i]? = some node → node.childrenLoaded = true →
    node.isDirectory = true ∧ node.isMoreRow = false ∧ Shows listing nodes node
  unloaded : ∀ (i : ℕ) (node : TreeNodeUi), nodes[i]? = some node → node.childrenLoaded = false →
    node.children = [] ∧ node.expanded = false

/-- A node that is as it was but for its name. -/
def Renamed (node node' : TreeNodeUi) : Prop := ∃ name, node' = { node with name := name }

theorem Renamed.refl (node : TreeNodeUi) : Renamed node node := ⟨node.name, rfl⟩

/-- A folder that changes, with nodes that are added below it or get another name there. -/
structure Grows (nodes nodes' : List TreeNodeUi) (p : ℕ) (folder folder' : TreeNodeUi) : Prop where
  before : nodes[p]? = some folder
  after : nodes'[p]? = some folder'
  same : folder' = { folder with
    expanded := folder'.expanded, childrenLoaded := folder'.childrenLoaded, children := folder'.children }
  stays : folder.childrenLoaded = true → folder'.childrenLoaded = true
  old : ∀ (i : ℕ) (node : TreeNodeUi), i ≠ p → nodes[i]? = some node →
    ∃ node' : TreeNodeUi, nodes'[i]? = some node' ∧ Renamed node node' ∧
      (node.parent ≠ some p → node' = node)
  new : ∀ (i : ℕ) (node' : TreeNodeUi), i ≠ p → nodes'[i]? = some node' →
    (∃ node : TreeNodeUi, nodes[i]? = some node ∧ Renamed node node') ∨
    p < i ∧ node'.parent = some p ∧ node'.depth = folder.depth + 1 ∧ folder'.childrenLoaded = true ∧
      node'.childrenLoaded = false ∧ node'.children = [] ∧ node'.expanded = false

theorem Shows.congr {nodes' : List TreeNodeUi} {folder : TreeNodeUi} (h : Shows listing nodes folder)
    (hsame : ∀ j ∈ folder.children, ∀ child : TreeNodeUi, nodes[j]? = some child →
      ∃ child' : TreeNodeUi, nodes'[j]? = some child' ∧
      child'.toWbTreeNode = child.toWbTreeNode ∧ child'.isMoreRow = child.isMoreRow) :
    Shows listing nodes' folder := by
  obtain ⟨shown, rest, hchildren, hmap, hplain, hrest⟩ := h
  have hshown : ∀ j ∈ shown, ∃ child child' : TreeNodeUi, nodes[j]? = some child ∧
      nodes'[j]? = some child' ∧ child'.toWbTreeNode = child.toWbTreeNode ∧
        child'.isMoreRow = child.isMoreRow := by
    intro j hj
    have hsome : nodes[j]?.map TreeNodeUi.toWbTreeNode ∈
        ((listing folder.id).take shown.length).map some :=
      hmap ▸ List.mem_map_of_mem hj
    obtain ⟨node, -, hnode⟩ := List.mem_map.mp hsome
    obtain ⟨child, hchild, -⟩ := Option.map_eq_some_iff.mp hnode.symm
    obtain ⟨child', hchild', hdata, hmore⟩ := hsame j (by simp [hchildren, hj]) child hchild
    exact ⟨child, child', hchild, hchild', hdata, hmore⟩
  refine ⟨shown, rest, hchildren, ?_, fun j hj child' hchild' ↦ ?_, hrest.imp id ?_⟩
  · rw [← hmap]
    refine List.map_congr_left fun j hj ↦ ?_
    obtain ⟨child, child', hchild, hchild', hdata, -⟩ := hshown j hj
    rw [hchild, hchild', Option.map_some, Option.map_some, hdata]
  · obtain ⟨child, child'', hchild, hchild'', -, hmore⟩ := hshown j hj
    obtain rfl := Option.some.inj (hchild'.symm.trans hchild'')
    exact hmore.trans (hplain j hj child hchild)
  · rintro ⟨m, more, rfl, hm, hmore, hlt, hname⟩
    obtain ⟨more', hm', hdata, hmore'⟩ := hsame m (by simp [hchildren]) more hm
    exact ⟨m, more', rfl, hm', hmore'.trans hmore, hlt, (congrArg WbTreeNode.name hdata).trans hname⟩

namespace Grows

variable {nodes' : List TreeNodeUi} {p : ℕ} {folder folder' : TreeNodeUi}
  (h : Grows nodes nodes' p folder folder')

include h

theorem folder_eq : folder'.toWbTreeNode = folder.toWbTreeNode ∧ folder'.isMoreRow = folder.isMoreRow ∧
    folder'.depth = folder.depth ∧ folder'.parent = folder.parent := by
  rw [h.same]
  exact ⟨rfl, rfl, rfl, rfl⟩

/-- Every node is still there. -/
theorem exists_after {i : ℕ} {node : TreeNodeUi} (hnode : nodes[i]? = some node) :
    ∃ node' : TreeNodeUi, nodes'[i]? = some node' ∧ node'.isMoreRow = node.isMoreRow ∧
      node'.depth = node.depth ∧ node'.parent = node.parent ∧
      (node.childrenLoaded = true → node'.childrenLoaded = true) ∧
      (node.parent ≠ some p → node'.toWbTreeNode = node.toWbTreeNode) := by
  by_cases hi : i = p
  · obtain rfl := hi
    obtain rfl := Option.some.inj (hnode.symm.trans h.before)
    obtain ⟨hdata, hmore, hdepth, hparent⟩ := h.folder_eq
    exact ⟨folder', h.after, hmore, hdepth, hparent, h.stays, fun _ ↦ hdata⟩
  · obtain ⟨node', hnode', ⟨name, hname⟩, hsame⟩ := h.old i node hi hnode
    refine ⟨node', hnode', ?_, ?_, ?_, ?_, fun hparent ↦ congrArg _ (hsame hparent)⟩
    all_goals rw [hname]
    exact id

end Grows

theorem Sound.grow (h : Sound root listing nodes) {nodes' : List TreeNodeUi} {p : ℕ}
    {folder folder' : TreeNodeUi}
    (hgrows : Grows nodes nodes' p folder folder')
    (hlinks : ∀ j ∈ folder'.children,
      ∃ child : TreeNodeUi, nodes'[j]? = some child ∧ child.parent = some p)
    (hnodup : folder'.children.Nodup)
    (hloaded : folder'.childrenLoaded = true →
      folder'.isDirectory = true ∧ folder'.isMoreRow = false ∧ Shows listing nodes' folder')
    (hunloaded : folder'.childrenLoaded = false → folder'.children = [] ∧ folder'.expanded = false) :
    Sound root listing nodes' := by
  have hparents : ∀ (j q : ℕ) (child : TreeNodeUi), nodes[j]? = some child → child.parent = some q →
      q < j ∧ ∃ above : TreeNodeUi, nodes'[q]? = some above ∧ above.childrenLoaded = true ∧
        child.depth = above.depth + 1 := by
    intro j q child hchild hparent
    obtain ⟨hlt, above, habove, hstays, hdepth⟩ := h.parents j child q hchild hparent
    obtain ⟨above', habove', -, hdepth', -, hstays', -⟩ := hgrows.exists_after habove
    exact ⟨hlt, above', habove', hstays' hstays, by rw [hdepth, hdepth']⟩
  -- a node is the folder, or an old one, or a new one below the folder
  have hcases : ∀ (i : ℕ) (node' : TreeNodeUi), nodes'[i]? = some node' → (i = p ∧ node' = folder') ∨
      (∃ node : TreeNodeUi, i ≠ p ∧ nodes[i]? = some node ∧ Renamed node node') ∨
      p < i ∧ node'.parent = some p ∧ node'.depth = folder.depth + 1 ∧ folder'.childrenLoaded = true ∧
        node'.childrenLoaded = false ∧ node'.children = [] ∧ node'.expanded = false := by
    intro i node' hnode'
    by_cases hi : i = p
    · exact Or.inl ⟨hi, Option.some.inj (hnode'.symm.trans (hi ▸ hgrows.after))⟩
    · refine Or.inr ((hgrows.new i node' hi hnode').imp ?_ id)
      rintro ⟨node, hnode, hrenamed⟩
      exact ⟨node, hi, hnode, hrenamed⟩
  refine ⟨fun node' hnode' ↦ ?_, fun j child q hchild hparent ↦ ?_, fun i node' hnode' j hj ↦ ?_,
    fun i node' hnode' ↦ ?_, fun i node' hnode' ↦ ?_, fun i node' hnode' ↦ ?_⟩
  · rcases hcases 0 node' hnode' with ⟨rfl, rfl⟩ | ⟨node, hp, hnode, -⟩ | ⟨hlt, -⟩
    · rw [hgrows.folder_eq.1]
      exact h.first folder hgrows.before
    · obtain ⟨node'', hnode'', -, -, -, -, hdata⟩ := hgrows.exists_after hnode
      obtain rfl := Option.some.inj (hnode'.symm.trans hnode'')
      rw [hdata fun hparent ↦ absurd (h.parents 0 node p hnode hparent).1 (Nat.not_lt_zero p)]
      exact h.first node hnode
    · exact absurd hlt (Nat.not_lt_zero p)
  · rcases hcases j child hchild with ⟨rfl, rfl⟩ | ⟨node, -, hnode, name, rfl⟩ |
      ⟨hlt, hp, hdepth, hstays, -⟩
    · obtain ⟨-, -, hdepth, hparent'⟩ := hgrows.folder_eq
      rw [hdepth]
      exact hparents _ q folder hgrows.before (hparent'.symm.trans hparent)
    · exact hparents j q node hnode hparent
    · obtain rfl := Option.some.inj (hp.symm.trans hparent)
      exact ⟨hlt, folder', hgrows.after, hstays, by rw [hdepth, hgrows.folder_eq.2.2.1]⟩
  · rcases hcases i node' hnode' with ⟨rfl, rfl⟩ | ⟨node, -, hnode, name, rfl⟩ | ⟨-, -, -, -, -, hnil, -⟩
    · exact hlinks j hj
    · obtain ⟨child, hchild, hparent⟩ := h.links i node hnode j hj
      obtain ⟨child', hchild', -, -, hparent', -⟩ := hgrows.exists_after hchild
      exact ⟨child', hchild', hparent'.trans hparent⟩
    · simp [hnil] at hj
  · rcases hcases i node' hnode' with ⟨rfl, rfl⟩ | ⟨node, -, hnode, name, rfl⟩ | ⟨-, -, -, -, -, hnil, -⟩
    · exact hnodup
    · exact h.nodup i node hnode
    · simp [hnil]
  · rcases hcases i node' hnode' with ⟨rfl, rfl⟩ | ⟨node, hi, hnode, name, rfl⟩ | ⟨-, -, -, -, hnot, -⟩
    · exact hloaded
    · intro hl
      obtain ⟨hdirectory, hmore, hshows⟩ := h.loaded i node hnode hl
      have hrenamed : Shows listing nodes { node with name := name } := hshows
      refine ⟨hdirectory, hmore, hrenamed.congr fun j hj child hchild ↦ ?_⟩
      obtain ⟨child', hchild', hmore', -, -, -, hdata⟩ := hgrows.exists_after hchild
      refine ⟨child', hchild', hdata ?_, hmore'⟩
      obtain ⟨child'', hchild'', hparent⟩ := h.links i node hnode j hj
      rw [Option.some.inj (hchild.symm.trans hchild''), hparent]
      simpa using hi
    · simp [hnot]
  · rcases hcases i node' hnode' with ⟨rfl, rfl⟩ | ⟨node, -, hnode, name, rfl⟩ |
      ⟨-, -, -, -, -, hnil, hclosed⟩
    · exact hunloaded
    · exact h.unloaded i node hnode
    · exact fun _ ↦ ⟨hnil, hclosed⟩

/-- Nodes are added below a folder, and old ones there may get another name. -/
theorem grows_append {base added : List TreeNodeUi} {p : ℕ} {folder folder' : TreeNodeUi}
    (hfolder : nodes[p]? = some folder) (hlength : base.length = nodes.length)
    (hbase : ∀ (j : ℕ) (node : TreeNodeUi), nodes[j]? = some node →
      ∃ node' : TreeNodeUi, base[j]? = some node' ∧ Renamed node node' ∧
        (node.parent ≠ some p → node' = node))
    (hadded : ∀ node ∈ added, node.parent = some p ∧ node.depth = folder.depth + 1 ∧
      node.childrenLoaded = false ∧ node.children = [] ∧ node.expanded = false)
    (hsame : folder' = { folder with
      expanded := folder'.expanded, childrenLoaded := folder'.childrenLoaded,
      children := folder'.children })
    (hloaded : folder'.childrenLoaded = true) :
    Grows nodes ((base ++ added).set p folder') p folder folder' := by
  obtain ⟨hp, -⟩ := List.getElem?_eq_some_iff.mp hfolder
  have hother : ∀ j, j ≠ p → ((base ++ added).set p folder')[j]? =
      if j < nodes.length then base[j]? else added[j - nodes.length]? := by
    intro j hj
    rw [List.getElem?_set_ne hj.symm, List.getElem?_append, hlength]
  refine ⟨hfolder, ?_, hsame, fun _ ↦ hloaded, fun j node hj hnode ↦ ?_, fun j node' hj hnode' ↦ ?_⟩
  · exact List.getElem?_set_self (by rw [List.length_append]; omega)
  · obtain ⟨hlt, -⟩ := List.getElem?_eq_some_iff.mp hnode
    rw [hother j hj, if_pos hlt]
    exact hbase j node hnode
  · rw [hother j hj] at hnode'
    split_ifs at hnode' with hlt
    · obtain ⟨node'', hnode'', hrenamed, -⟩ := hbase j nodes[j] (List.getElem?_eq_getElem hlt)
      obtain rfl := Option.some.inj (hnode'.symm.trans hnode'')
      exact Or.inl ⟨_, List.getElem?_eq_getElem hlt, hrenamed⟩
    · obtain ⟨hparent, hdepth, hnot, hnil, hclosed⟩ := hadded node' (List.mem_of_getElem? hnode')
      exact Or.inr ⟨by omega, hparent, hdepth, hloaded, hnot, hnil, hclosed⟩

/-- A folder that has loaded its children is opened or closed. -/
theorem Sound.expand (h : Sound root listing nodes) {i : ℕ} {folder : TreeNodeUi}
    (hfolder : nodes[i]? = some folder) (hloaded : folder.childrenLoaded = true)
    {change : TreeNodeUi → TreeNodeUi} {expanded : Bool}
    (hchange : change folder = { folder with expanded := expanded }) :
    Sound root listing (nodes.modify i change) := by
  have hother : ∀ j, j ≠ i → (nodes.modify i change)[j]? = nodes[j]? := by
    intro j hj
    simp [hj.symm]
  have hafter : (nodes.modify i change)[i]? = some { folder with expanded := expanded } := by
    simp [hfolder, hchange]
  have hgrows : Grows nodes (nodes.modify i change) i folder { folder with expanded := expanded } := by
    refine ⟨hfolder, hafter, rfl, id, fun j node hj hnode ↦ ?_, fun j node' hj hnode' ↦ ?_⟩
    · exact ⟨node, (hother j hj).trans hnode, .refl node, fun _ ↦ rfl⟩
    · exact Or.inl ⟨node', (hother j hj).symm.trans hnode', .refl node'⟩
  obtain ⟨hdirectory, hmore, hshows⟩ := h.loaded i folder hfolder hloaded
  refine h.grow hgrows (fun j hj ↦ ?_) (h.nodup i folder hfolder) (fun _ ↦ ⟨hdirectory, hmore, ?_⟩)
    fun hnot ↦ by simp [hloaded] at hnot
  · obtain ⟨child, hchild, hparent⟩ := h.links i folder hfolder j hj
    obtain ⟨child', hchild', -, -, hparent', -⟩ := hgrows.exists_after hchild
    exact ⟨child', hchild', hparent'.trans hparent⟩
  · have hopened : Shows listing nodes { folder with expanded := expanded } := hshows
    refine hopened.congr fun j hj child hchild ↦ ?_
    have hne : j ≠ i := by
      obtain ⟨child', hchild', hparent⟩ := h.links i folder hfolder j hj
      exact (h.parents j child' i hchild' hparent).1.ne'
    exact ⟨child, (hother j hne).trans hchild, rfl, rfl⟩

/-- Behind the rows that are kept, a folder shows the next of its children. -/
theorem shows_append {folder : TreeNodeUi} (kept rest : List ℕ) (fetched : List WbTreeNode)
    (first limit : ℕ)
    (hchildren : folder.children = kept ++ List.range' first fetched.length ++ rest)
    (hkept : kept.map (fun j ↦ nodes[j]?.map TreeNodeUi.toWbTreeNode) =
      ((listing folder.id).take kept.length).map some)
    (hplain : ∀ j ∈ kept, ∀ child : TreeNodeUi, nodes[j]? = some child → child.isMoreRow = false)
    (hfetched : fetched = ((listing folder.id).drop kept.length).take limit)
    (hnew : ∀ (k : ℕ) (node : WbTreeNode), fetched[k]? = some node → ∃ child : TreeNodeUi,
      nodes[first + k]? = some child ∧ child.toWbTreeNode = node ∧ child.isMoreRow = false)
    (hrest : rest = [] ∧ (listing folder.id).length ≤ kept.length + fetched.length ∨
      ∃ (m : ℕ) (more : TreeNodeUi), rest = [m] ∧ nodes[m]? = some more ∧ more.isMoreRow = true ∧
        kept.length + fetched.length < (listing folder.id).length ∧
        more.name = moreRowName ((listing folder.id).length - (kept.length + fetched.length))) :
    Shows listing nodes folder := by
  have hlength : (kept ++ List.range' first fetched.length).length = kept.length + fetched.length := by
    simp
  have hrange : (List.range' first fetched.length).map (fun j ↦ nodes[j]?.map TreeNodeUi.toWbTreeNode) =
      fetched.map some := by
    refine List.ext_getElem? fun k ↦ ?_
    rw [List.getElem?_map, List.getElem?_map]
    by_cases hk : k < fetched.length
    · obtain ⟨child, hchild, hdata, -⟩ := hnew k fetched[k] (List.getElem?_eq_getElem hk)
      simp [hk, hchild, hdata]
    · simp [hk]
  have htake : ((listing folder.id).drop kept.length).take fetched.length = fetched := by
    conv_lhs => rw [hfetched]
    rw [List.length_take, ← List.take_take, List.take_length, ← hfetched]
  have hmap : (kept ++ List.range' first fetched.length).map
      (fun j ↦ nodes[j]?.map TreeNodeUi.toWbTreeNode) =
      ((listing folder.id).take (kept ++ List.range' first fetched.length).length).map some := by
    rw [hlength, List.take_add, htake, List.map_append, List.map_append, hkept, hrange]
  refine ⟨kept ++ List.range' first fetched.length, rest, hchildren, hmap, fun j hj child hchild ↦ ?_, ?_⟩
  · rcases List.mem_append.mp hj with hold | hadded
    · exact hplain j hold child hchild
    · obtain ⟨k, hk, rfl⟩ := List.mem_range'.mp hadded
      rw [one_mul] at hchild
      obtain ⟨child', hchild', -, hmore⟩ := hnew k fetched[k] (List.getElem?_eq_getElem hk)
      rwa [Option.some.inj (hchild.symm.trans hchild')]
  · rw [hlength]
    refine hrest.imp (And.imp id fun hle ↦ ?_) id
    have hsame := congrArg List.length hmap
    rw [List.length_map, List.length_map, List.length_take, hlength] at hsame
    omega

theorem getElem?_set_append {base added : List TreeNodeUi} {p k : ℕ} (folder : TreeNodeUi)
    (hp : p < base.length) : ((base ++ added).set p folder)[base.length + k]? = added[k]? := by
  rw [List.getElem?_set_ne (by omega), List.getElem?_append_right (by omega), Nat.add_sub_cancel_left]

/-- A folder loads its first children. -/
theorem Sound.loadChildren (h : Sound root listing nodes) {i limit : ℕ} {folder : TreeNodeUi}
    (hfolder : nodes[i]? = some folder) (hdirectory : folder.isDirectory = true)
    (hplain : folder.isMoreRow = false) {fetched : List WbTreeNode}
    (hfetched : fetched = (listing folder.id).take limit) :
    Sound root listing (loadChildren nodes i folder fetched (listing folder.id).length) := by
  unfold FolderTree.loadChildren
  extract_lets more added
  have hmore : more = if fetched.length < (listing folder.id).length then
    [moreRow folder i ((listing folder.id).length - fetched.length) fetched] else [] := rfl
  obtain ⟨hi, -⟩ := List.getElem?_eq_some_iff.mp hfolder
  have hadded : ∀ node ∈ added, node.parent = some i ∧ node.depth = folder.depth + 1 ∧
      node.childrenLoaded = false ∧ node.children = [] ∧ node.expanded = false := by
    intro node hnode
    rcases List.mem_append.mp hnode with hchild | hrest
    · obtain ⟨child, -, rfl⟩ := List.mem_map.mp hchild
      exact ⟨rfl, rfl, rfl, rfl, rfl⟩
    · rw [hmore] at hrest
      split_ifs at hrest
      · rw [List.mem_singleton.mp hrest]
        exact ⟨rfl, rfl, rfl, rfl, rfl⟩
      · cases hrest
  have hgrows : Grows nodes ((nodes ++ added).set i _) i folder { folder with
      children := List.range' nodes.length added.length, childrenLoaded := true } :=
    grows_append hfolder rfl (fun j node hnode ↦ ⟨node, hnode, .refl node, fun _ ↦ rfl⟩) hadded rfl rfl
  refine h.grow hgrows (fun j hj ↦ ?_) (List.nodup_range' ..) (fun _ ↦ ⟨hdirectory, hplain, ?_⟩)
    fun hnot ↦ by cases hnot
  · obtain ⟨k, hk, rfl⟩ := List.mem_range'.mp hj
    rw [one_mul, getElem?_set_append _ hi, List.getElem?_eq_getElem hk]
    exact ⟨_, rfl, (hadded _ (List.getElem_mem hk)).1⟩
  · refine shows_append [] (List.range' (nodes.length + fetched.length) more.length) fetched
      nodes.length limit ?_ rfl (by simp) hfetched ?_ ?_
    · simp [added, List.range'_append_1]
    · intro k node hnode
      rw [getElem?_set_append _ hi]
      refine ⟨childNode node (folder.depth + 1) i, ?_, rfl, rfl⟩
      obtain ⟨hk, -⟩ := List.getElem?_eq_some_iff.mp hnode
      rw [List.getElem?_append_left (by simpa using hk), List.getElem?_map, hnode, Option.map_some]
    · split_ifs at hmore with hlt
      · refine Or.inr ⟨nodes.length + fetched.length,
          moreRow folder i ((listing folder.id).length - fetched.length) fetched, by simp [hmore], ?_, ?_⟩
        · rw [getElem?_set_append _ hi, List.getElem?_append_right (by simp)]
          simp [hmore]
        · exact ⟨rfl, by simpa using hlt, by simp [moreRow]⟩
      · exact Or.inl ⟨by simp [hmore], by simpa using hlt⟩

/-- The rows before the last one show children. -/
theorem Shows.dropLast {folder : TreeNodeUi} (h : Shows listing nodes folder) :
    folder.children.dropLast.map (fun j ↦ nodes[j]?.map TreeNodeUi.toWbTreeNode) =
        ((listing folder.id).take folder.children.dropLast.length).map some ∧
      ∀ j ∈ folder.children.dropLast, ∀ child : TreeNodeUi, nodes[j]? = some child →
        child.isMoreRow = false := by
  obtain ⟨shown, rest, hchildren, hmap, hplain, hrest⟩ := h
  have hkept : folder.children.dropLast = shown.take folder.children.dropLast.length := by
    rcases hrest with ⟨rfl, -⟩ | ⟨m, more, rfl, -⟩
    · rw [hchildren, List.append_nil, List.length_dropLast, List.dropLast_eq_take]
    · simp [hchildren]
  refine ⟨?_, fun j hj ↦ hplain j (List.mem_of_mem_take (hkept ▸ hj))⟩
  have hle : folder.children.dropLast.length ≤ shown.length := by
    conv_lhs => rw [hkept]
    exact List.length_take_le' _ _
  conv_lhs => rw [hkept, List.map_take, hmap, ← List.map_take, List.take_take, min_eq_left hle]

/-- The same rows, and only a row for the rest below this folder has another name. -/
structure Rebased (nodes base : List TreeNodeUi) (p : ℕ) : Prop where
  length : base.length = nodes.length
  node : ∀ (j : ℕ) (node : TreeNodeUi), nodes[j]? = some node →
    ∃ node' : TreeNodeUi, base[j]? = some node' ∧ Renamed node node' ∧
      (node.parent ≠ some p ∨ node.isMoreRow = false → node' = node)

theorem rebased_refl (nodes : List TreeNodeUi) (p : ℕ) : Rebased nodes nodes p :=
  ⟨rfl, fun _ node hnode ↦ ⟨node, hnode, .refl node, fun _ ↦ rfl⟩⟩

section Appended

variable {base : List TreeNodeUi} (added : List TreeNodeUi) {p : ℕ} {folder : TreeNodeUi}
  (folder' : TreeNodeUi)

theorem Rebased.getElem? (hbase : Rebased nodes base p) {j : ℕ} (hne : j ≠ p) (hlt : j < nodes.length) :
    ((base ++ added).set p folder')[j]? = base[j]? := by
  rw [List.getElem?_set_ne hne.symm, List.getElem?_append_left (hbase.length ▸ hlt)]

/-- The children before the last one stay. -/
theorem Sound.kept_append (h : Sound root listing nodes) (hbase : Rebased nodes base p)
    (hfolder : nodes[p]? = some folder) (hshows : Shows listing nodes folder) {j : ℕ}
    (hj : j ∈ folder.children.dropLast) : ∃ child : TreeNodeUi, j < nodes.length ∧
      nodes[j]? = some child ∧ ((base ++ added).set p folder')[j]? = some child ∧
      child.parent = some p ∧ child.isMoreRow = false := by
  obtain ⟨child, hchild, hparent⟩ := h.links p folder hfolder j (List.mem_of_mem_dropLast hj)
  have hplain := hshows.dropLast.2 j hj child hchild
  obtain ⟨hlt, -⟩ := List.getElem?_eq_some_iff.mp hchild
  obtain ⟨child', hchild', -, hsame⟩ := hbase.node j child hchild
  rw [hsame (Or.inr hplain)] at hchild'
  have hne : j ≠ p := (h.parents j child p hchild hparent).1.ne'
  exact ⟨child, hlt, hchild, (hbase.getElem? added folder' hne hlt).trans hchild', hparent, hplain⟩

/-- The row for the rest was one of the folder before. -/
theorem Sound.moreRow_append (h : Sound root listing nodes) (hbase : Rebased nodes base p)
    (hshows : Shows listing nodes folder) {m : ℕ} {more : TreeNodeUi} (hm : base[m]? = some more)
    (hrow : more.isMoreRow = true) (hparent : more.parent = some p) : m < nodes.length ∧
      m ∉ folder.children.dropLast ∧ ((base ++ added).set p folder')[m]? = some more := by
  have hlt : m < nodes.length := hbase.length ▸ (List.getElem?_eq_some_iff.mp hm).1
  obtain ⟨node', hnode', ⟨name, rfl⟩, hsame⟩ := hbase.node m nodes[m] (List.getElem?_eq_getElem hlt)
  obtain rfl := Option.some.inj (hm.symm.trans hnode')
  have hlater := (h.parents m nodes[m] p (List.getElem?_eq_getElem hlt) hparent).1
  refine ⟨hlt, fun hmem ↦ ?_, (hbase.getElem? added folder' hlater.ne' hlt).trans hm⟩
  exact Bool.noConfusion ((hshows.dropLast.2 m hmem nodes[m] (List.getElem?_eq_getElem hlt)).symm.trans hrow)

end Appended

/-- New rows are put between the children and the row for the rest. -/
theorem nodup_children {kept rest : List ℕ} {start count : ℕ} (hkept : kept.Nodup)
    (hbefore : ∀ j ∈ kept, j < start)
    (hrest : rest = [] ∨ ∃ m, rest = [m] ∧ m < start ∧ m ∉ kept) :
    (kept ++ List.range' start count ++ rest).Nodup := by
  have hnew : (kept ++ List.range' start count).Nodup := by
    refine List.nodup_append.mpr ⟨hkept, List.nodup_range' .., fun j hj k hk ↦ ?_⟩
    have hlt := hbefore j hj
    obtain ⟨hfirst, -⟩ := List.mem_range'_1.mp hk
    omega
  rcases hrest with rfl | ⟨m, rfl, hlt, hnot⟩
  · rwa [List.append_nil]
  · refine List.nodup_append.mpr ⟨hnew, List.nodup_singleton m, fun j hj k hk ↦ ?_⟩
    rw [List.mem_singleton.mp hk]
    rintro rfl
    rcases List.mem_append.mp hj with hj | hj
    · exact hnot hj
    · obtain ⟨hfirst, -⟩ := List.mem_range'_1.mp hj
      omega

/-- A folder gets its next children, and the row for the rest behind them. -/
theorem Sound.appendChildren (h : Sound root listing nodes) {p limit : ℕ} {folder : TreeNodeUi}
    (hfolder : nodes[p]? = some folder) (hloaded : folder.childrenLoaded = true)
    {base : List TreeNodeUi} (hbase : Rebased nodes base p) {fetched : List WbTreeNode}
    (hfetched : fetched = ((listing folder.id).drop (folder.children.length - 1)).take limit)
    {rest : List ℕ}
    (hrest : rest = [] ∧ (listing folder.id).length ≤ folder.children.length - 1 + fetched.length ∨
      ∃ (m : ℕ) (more : TreeNodeUi), rest = [m] ∧ base[m]? = some more ∧ more.isMoreRow = true ∧
        more.parent = some p ∧ folder.children.length - 1 + fetched.length < (listing folder.id).length ∧
        more.name = moreRowName
          ((listing folder.id).length - (folder.children.length - 1 + fetched.length))) :
    Sound root listing ((base ++ fetched.map (childNode · (folder.depth + 1) p)).set p { folder with
      children := folder.children.dropLast ++ List.range' nodes.length fetched.length ++ rest }) := by
  obtain ⟨hp, -⟩ := List.getElem?_eq_some_iff.mp hfolder
  obtain ⟨hdirectory, hplain, hshows⟩ := h.loaded p folder hfolder hloaded
  set kept := folder.children.dropLast with hkeptdef
  have hlengthKept : kept.length = folder.children.length - 1 := List.length_dropLast
  set folder' : TreeNodeUi := { folder with
    children := kept ++ List.range' nodes.length fetched.length ++ rest } with hfolder'
  set added := fetched.map (childNode · (folder.depth + 1) p) with hadded
  have hgrows : Grows nodes ((base ++ added).set p folder') p folder folder' := by
    refine grows_append hfolder hbase.length (fun j node hnode ↦ ?_) (fun node hnode ↦ ?_) rfl hloaded
    · obtain ⟨node', hnode', hrenamed, hsame⟩ := hbase.node j node hnode
      exact ⟨node', hnode', hrenamed, fun hparent ↦ hsame (Or.inl hparent)⟩
    · obtain ⟨child, -, rfl⟩ := List.mem_map.mp hnode
      exact ⟨rfl, rfl, rfl, rfl, rfl⟩
  have hstays : ∀ j ∈ kept, _ := fun j hj ↦ h.kept_append added folder' hbase hfolder hshows hj
  have hfresh : ∀ (k : ℕ) (node : WbTreeNode), fetched[k]? = some node →
      ((base ++ added).set p folder')[nodes.length + k]? =
        some (childNode node (folder.depth + 1) p) := by
    intro k node hnode
    rw [← hbase.length, getElem?_set_append _ (hbase.length ▸ hp), List.getElem?_map, hnode, Option.map_some]
  refine h.grow hgrows (fun j hj ↦ ?_) ?_ (fun _ ↦ ⟨hdirectory, hplain, ?_⟩)
    fun hnot ↦ absurd (hloaded.symm.trans hnot) (by decide)
  · rcases List.mem_append.mp hj with hj | hj
    · rcases List.mem_append.mp hj with hj | hj
      · obtain ⟨child, -, -, hchild, hparent, -⟩ := hstays j hj
        exact ⟨child, hchild, hparent⟩
      · obtain ⟨k, hk, rfl⟩ := List.mem_range'.mp hj
        rw [one_mul]
        exact ⟨_, hfresh k fetched[k] (List.getElem?_eq_getElem hk), rfl⟩
    · rcases hrest with ⟨rfl, -⟩ | ⟨m, more, rfl, hm, hrow, hparent, -⟩
      · cases hj
      · rw [List.mem_singleton.mp hj]
        exact ⟨more, (h.moreRow_append added folder' hbase hshows hm hrow hparent).2.2, hparent⟩
  · refine nodup_children ((List.dropLast_sublist _).nodup (h.nodup p folder hfolder)) (fun j hj ↦ ?_)
      (hrest.imp And.left ?_)
    · obtain ⟨child, hlt, -⟩ := hstays j hj
      exact hlt
    · rintro ⟨m, more, hm, hget, hrow, hparent, -⟩
      obtain ⟨hlt, hnot, -⟩ := h.moreRow_append added folder' hbase hshows hget hrow hparent
      exact ⟨m, hm, hlt, hnot⟩
  · refine shows_append kept rest fetched nodes.length limit rfl ?_ ?_ (hlengthKept ▸ hfetched) ?_ ?_
    · rw [← hshows.dropLast.1]
      refine List.map_congr_left fun j hj ↦ ?_
      obtain ⟨child, -, hchild, hchild', -⟩ := hstays j hj
      rw [hchild, hchild']
    · intro j hj child hchild
      obtain ⟨child', -, -, hafter, -, hrow⟩ := hstays j hj
      rwa [Option.some.inj (hchild.symm.trans hafter)]
    · exact fun k node hnode ↦ ⟨_, hfresh k node hnode, rfl, rfl⟩
    · rw [hlengthKept]
      refine hrest.imp id ?_
      rintro ⟨m, more, hm, hget, hrow, hparent, hlt, hname⟩
      exact ⟨m, more, hm, (h.moreRow_append added folder' hbase hshows hget hrow hparent).2.2, hrow, hlt, hname⟩

/-- `loadMoreTreeChildren` adds children and names the row for the rest anew. -/
theorem Sound.spliceChildren (h : Sound root listing nodes) {index p limit : ℕ} {more folder : TreeNodeUi}
    (hmore : nodes[index]? = some more) (hrow : more.isMoreRow = true) (hparent : more.parent = some p)
    (hfolder : nodes[p]? = some folder) {fetched : List WbTreeNode}
    (hfetched : fetched = ((listing folder.id).drop (folder.children.length - 1)).take limit) :
    Sound root listing (spliceChildren nodes index p more folder fetched (listing folder.id).length) := by
  obtain ⟨hlater, folder₀, hfolder₀, hloaded, -⟩ := h.parents index more p hmore hparent
  obtain rfl := Option.some.inj (hfolder.symm.trans hfolder₀)
  obtain ⟨hindex, -⟩ := List.getElem?_eq_some_iff.mp hmore
  unfold FolderTree.spliceChildren
  dsimp only
  split_ifs with hmissing
  · rw [List.set_append_left _ _ hindex]
    refine h.appendChildren hfolder hloaded ⟨List.length_set .., fun j node hnode ↦ ?_⟩ hfetched
      (Or.inr ⟨index, { more with name := _ }, rfl, List.getElem?_set_self hindex, hrow, hparent,
        hmissing, rfl⟩)
    by_cases hj : j = index
    · obtain rfl := hj
      obtain rfl := Option.some.inj (hnode.symm.trans hmore)
      refine ⟨_, List.getElem?_set_self hindex, ⟨_, rfl⟩, ?_⟩
      rintro (hne | hplain)
      · exact absurd hparent hne
      · exact Bool.noConfusion (hrow.symm.trans hplain)
    · exact ⟨node, by rwa [List.getElem?_set_ne (Ne.symm hj)], .refl node, fun _ ↦ rfl⟩
  · have happend := h.appendChildren hfolder hloaded (rebased_refl nodes p) hfetched
      (Or.inl ⟨rfl, not_lt.mp hmissing⟩)
    simpa using happend

/-- A folder alone, which has loaded nothing. -/
theorem sound_singleton (node : WbTreeNode) : Sound (some node) listing [{ toWbTreeNode := node }] := by
  have honly : ∀ (i : ℕ) (node' : TreeNodeUi),
      [({ toWbTreeNode := node } : TreeNodeUi)][i]? = some node' → node' = { toWbTreeNode := node } := by
    intro i node' hnode'
    exact List.mem_singleton.mp (List.mem_of_getElem? hnode')
  refine ⟨fun node' hnode' ↦ ?_, fun j child p hchild hparent ↦ ?_, fun i node' hnode' j hj ↦ ?_,
    fun i node' hnode' ↦ ?_, fun i node' hnode' hloaded ↦ ?_, fun i node' hnode' _ ↦ ?_⟩
  · rw [honly 0 node' hnode']
  · rw [honly j child hchild] at hparent
    cases hparent
  · rw [honly i node' hnode'] at hj
    cases hj
  · rw [honly i node' hnode']
    exact List.nodup_nil
  · rw [honly i node' hnode'] at hloaded
    cases hloaded
  · rw [honly i node' hnode']
    exact ⟨rfl, rfl⟩

/-- Rows come from one place each. -/
theorem forest_openChildren
    (hnodup : ∀ (i : ℕ) (node : TreeNodeUi), nodes[i]? = some node → node.children.Nodup)
    (hlinks : ∀ (i : ℕ) (node : TreeNodeUi), nodes[i]? = some node → ∀ j ∈ node.children,
      ∃ child : TreeNodeUi, nodes[j]? = some child ∧ child.parent = some i)
    (hlater : ∀ (j : ℕ) (child : TreeNodeUi) (p : ℕ), nodes[j]? = some child →
      child.parent = some p → p < j) :
    Outlines.Forest (openChildren nodes) nodes.length := by
  have hopen : ∀ i, ∀ j ∈ openChildren nodes i, ∃ child : TreeNodeUi, nodes[j]? = some child ∧
      child.parent = some i := by
    intro i j hj
    unfold openChildren at hj
    split at hj
    case h_1 node hnode =>
      split_ifs at hj
      · exact hlinks i node hnode j hj
      · cases hj
    case h_2 => cases hj
  refine ⟨fun i j hj ↦ ?_, fun i ↦ ?_, fun i k j hi hk ↦ ?_⟩
  · obtain ⟨child, hchild, hparent⟩ := hopen i j hj
    exact ⟨hlater j child i hchild hparent, (List.getElem?_eq_some_iff.mp hchild).1⟩
  · unfold openChildren
    split
    case h_1 node hnode =>
      split_ifs
      · exact hnodup i node hnode
      · exact List.nodup_nil
    case h_2 => exact List.nodup_nil
  · obtain ⟨child, hchild, hparent⟩ := hopen i j hi
    obtain ⟨child', hchild', hparent'⟩ := hopen k j hk
    obtain rfl := Option.some.inj (hchild.symm.trans hchild')
    exact Option.some.inj (hparent.symm.trans hparent')

theorem Sound.forest (h : Sound root listing nodes) :
    Outlines.Forest (openChildren nodes) nodes.length :=
  forest_openChildren h.nodup h.links fun j child p hchild hparent ↦ (h.parents j child p hchild hparent).1

/-- The rows that are drawn are the outline. -/
theorem visibleRows_rebuild (h : Outlines.Forest (openChildren nodes) nodes.length) :
    (rebuildTreeVisibleRows nodes).visibleRows = Outlines.lines (openChildren nodes) nodes.length 0 := by
  unfold rebuildTreeVisibleRows
  by_cases hempty : nodes = []
  · simp [hempty, Outlines.lines]
  · exact (if_neg hempty).trans (h.walk_singleton (List.length_pos_of_ne_nil hempty))

/-! ## Over a run -/

/-- What the index lists for a directory, in these orders. -/
def listingIn (tree : TreeIndex) (dirs files : List ℕ) (id : UInt64) : List WbTreeNode :=
  (((directoryIndex tree.directories id).map (tree.childrenIn dirs files)).getD []).map TreeEntry.toNode

/-- The list shows the tree in any orders that the requests so far allow. -/
structure Presents (tree : TreeIndex) (state : FolderTree × ChildOrders) : Prop where
  holds : tree.HoldsOrders state.2
  sound : ∀ dirs files, tree.SortsDirectories dirs → tree.SortsFiles files →
    state.2.AgreesWith dirs files → Sound tree.wbTreeRoot (listingIn tree dirs files) state.1.nodes
  rows : state.1 = rebuildTreeVisibleRows state.1.nodes

section

variable {tree : TreeIndex} (hlaidOut : tree.IsLaidOut) (hdirectories : tree.directories.length < 2 ^ 32)
  (hfiles : tree.files.length < 2 ^ 32) (sorts : Unstable ℕ)

include hlaidOut hdirectories hfiles

/-- A request gives a part of the listing and its length. -/
theorem wbTreeChildren_spec {orders : ChildOrders} (horders : tree.HoldsOrders orders) (id : UInt64)
    (offset : ℕ) :
    tree.HoldsOrders (tree.wbTreeChildren sorts orders id offset).2 ∧
      orders.Keeps (tree.wbTreeChildren sorts orders id offset).2 ∧
      ∀ dirs files, tree.SortsDirectories dirs → tree.SortsFiles files →
        (tree.wbTreeChildren sorts orders id offset).2.AgreesWith dirs files →
        (tree.wbTreeChildren sorts orders id offset).1 =
          (((listingIn tree dirs files id).drop offset).take TreeIndex.treeChildrenLimit,
            (listingIn tree dirs files id).length) := by
  obtain ⟨hholds, hkeeps, hanswer⟩ := (hlaidOut.grouped hdirectories hfiles).forEachChild horders
    ⟨sorts, id, offset, TreeIndex.treeChildrenLimit⟩
  refine ⟨hholds, hkeeps, fun dirs files hdirs hfilesOrder hagrees ↦ ?_⟩
  have hlookup : tree.dirIndexById.get id = directoryIndex tree.directories id := by
    rw [hlaidOut.lookup, DirectoryLookup.get_new hlaidOut.ids hdirectories]
  have hanswer' := hanswer dirs files hagrees
  simp only [hlookup] at hanswer'
  cases hplace : directoryIndex tree.directories id with
  | none =>
      simp only [TreeIndex.wbTreeChildren, hanswer', listingIn, hplace, TreeIndex.childCount, hlookup]
      simp
  | some index =>
      have hcount := hlaidOut.childCount_eq hdirectories hfiles hplace
      obtain ⟨count, hcount', hlength⟩ := Option.map_eq_some_iff.mp hcount
      have hperm := (hlaidOut.childrenIn_spec hdirectories hfiles hdirs hfilesOrder
        (directoryIndex_lt hplace)).1
      simp only [TreeIndex.wbTreeChildren, hanswer', listingIn, hplace, hcount', Option.map_some,
        Option.getD_some, ChildRequest.page, List.map_take, List.map_drop, List.length_map, hlength,
        hperm.length_eq]

/-- A folder has loaded its first children afterwards. -/
theorem ensureTreeChildrenLoaded_spec {orders : ChildOrders} (horders : tree.HoldsOrders orders)
    (nodes : List TreeNodeUi) (index : ℕ) :
    let loaded := ensureTreeChildrenLoaded tree sorts nodes orders index
    tree.HoldsOrders loaded.2 ∧ orders.Keeps loaded.2 ∧
      ∀ dirs files, tree.SortsDirectories dirs → tree.SortsFiles files → loaded.2.AgreesWith dirs files →
        Sound tree.wbTreeRoot (listingIn tree dirs files) nodes →
        Sound tree.wbTreeRoot (listingIn tree dirs files) loaded.1 ∧
          ∀ node : TreeNodeUi, nodes[index]? = some node → node.isDirectory = true →
            node.isMoreRow = false → ∃ node' : TreeNodeUi, loaded.1[index]? = some node' ∧
              node'.childrenLoaded = true := by
  intro loaded
  cases hnode : nodes[index]? with
  | none =>
      have hloaded : loaded = (nodes, orders) := by simp [loaded, ensureTreeChildrenLoaded, hnode]
      rw [hloaded]
      exact ⟨horders, .refl _, fun _ _ _ _ _ hsound ↦ ⟨hsound, fun _ h ↦ by cases h⟩⟩
  | some node =>
      by_cases hskip : (node.childrenLoaded || !node.isDirectory || node.isMoreRow) = true
      · have hloaded : loaded = (nodes, orders) := by
          simp only [loaded, ensureTreeChildrenLoaded, hnode, hskip, if_true]
        rw [hloaded]
        refine ⟨horders, .refl _, fun _ _ _ _ _ hsound ↦ ⟨hsound, fun node' h hdirectory hplain ↦ ?_⟩⟩
        obtain rfl := Option.some.inj h
        exact ⟨node, hnode, by simpa [hdirectory, hplain] using hskip⟩
      · obtain ⟨hholds, hkeeps, hreply⟩ :=
          wbTreeChildren_spec hlaidOut hdirectories hfiles sorts horders node.id 0
        simp only [Bool.or_eq_true, Bool.not_eq_true', not_or, Bool.not_eq_false,
          Bool.not_eq_true] at hskip
        obtain ⟨⟨hnot, hdirectory⟩, hplain⟩ := hskip
        have hloaded : loaded =
            let reply := tree.wbTreeChildren sorts orders node.id 0
            (loadChildren nodes index node reply.1.1 reply.1.2, reply.2) := by
          simp [loaded, ensureTreeChildrenLoaded, hnode, hnot, hdirectory, hplain]
        rw [hloaded]
        refine ⟨hholds, hkeeps, fun dirs files hdirs hfilesOrder hagrees hsound ↦ ?_⟩
        simp only [hreply dirs files hdirs hfilesOrder hagrees, List.drop_zero]
        refine ⟨hsound.loadChildren hnode hdirectory hplain rfl, fun _ _ _ _ ↦ ?_⟩
        obtain ⟨hlt, -⟩ := List.getElem?_eq_some_iff.mp hnode
        exact ⟨_, List.getElem?_set_self (by rw [List.length_append]; omega), rfl⟩

theorem Presents.load {state : FolderTree × ChildOrders} (h : Presents tree state) :
    Presents tree (loadTreeSnapshot tree sorts state.2) := by
  unfold loadTreeSnapshot
  cases hroot : tree.wbTreeRoot with
  | none =>
      refine ⟨h.holds, fun dirs files _ _ _ ↦ ?_, rfl⟩
      constructor <;> simp
  | some node =>
      obtain ⟨hholds, -, hsound⟩ := ensureTreeChildrenLoaded_spec hlaidOut hdirectories hfiles sorts
        h.holds [{ toWbTreeNode := node }] 0
      refine ⟨hholds, fun dirs files hdirs hfilesOrder hagrees ↦ ?_, rfl⟩
      have hdirectory : node.isDirectory = true := by
        obtain ⟨place, -, rfl⟩ := Option.map_eq_some_iff.mp hroot
        rfl
      have hfirst : Sound (some node) (listingIn tree dirs files) [{ toWbTreeNode := node }] :=
        sound_singleton node
      obtain ⟨hloaded, hopens⟩ := hsound dirs files hdirs hfilesOrder hagrees (hroot ▸ hfirst)
      obtain ⟨folder, hfolder, hready⟩ := hopens { toWbTreeNode := node } rfl hdirectory rfl
      exact hloaded.expand hfolder hready rfl

theorem Presents.toggle {state : FolderTree × ChildOrders} (h : Presents tree state) (index : ℕ) :
    Presents tree (toggleTreeNodeExpansion tree sorts state index) := by
  unfold toggleTreeNodeExpansion
  cases hnode : state.1.nodes[index]? with
  | none => exact h
  | some node =>
      simp only
      split_ifs with hskip hopen
      · exact h
      · refine ⟨h.holds, fun dirs files hdirs hfilesOrder hagrees ↦ ?_, rfl⟩
        have hsound := h.sound dirs files hdirs hfilesOrder hagrees
        refine hsound.expand hnode ?_ rfl
        by_contra hnot
        have hclosed := (hsound.unloaded index node hnode (Bool.eq_false_iff.mpr hnot)).2
        exact Bool.noConfusion (hopen.symm.trans hclosed)
      · simp only [Bool.or_eq_true, Bool.not_eq_true', not_or, Bool.not_eq_false,
          Bool.not_eq_true] at hskip
        obtain ⟨hholds, hkeeps, hspec⟩ := ensureTreeChildrenLoaded_spec hlaidOut hdirectories hfiles sorts
          h.holds state.1.nodes index
        refine ⟨hholds, fun dirs files hdirs hfilesOrder hagrees ↦ ?_, rfl⟩
        have hsound := h.sound dirs files hdirs hfilesOrder (hagrees.before hkeeps)
        obtain ⟨hloaded, hopens⟩ := hspec dirs files hdirs hfilesOrder hagrees hsound
        obtain ⟨folder, hfolder, hready⟩ := hopens node hnode hskip.1 hskip.2
        exact hloaded.expand hfolder hready rfl

theorem Presents.loadMore {state : FolderTree × ChildOrders} (h : Presents tree state) (index : ℕ) :
    Presents tree (loadMoreTreeChildren tree sorts state index) := by
  unfold loadMoreTreeChildren
  cases hmore : state.1.nodes[index]? with
  | none => exact h
  | some more =>
      cases hparent : (if more.isMoreRow then more.parent else none) with
      | none => simpa only [hparent] using h
      | some p =>
          cases hfolder : state.1.nodes[p]? with
          | none => simpa only [hparent, hfolder] using h
          | some folder =>
              obtain ⟨hholds, hkeeps, hreply⟩ := wbTreeChildren_spec hlaidOut hdirectories hfiles sorts
                h.holds folder.id (folder.children.length - 1)
              have hboth : more.isMoreRow = true ∧ more.parent = some p := by
                split_ifs at hparent with hrow
                exact ⟨hrow, hparent⟩
              simp only [hparent, hfolder]
              split_ifs
              · exact ⟨hholds, fun dirs files hdirs hfilesOrder hagrees ↦
                  h.sound dirs files hdirs hfilesOrder (hagrees.before hkeeps), h.rows⟩
              · refine ⟨hholds, fun dirs files hdirs hfilesOrder hagrees ↦ ?_, rfl⟩
                have hsound := h.sound dirs files hdirs hfilesOrder (hagrees.before hkeeps)
                simp only [hreply dirs files hdirs hfilesOrder hagrees]
                exact hsound.spliceChildren hmore hboth.1 hboth.2 hfolder rfl

theorem Presents.act {state : FolderTree × ChildOrders} (h : Presents tree state) (action : Action) :
    Presents tree (act tree sorts state action) := by
  cases action with
  | load => exact h.load hlaidOut hdirectories hfiles sorts
  | toggle index => exact h.toggle hlaidOut hdirectories hfiles sorts index
  | loadMore index => exact h.loadMore hlaidOut hdirectories hfiles sorts index
  | other request =>
      obtain ⟨hholds, hkeeps, -⟩ := (hlaidOut.grouped hdirectories hfiles).forEachChild h.holds request
      exact ⟨hholds, fun dirs files hdirs hfilesOrder hagrees ↦
        h.sound dirs files hdirs hfilesOrder (hagrees.before hkeeps), h.rows⟩

theorem presents_run (actions : List Action) : Presents tree (run tree sorts actions) := by
  have hstart : Presents tree (({} : FolderTree), tree.noOrders) := by
    refine ⟨tree.holdsOrders_noOrders, fun dirs files _ _ _ ↦ ?_, rfl⟩
    constructor <;> simp
  refine List.foldlRecOn actions _ hstart fun state h action _ ↦ ?_
  exact h.act hlaidOut hdirectories hfiles sorts action

end

/-- Whatever is loaded, opened, closed and paged, and whatever else asks the index meanwhile:
every folder shows the first of its direct children, the larger first, each row once and with
the number of those that are missing, and the list is the outline of the open folders. -/
theorem rows_of_run {fuel : ℕ} {transaction : BufferedIndexTransaction} {tree : TreeIndex}
    (hbuild : TreeIndex.build fuel transaction = some tree)
    (hdirectories : tree.directories.length < 2 ^ 32) (hfiles : tree.files.length < 2 ^ 32)
    (sorts : Unstable ℕ) (actions : List Action) :
    let shown := (run tree sorts actions).1
    ∃ children : UInt64 → List TreeEntry,
      (∀ id index, directoryIndex tree.directories id = some index →
        (children id).Perm (tree.directChildren index) ∧
        (children id).Pairwise (fun a b ↦ b.physicalBytes ≤ a.physicalBytes)) ∧
      Sound tree.wbTreeRoot (fun id ↦ (children id).map TreeEntry.toNode) shown.nodes ∧
      Outlines.Forest (openChildren shown.nodes) shown.nodes.length ∧
      shown.visibleRows = Outlines.lines (openChildren shown.nodes) shown.nodes.length 0 ∧
      shown.visibleRows.Nodup ∧
      ∀ row, row ∈ shown.visibleRows ↔
        shown.nodes ≠ [] ∧ Outlines.Above (openChildren shown.nodes) 0 row := by
  intro shown
  have hlaidOut := TreeIndex.isLaidOut_of_build hbuild
  obtain ⟨hholds, hsound, hrows⟩ := presents_run hlaidOut hdirectories hfiles sorts actions
  obtain ⟨dirs, files, hdirs, hfilesOrder, hagrees, -⟩ :=
    (hlaidOut.grouped hdirectories hfiles).serveAllChildren hholds []
  have hshown := hsound dirs files hdirs hfilesOrder hagrees
  have hforest := hshown.forest
  refine ⟨fun id ↦ ((directoryIndex tree.directories id).map (tree.childrenIn dirs files)).getD [],
    fun id index hplace ↦ ?_, hshown, hforest, ?_⟩
  · simp only [hplace, Option.map_some, Option.getD_some]
    exact hlaidOut.childrenIn_spec hdirectories hfiles hdirs hfilesOrder (directoryIndex_lt hplace)
  · have hlines : shown.visibleRows = Outlines.lines (openChildren shown.nodes) shown.nodes.length 0 :=
      (congrArg FolderTree.visibleRows hrows).trans (visibleRows_rebuild hforest)
    refine ⟨hlines, ?_⟩
    by_cases hempty : shown.nodes = []
    · simp [hlines, hempty, Outlines.lines]
    · have hlt : 0 < shown.nodes.length := List.length_pos_of_ne_nil hempty
      refine ⟨hlines ▸ hforest.nodup_lines hlt, fun row ↦ ?_⟩
      rw [hlines, hforest.mem_lines_iff hlt]
      exact (and_iff_right hempty).symm

theorem rows_of_run_twoLevels : ∃ tree, TreeIndex.build 3 twoLevels = some tree ∧
    (run tree .ofMergeSort [.load, .toggle 1, .loadMore 0]).1.visibleRows.Nodup := by
  obtain ⟨tree, hbuild, hdirectories, hfiles⟩ := exists_build_twoLevels
  obtain ⟨children, -, -, -, -, hnodup, -⟩ := rows_of_run hbuild (by omega) (by omega) .ofMergeSort
    [.load, .toggle 1, .loadMore 0]
  exact ⟨tree, hbuild, hnodup⟩

end FolderTree

end WinBlaze
