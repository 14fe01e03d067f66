import WinBlaze.Index.Store
import WinBlaze.Lib.Buckets
import WinBlaze.Lib.IdMap
import WinBlaze.Lib.Saturating
import WinBlaze.Lib.TreeSweep

/-!
# The display tree over an index state

Directories and files in id order, the children of each directory as a range of
one list, and for each directory the totals of everything beneath it. Directories
without a known parent hang off the root.
-/

namespace WinBlaze

open Saturating

structure DirRollup where
  logicalBytes : UInt64 := 0
  physicalBytes : UInt64 := 0
  fileCount : UInt64 := 0
  /-- Files and directories anywhere beneath the directory. -/
  itemCount : UInt64 := 0
  modifiedUtcMax : Option Int64 := none
  deriving DecidableEq, Repr, Inhabited

structure DirNode where
  dirChildren : ℕ × ℕ
  fileChildren : ℕ × ℕ
  rollup : DirRollup := {}
  deriving DecidableEq, Repr, Inhabited

def u32Max : ℕ := 2 ^ 32 - 1

/-- The conversion `as u32`. -/
def asU32 (n : ℕ) : ℕ := n % 2 ^ 32

/-- `checked_add` of 64-bit numbers. -/
def checkedAdd (a b : UInt64) : Option UInt64 := if a.toNat + b.toNat < 2 ^ 64 then some (a + b) else none

/-! ## Directories by id -/

inductive DirectoryLookup where
  /-- The ids count up from `first`. -/
  | dense (first : UInt64) (len : ℕ)
  | sparse (indices : IdMap UInt64 ℕ)

namespace DirectoryLookup

def new (directories : List DirectoryRecord) : DirectoryLookup :=
  let first := (directories.head?.map (fun directory ↦ directory.id.val)).getD 0
  if directories.length ≤ u32Max ∧ directories.zipIdx.all (fun entry ↦
      checkedAdd first (.ofNat entry.2) = some entry.1.id.val) then
    dense first directories.length
  else
    sparse (.ofPairs (directories.zipIdx.map (fun entry ↦ (entry.1.id.val, asU32 entry.2))))

def get (lookup : DirectoryLookup) (id : UInt64) : Option ℕ :=
  match lookup with
  | dense first len =>
      if first ≤ id then
        if id - first < .ofNat len then some (asU32 (id - first).toNat) else none
      else none
  | sparse indices => indices.find? id

end DirectoryLookup

/-! ## Parents -/

/-- The parent is missing or the directory itself. -/
def isRootLike (lookup : DirectoryLookup) (directory : DirectoryRecord) : Bool :=
  match directory.parentDirectoryId with
  | none => true
  | some parent => parent.val = directory.id.val || (lookup.get parent.val).isNone

/-- Record 5 when it has no parent, else the first directory without one. -/
def chooseRoot (directories : List DirectoryRecord) (lookup : DirectoryLookup) : Option ℕ :=
  match (lookup.get 5).filter (fun index ↦ (directories[index]?).any (isRootLike lookup)) with
  | some index => some index
  | none => (directories.findIdx? (isRootLike lookup)).map asU32

/-- The place of a directory's parent. All but the root have one. -/
def dirParentOf (lookup : DirectoryLookup) (root : Option ℕ) (entry : DirectoryRecord × ℕ) : Option ℕ :=
  if some (asU32 entry.2) = root then none
  else
    let structural := ((entry.1.parentDirectoryId.filter (fun parent ↦
      parent.val ≠ entry.1.id.val)).bind (fun parent ↦ lookup.get parent.val)).filter
        (fun parent ↦ parent ≠ asU32 entry.2)
    structural.or root

def fileParentOf (lookup : DirectoryLookup) (root : Option ℕ) (file : FileRecord) : Option ℕ :=
  (lookup.get file.parentDirectoryId.val).or root

/-! ## Totals -/

def maxOption (a b : Option Int64) : Option Int64 :=
  match a, b with
  | some a, some b => some (max a b)
  | some a, none => some a
  | none, b => b

def DirRollup.addFile (rollup : DirRollup) (file : FileRecord) : DirRollup where
  logicalBytes := satAdd rollup.logicalBytes file.sizeBytes
  physicalBytes := satAdd rollup.physicalBytes file.allocationBytes
  fileCount := rollup.fileCount + 1
  itemCount := rollup.itemCount + 1
  modifiedUtcMax := maxOption rollup.modifiedUtcMax file.timestamps.modified

def DirRollup.addChild (rollup child : DirRollup) : DirRollup where
  logicalBytes := satAdd rollup.logicalBytes child.logicalBytes
  physicalBytes := satAdd rollup.physicalBytes child.physicalBytes
  fileCount := satAdd rollup.fileCount child.fileCount
  itemCount := satAdd rollup.itemCount (satAdd child.itemCount 1)
  modifiedUtcMax := maxOption rollup.modifiedUtcMax child.modifiedUtcMax

def DirNode.withRollup (node : DirNode) (rollup : DirRollup) : DirNode := { node with rollup := rollup }

def addFileToNode (lookup : DirectoryLookup) (root : Option ℕ) (nodes : List DirNode)
    (file : FileRecord) : List DirNode :=
  match fileParentOf lookup root file with
  | some index => nodes.modify index (fun node ↦ node.withRollup (node.rollup.addFile file))
  | none => nodes

/-- The loop body of the reverse sweep. -/
def addNodeToParent (parentOf : List ℕ) (nodes : List DirNode) (index : ℕ) : List DirNode :=
  match parentOf[index]? with
  | some parent =>
      if parent = u32Max then nodes
      else
        let childRollup := ((nodes[index]?).map DirNode.rollup).getD {}
        nodes.modify parent (fun node ↦ node.withRollup (node.rollup.addChild childRollup))
  | none => nodes

def childrenOf (nodes : List DirNode) (dirChildren : List ℕ) (index : ℕ) : List ℕ :=
  match nodes[index]? with
  | some node => Buckets.slice dirChildren node.dirChildren
  | none => []

/-- `compute_rollups`; `none` when the search takes more than `fuel` steps. -/
def computeRollups (fuel : ℕ) (lookup : DirectoryLookup) (root : Option ℕ) (files : List FileRecord)
    (nodes : List DirNode) (dirChildren : List ℕ) : Option (List DirNode) :=
  let nodes := files.foldl (addFileToNode lookup root) nodes
  match root with
  | none => some nodes
  | some root =>
      (TreeSweep.Search.run (childrenOf nodes dirChildren) fuel 0
        ⟨[root], List.replicate nodes.length u32Max⟩).map (fun search ↦
          search.order.reverse.foldl (addNodeToParent search.parentOf) nodes)

/-! ## Building -/

structure TreeIndex where
  volumes : List VolumeRecord
  directories : List DirectoryRecord
  files : List FileRecord
  nodes : List DirNode
  dirChildren : List ℕ
  dirIndexById : DirectoryLookup
  root : Option ℕ

namespace TreeIndex

def build (fuel : ℕ) (transaction : BufferedIndexTransaction) : Option TreeIndex :=
  let directories := transaction.snapshotDirectories
  let files := transaction.snapshotFiles
  let lookup := DirectoryLookup.new directories
  let root := chooseRoot directories lookup
  let dirParent := directories.zipIdx.map (dirParentOf lookup root)
  let fileParents := (files.map (fileParentOf lookup root)).map (fun parent ↦
    if parent.getD u32Max ≠ u32Max then parent else none)
  let dirRanges := Buckets.ranges 0 (Buckets.tally directories.length dirParent)
  let fileRanges := Buckets.ranges 0 (Buckets.tally directories.length fileParents)
  let nodes := (dirRanges.zip fileRanges).map (fun ranges ↦ DirNode.mk ranges.1 ranges.2 {})
  let dirChildren := Buckets.place (nodes.map (fun node ↦ node.dirChildren.1))
    (List.replicate (Buckets.tally directories.length dirParent).sum 0)
    (dirParent.zipIdx.map (fun entry ↦ (entry.1, asU32 entry.2)))
  (computeRollups fuel lookup root files nodes dirChildren).map (fun nodes ↦ {
    volumes := transaction.volumes.records
    directories := directories
    files := files
    nodes := nodes
    dirChildren := dirChildren
    dirIndexById := lookup
    root := root })

def rollupFor (tree : TreeIndex) (directoryId : UInt64) : Option DirRollup :=
  (tree.dirIndexById.get directoryId).bind fun index ↦ (tree.nodes[index]?).map DirNode.rollup

/-- Direct children. The bounds of the ranges are 32-bit numbers. -/
def childCount (tree : TreeIndex) (directoryId : UInt64) : Option UInt64 :=
  (tree.dirIndexById.get directoryId).bind fun index ↦ (tree.nodes[index]?).map fun node ↦
    UInt64.ofNat (asU32 (node.dirChildren.2 - node.dirChildren.1)) +
      UInt64.ofNat (asU32 (node.fileChildren.2 - node.fileChildren.1))

end TreeIndex

end WinBlaze
