import WinBlaze.Core.Model
import WinBlaze.Lib.Saturating
import WinBlaze.Scanner.Allocation

/-!
# The directory walk

The walk emits a record for each directory and file it finds, descends into the
directories that the reparse policy and the cycle check let it descend into, and
counts. Issues and progress are left out.
-/

namespace WinBlaze

namespace FileAttributes

def contains (attributes other : FileAttributes) : Bool := attributes.bits &&& other.bits == other.bits

def reparsePoint : FileAttributes := ⟨0x400⟩

def isDirectory (attributes : FileAttributes) : Bool := attributes.contains directory

def isReparsePoint (attributes : FileAttributes) : Bool := attributes.contains reparsePoint

end FileAttributes

/-- An entry of a directory, with its name as it is on the disk. -/
structure FindEntry (N : Type*) where
  name : N
  attributes : FileAttributes
  sizeBytes : UInt64
  allocationBytes : UInt64
  physicalIdentity : Option (UInt64 × BitVec 128)
  createdUtc : UInt64
  modifiedUtc : UInt64
  accessedUtc : UInt64

inductive ReparseTraversalPolicy
  | skipAll
  | followMountPointsAndJunctions
  | followAll
  deriving DecidableEq, Repr

inductive ReparseTargetKind
  | junction
  | symlink
  | mountPoint
  deriving DecidableEq, Repr

/-- What the walk reads and what it was asked for. A directory that cannot be
read gives nothing, and an entry that cannot be read is `none`. The scan rules
are given by the paths they allow. -/
structure WalkSource (P N : Type*) where
  readDir : P → Option (List (Option (FindEntry N)))
  canonicalize : P → Option P
  stripVerbatimPrefix : P → P
  join : P → N → P
  displayPath : P → String
  displayName : N → String
  isVolumePath : P → Bool
  allows : P → Bool → Bool
  policy : ReparseTraversalPolicy

/-- The canonical paths of a directory and those above it, the directory first.
The empty chain is the disabled one. -/
abbrev AncestorChain (P : Type*) := List P

inductive ReparseDecision (P : Type*)
  | follow (ancestors : AncestorChain P)
  | skippedByPolicy
  | skippedCycle
  | skippedUnresolvable

section Reparse

variable {P N : Type*} [DecidableEq P] (source : WalkSource P N)

def classifyReparseTarget (path : P) (attributes : FileAttributes) : Option ReparseTargetKind :=
  if !attributes.isReparsePoint then none
  else if source.isVolumePath path then some .mountPoint
  else if attributes.isDirectory then some .junction
  else some .symlink

def shouldFollowReparseTarget (kind : ReparseTargetKind) : ReparseTraversalPolicy → Bool
  | .skipAll => false
  | .followMountPointsAndJunctions => kind != .symlink
  | .followAll => true

def shouldDescendIntoReparseTarget (path : P) (attributes : FileAttributes) : Bool :=
  match classifyReparseTarget source path attributes with
  | some kind => shouldFollowReparseTarget kind source.policy
  | none => true

def evaluateReparseDescent (directory entryPath : P) (entryName : N) (attributes : FileAttributes)
    (ancestors : AncestorChain P) : ReparseDecision P :=
  if !attributes.isReparsePoint then
    if ancestors.isEmpty then .follow []
    else
      let canonical :=
        match ancestors.head? with
        | some parent => source.join parent entryName
        | none => source.join directory entryName
      .follow (canonical :: ancestors)
  else if !shouldDescendIntoReparseTarget source entryPath attributes then .skippedByPolicy
  else
    match source.canonicalize entryPath with
    | some resolved =>
        if source.stripVerbatimPrefix resolved ∈ ancestors then .skippedCycle
        else .follow (source.stripVerbatimPrefix resolved :: ancestors)
    | none => .skippedUnresolvable

/-- What becomes of an entry. -/
inductive EntryOutcome (P N : Type*)
  | skipped
  | file (entry : FindEntry N)
  | directory (path : P) (name : N) (decision : ReparseDecision P)

def entryOutcome (directory : P) (ancestors : AncestorChain P) :
    Option (FindEntry N) → EntryOutcome P N
  | none => .skipped
  | some entry =>
      let path := source.join directory entry.name
      if !source.allows path entry.attributes.isDirectory then .skipped
      else if entry.attributes.isDirectory then
        .directory path entry.name
          (evaluateReparseDescent source directory path entry.name entry.attributes ancestors)
      else .file entry

end Reparse

/-! ## Records -/

inductive WalkEvent
  | directory (record : DirectoryRecord)
  | file (record : FileRecord)

def filetimeOrNone (value : UInt64) : Option Int64 :=
  if value = 0 then none else some value.toInt64

section Records

variable {P N : Type*} (source : WalkSource P N)

def directoryRecord (id : UInt64) (parent : Option DirectoryId) (fullPath : P) (name : String) :
    DirectoryRecord where
  id := ⟨id⟩
  parentDirectoryId := parent
  name := name
  fullPath := source.displayPath fullPath

def fileRecord (id : UInt64) (parent : DirectoryId) (entry : FindEntry N) (allocationBytes : UInt64) :
    FileRecord where
  id := ⟨id⟩
  parentDirectoryId := parent
  name := source.displayName entry.name
  fullPath := ""
  sizeBytes := entry.sizeBytes
  allocationBytes := allocationBytes
  attributes := entry.attributes
  timestamps :=
    { created := filetimeOrNone entry.createdUtc
      modified := filetimeOrNone entry.modifiedUtc
      accessed := filetimeOrNone entry.accessedUtc }

end Records

/-! ## The sequential walk -/

structure DirectoryWalkState where
  physicalIds : TrackedVolumes
  directoriesSeen : UInt64
  filesSeen : UInt64
  totalSizeBytes : UInt64
  totalAllocationBytes : UInt64
  nextDirectoryId : UInt64
  nextFileId : UInt64
  events : List WalkEvent

/-- The state with which the scan starts a walk, after it emitted the root. -/
def DirectoryWalkState.new (rootEvent : WalkEvent) : DirectoryWalkState where
  physicalIds := .empty
  directoriesSeen := 1
  filesSeen := 0
  totalSizeBytes := 0
  totalAllocationBytes := 0
  nextDirectoryId := 6
  nextFileId := 1
  events := [rootEvent]

section Walk

variable {P N : Type*} [DecidableEq P] (source : WalkSource P N) (orders : ℕ → IterationOrder)

def emitDirectoryRecord (state : DirectoryWalkState) (parent : DirectoryId) (fullPath : P)
    (name : String) : DirectoryWalkState :=
  { state with
    nextDirectoryId := Saturating.satAdd state.nextDirectoryId 1
    directoriesSeen := Saturating.satAdd state.directoriesSeen 1
    events := state.events ++
      [.directory (directoryRecord source state.nextDirectoryId (some parent) fullPath name)] }

/-- The bytes claimed for an entry, and the tracker after it. The `n`-th claim
iterates over hash sets in the `n`-th order. -/
def claimEntry (state : DirectoryWalkState) (entry : FindEntry N) : Option (UInt64 × TrackedVolumes) :=
  match entry.physicalIdentity with
  | some identity =>
      state.physicalIds.claim (orders state.events.length) identity.1 identity.2 entry.allocationBytes
  | none => some (entry.allocationBytes, state.physicalIds)

def emitFileRecord (state : DirectoryWalkState) (parent : DirectoryId) (entry : FindEntry N) :
    Option DirectoryWalkState :=
  (claimEntry orders state entry).map fun claimed ↦
    { state with
      physicalIds := claimed.2
      filesSeen := Saturating.satAdd state.filesSeen 1
      totalSizeBytes := Saturating.satAdd state.totalSizeBytes entry.sizeBytes
      totalAllocationBytes := Saturating.satAdd state.totalAllocationBytes claimed.1
      nextFileId := Saturating.satAdd state.nextFileId 1
      events := state.events ++ [.file (fileRecord source state.nextFileId parent entry claimed.1)] }

/-- `walk_directory_tree`, to a depth of `fuel`. `none` is a panic of the tracker
or a tree that is deeper. -/
def walkDirectoryTree (fuel : ℕ) (directory : P) (parent : DirectoryId) (ancestors : AncestorChain P)
    (state : DirectoryWalkState) : Option DirectoryWalkState :=
  match fuel with
  | 0 => none
  | fuel + 1 =>
      match source.readDir directory with
      | none => some state
      | some entries =>
          entries.foldlM (fun state entry ↦
            match entryOutcome source directory ancestors entry with
            | .skipped => some state
            | .file entry => emitFileRecord source orders state parent entry
            | .directory path name decision =>
                let emitted := emitDirectoryRecord source state parent path (source.displayName name)
                match decision with
                | .follow chain =>
                    walkDirectoryTree fuel path ⟨state.nextDirectoryId⟩ chain emitted
                | _ => some emitted) state

end Walk

end WinBlaze
