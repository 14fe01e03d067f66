import Mathlib.Data.Nat.Log
import WinBlaze.Lib.BitWindow
import WinBlaze.Lib.IdMap

/-!
# Physical bytes, once for each file

A scan counts the allocation of a file once, whatever number of names the file
has. The tracker keeps the identities it has seen: sets of numbers for each
volume, in which a cluster of numbers is a window of bits and the rest a hash
set. A window is made or grown when the hash set has become long. Hash sets are
lists here, and each operation is given the order in which it iterates over
them.
-/

namespace WinBlaze

/-- How a hash set is iterated. -/
abbrev IterationOrder := List UInt64 → List UInt64

structure DenseIdentities where
  first : UInt64
  words : List UInt64
  count : ℕ
  deriving DecidableEq, Repr

structure NarrowIdentities where
  sparse : List UInt64 := []
  dense : Option DenseIdentities := none
  nextCompaction : ℕ := 4096
  deriving DecidableEq, Repr

structure VolumeIdentities where
  narrow : NarrowIdentities := {}
  wide : List (BitVec 128) := []
  deriving DecidableEq, Repr

inductive TrackedVolumes
  | empty
  | single (primary : UInt64) (identities : VolumeIdentities)
  | multiple (volumes : IdMap UInt64 VolumeIdentities)

/-! ## Compaction -/

/-- The upper half of an identity. -/
def upperHalf (file : UInt64) : UInt64 := file >>> 32

/-- One vote of the majority search. -/
def voteStep (state : UInt64 × ℕ) (file : UInt64) : UInt64 × ℕ :=
  if state.2 = 0 then (upperHalf file, 1)
  else if upperHalf file = state.1 then (state.1, state.2 + 1)
  else (state.1, state.2 - 1)

def majorityHalf (files : List UInt64) : UInt64 := (files.foldl voteStep (0, 0)).1

/-- The reach of the identities in a cluster, and how many they are. -/
structure ClusterExtent where
  first : UInt64
  last : UInt64
  count : ℕ
  deriving DecidableEq, Repr

def ClusterExtent.add (half : UInt64) (cluster : ClusterExtent) (file : UInt64) : ClusterExtent :=
  if upperHalf file = half then
    { first := min cluster.first (file &&& ~~~63)
      last := max cluster.last file
      count := cluster.count + 1 }
  else cluster

def clusterExtent (half : UInt64) (files : List UInt64) : ClusterExtent :=
  files.foldl (ClusterExtent.add half) { first := .ofNat (2 ^ 64 - 1), last := 0, count := 0 }

/-- The cluster with the window that exists. -/
def ClusterExtent.withDense (cluster : ClusterExtent) : Option DenseIdentities → ClusterExtent
  | some dense =>
      { first := min cluster.first dense.first
        last := max cluster.last (dense.first + (.ofNat dense.words.length * 64 - 1))
        count := cluster.count + dense.count }
  | none => cluster

/-- The loop over the hash set that moves what lies in the window. -/
def retainStep (first : UInt64) (state : List UInt64 × ℕ × List UInt64) (file : UInt64) :
    List UInt64 × ℕ × List UInt64 :=
  match BitWindow.offset? first.toNat state.1.length file.toNat with
  | some offset => (BitWindow.setBit state.1 offset, state.2.1 + 1, state.2.2)
  | none => (state.1, state.2.1, state.2.2 ++ [file])

/-- The words of a new window with those of the old one, and the old count. -/
def retainedWords (first : UInt64) (size : ℕ) : Option DenseIdentities → Option (List UInt64 × ℕ)
  | some dense =>
      if dense.first < first then none
      else
        (BitWindow.copyWords (List.replicate size 0) ((dense.first - first).toNat / 64)
          dense.words).map (fun words ↦ (words, dense.count))
  | none => some (List.replicate size 0, 0)

namespace NarrowIdentities

/-- A new window of `size` words from `first` on. `none` is a panic. -/
def rebuild (identities : NarrowIdentities) (first : UInt64) (size : ℕ) : Option NarrowIdentities :=
  (retainedWords first size identities.dense).map fun retained ↦
    let moved := identities.sparse.foldl (retainStep first) (retained.1, retained.2, [])
    { sparse := moved.2.2
      dense := some { first := first, words := moved.1, count := moved.2.1 }
      nextCompaction := max moved.2.2.length 1 * 2 }

/-- The window stays as it is. -/
def postpone (identities : NarrowIdentities) : NarrowIdentities :=
  { identities with nextCompaction := identities.sparse.length * 2 }

/-- The upper half of the cluster a window is for. -/
def clusterHalf (order : IterationOrder) (identities : NarrowIdentities) : UInt64 :=
  match identities.dense with
  | some dense => upperHalf dense.first
  | none => majorityHalf (order identities.sparse)

def compact (order : IterationOrder) (identities : NarrowIdentities) : Option NarrowIdentities :=
  let cluster := clusterExtent (identities.clusterHalf order) identities.sparse
  if cluster.count = 0 ∨
      identities.dense.isNone ∧ cluster.count ≤ identities.sparse.length / 2 then
    some identities.postpone
  else
    let cluster := cluster.withDense identities.dense
    if cluster.last < cluster.first then none
    else
      let size := 2 ^ Nat.clog 2 ((cluster.last.toNat - cluster.first.toNat) / 64 + 1)
      if cluster.count * 2 < size ∨ 131072 < size then some identities.postpone
      else if 2 ^ 64 < cluster.first.toNat + size * 64 then
        identities.rebuild (.ofNat (2 ^ 64 - size * 64)) size
      else identities.rebuild cluster.first size

/-- A file outside the window. -/
def insertSparse (order : IterationOrder) (identities : NarrowIdentities) (file : UInt64) :
    Option (Bool × NarrowIdentities) :=
  if file ∈ identities.sparse then some (false, identities)
  else
    let inserted := { identities with sparse := identities.sparse ++ [file] }
    if inserted.nextCompaction ≤ inserted.sparse.length then
      (inserted.compact order).map (fun compacted ↦ (true, compacted))
    else some (true, inserted)

/-- Whether the file is new, and the set with it. -/
def insert (order : IterationOrder) (identities : NarrowIdentities) (file : UInt64) :
    Option (Bool × NarrowIdentities) :=
  match identities.dense with
  | some dense =>
      match BitWindow.offset? dense.first.toNat dense.words.length file.toNat with
      | some offset =>
          let first := !BitWindow.testBit dense.words offset
          some (first, { identities with
            dense := some { dense with
              words := BitWindow.setBit dense.words offset
              count := dense.count + if first then 1 else 0 } })
      | none => identities.insertSparse order file
  | none => identities.insertSparse order file

end NarrowIdentities

/-! ## Claims -/

namespace VolumeIdentities

def insertWide (identities : VolumeIdentities) (file : BitVec 128) : Bool × VolumeIdentities :=
  if file ∈ identities.wide then (false, identities)
  else (true, { identities with wide := identities.wide ++ [file] })

def claim (order : IterationOrder) (identities : VolumeIdentities) (file : BitVec 128)
    (bytes : UInt64) : Option (UInt64 × VolumeIdentities) :=
  if file.toNat < 2 ^ 64 then
    (identities.narrow.insert order (.ofNat file.toNat)).map fun inserted ↦
      (if inserted.1 then bytes else 0, { identities with narrow := inserted.2 })
  else
    let inserted := identities.insertWide file
    some (if inserted.1 then bytes else 0, inserted.2)

end VolumeIdentities

/-- A claim in the volume's identities of a map. -/
def claimIn (order : IterationOrder) (volumes : IdMap UInt64 VolumeIdentities) (volume : UInt64)
    (file : BitVec 128) (bytes : UInt64) : Option (UInt64 × TrackedVolumes) :=
  (((volumes.find? volume).getD {}).claim order file bytes).map fun claimed ↦
    (claimed.1, .multiple (volumes.set volume claimed.2))

/-- `AllocationTracker::claim`. -/
def TrackedVolumes.claim (order : IterationOrder) (tracker : TrackedVolumes) (volume : UInt64)
    (file : BitVec 128) (bytes : UInt64) : Option (UInt64 × TrackedVolumes) :=
  if bytes = 0 then some (0, tracker)
  else
    match tracker with
    | .empty =>
        (VolumeIdentities.claim order {} file bytes).map fun claimed ↦
          (claimed.1, .single volume claimed.2)
    | .single primary identities =>
        if primary = volume then
          (identities.claim order file bytes).map fun claimed ↦ (claimed.1, .single primary claimed.2)
        else claimIn order (IdMap.set .empty primary identities) volume file bytes
    | .multiple volumes => claimIn order volumes volume file bytes

/-- The shard of an identity, one of 64. -/
def shardIndex (volume : UInt64) (file : BitVec 128) : Fin 64 :=
  .ofNat 64
    ((UInt64.ofNat file.toNat ^^^ UInt64.ofNat (file.toNat >>> 64) ^^^ volume) &&& 63).toNat

end WinBlaze
