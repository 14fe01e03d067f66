import Mathlib.Algebra.BigOperators.Group.Finset.Basic
import Mathlib.Algebra.Order.BigOperators.Group.Multiset
import WinBlaze.Lib.Unfolding
import WinBlaze.Scanner.DirectoryWalk

/-!
# What is in a directory tree

The files and directories below a root that a walk is to find, whatever the
order: those that the rules allow, in the directories it descends into.
-/

namespace WinBlaze

/-- A directory that is read. -/
structure Visit (P : Type*) where
  path : P
  ancestors : AncestorChain P

variable {P N : Type*}

/-- The directory an entry leads to. -/
def EntryOutcome.visit : EntryOutcome P N → Option (Visit P)
  | .directory path _ (.follow ancestors) => some { path := path, ancestors := ancestors }
  | _ => none

/-- A file with the directory it is in. -/
def fileOf (visit : Visit P) : EntryOutcome P N → Multiset (P × FindEntry N)
  | .file entry => {(visit.path, entry)}
  | _ => 0

/-- A directory with the one it is in. -/
def directoryOf (visit : Visit P) : EntryOutcome P N → Multiset (P × P)
  | .directory path _ _ => {(path, visit.path)}
  | _ => 0

namespace WalkSource

variable [DecidableEq P] (source : WalkSource P N)

def outcomes (visit : Visit P) : List (EntryOutcome P N) :=
  ((source.readDir visit.path).getD []).map (entryOutcome source visit.path visit.ancestors)

def tree : Unfolding (Visit P) (EntryOutcome P N) where
  items := source.outcomes
  next := EntryOutcome.visit

/-- The files below a directory. -/
def treeFiles (depth : ℕ) (root : Visit P) : Multiset (P × FindEntry N) :=
  source.tree.gather fileOf depth root

/-- The directories below a directory. -/
def treeDirectories (depth : ℕ) (root : Visit P) : Multiset (P × P) :=
  source.tree.gather directoryOf depth root

end WalkSource

/-! ## Physical bytes -/

section Physical

variable (allocation : UInt64 × BitVec 128 → UInt64)

/-- The identities of some entries. -/
def identitiesOf (entries : Multiset (FindEntry N)) : Finset (UInt64 × BitVec 128) :=
  (entries.filterMap FindEntry.physicalIdentity).toFinset

/-- The allocation of entries without an identity, and once that of each
identity. -/
def physicalBytes (entries : Multiset (FindEntry N)) : ℕ :=
  ((entries.filter (fun entry ↦ entry.physicalIdentity = none)).map
      (fun entry ↦ entry.allocationBytes.toNat)).sum +
    ∑ identity ∈ identitiesOf entries, (allocation identity).toNat

variable {allocation} {entries : Multiset (FindEntry N)} {entry : FindEntry N}
  {identity : UInt64 × BitVec 128}

theorem mem_identitiesOf :
    identity ∈ identitiesOf entries ↔ ∃ entry ∈ entries, entry.physicalIdentity = some identity := by
  simp [identitiesOf]

theorem identitiesOf_cons_none (h : entry.physicalIdentity = none) :
    identitiesOf (entry ::ₘ entries) = identitiesOf entries := by
  simp [identitiesOf, h]

theorem identitiesOf_cons_some (h : entry.physicalIdentity = some identity) :
    identitiesOf (entry ::ₘ entries) = insert identity (identitiesOf entries) := by
  simp [identitiesOf, h, Multiset.filterMap_cons_some]

theorem physicalBytes_cons_none (h : entry.physicalIdentity = none) :
    physicalBytes allocation (entry ::ₘ entries) =
      entry.allocationBytes.toNat + physicalBytes allocation entries := by
  have hfilter : (entry ::ₘ entries).filter (fun entry ↦ entry.physicalIdentity = none) =
      entry ::ₘ entries.filter (fun entry ↦ entry.physicalIdentity = none) :=
    Multiset.filter_cons_of_pos _ h
  simp only [physicalBytes, hfilter, identitiesOf_cons_none h, Multiset.map_cons,
    Multiset.sum_cons, Nat.add_assoc]

theorem physicalBytes_cons_some (h : entry.physicalIdentity = some identity) :
    physicalBytes allocation (entry ::ₘ entries) =
      (if identity ∈ identitiesOf entries then 0 else (allocation identity).toNat) +
        physicalBytes allocation entries := by
  have hfilter : (entry ::ₘ entries).filter (fun entry ↦ entry.physicalIdentity = none) =
      entries.filter (fun entry ↦ entry.physicalIdentity = none) :=
    Multiset.filter_cons_of_neg _ (by simp [h])
  simp only [physicalBytes, hfilter, identitiesOf_cons_some h]
  split
  case isTrue hmem =>
    simp only [Finset.insert_eq_of_mem hmem, Nat.zero_add]
  case isFalse hmem =>
    simp only [Finset.sum_insert hmem]
    exact Nat.add_left_comm _ _ _

/-- More entries have no fewer bytes. -/
theorem physicalBytes_le_add (more : Multiset (FindEntry N)) :
    physicalBytes allocation entries ≤ physicalBytes allocation (more + entries) := by
  induction more using Multiset.induction with
  | empty => simp
  | cons entry more ih =>
      refine ih.trans ?_
      simp only [Multiset.cons_add]
      cases hidentity : entry.physicalIdentity with
      | none =>
          simp only [physicalBytes_cons_none hidentity]
          exact Nat.le_add_left _ _
      | some identity =>
          simp only [physicalBytes_cons_some hidentity]
          exact Nat.le_add_left _ _

/-- The entries that have bytes at all have no more than all. -/
theorem physicalBytes_filter_le (p : FindEntry N → Prop) [DecidablePred p] :
    physicalBytes allocation (entries.filter p) ≤ physicalBytes allocation entries := by
  have hsplit := Multiset.filter_add_not p entries
  rw [add_comm] at hsplit
  conv_rhs => rw [← hsplit]
  exact physicalBytes_le_add _

end Physical

namespace WalkSource

variable [DecidableEq P] (source : WalkSource P N)

/-- The counts, ids and totals of a tree are 64-bit numbers. -/
structure Fits (allocation : UInt64 × BitVec 128 → UInt64) (depth : ℕ) (root : Visit P) : Prop where
  directories : (source.treeDirectories depth root).card + 6 < 2 ^ 64
  files : (source.treeFiles depth root).card + 1 < 2 ^ 64
  logical :
    ((source.treeFiles depth root).map (fun file ↦ file.2.sizeBytes.toNat)).sum < 2 ^ 64
  physical : physicalBytes allocation ((source.treeFiles depth root).map Prod.snd) < 2 ^ 64

/-- The allocation of a file is that of its identity. -/
def AllocatesByIdentity (allocation : UInt64 × BitVec 128 → UInt64) (depth : ℕ)
    (root : Visit P) : Prop :=
  ∀ file ∈ source.treeFiles depth root, ∀ identity ∈ file.2.physicalIdentity,
    file.2.allocationBytes = allocation identity

/-- No file has more than the allocation of its identity. -/
def AllocatesAtMost (allocation : UInt64 × BitVec 128 → UInt64) (depth : ℕ) (root : Visit P) : Prop :=
  ∀ file ∈ source.treeFiles depth root, ∀ identity ∈ file.2.physicalIdentity,
    file.2.allocationBytes ≤ allocation identity

/-- A static tree that a walk can put out. -/
structure Bounded (allocation : UInt64 × BitVec 128 → UInt64) (depth : ℕ) (root : Visit P) :
    Prop where
  finite : source.tree.DepthAtMost depth root
  atMost : source.AllocatesAtMost allocation depth root
  fits : source.Fits allocation depth root

/-- A static tree that a walk can count. -/
structure Walkable (allocation : UInt64 × BitVec 128 → UInt64) (depth : ℕ) (root : Visit P) :
    Prop where
  finite : source.tree.DepthAtMost depth root
  allocated : source.AllocatesByIdentity allocation depth root
  fits : source.Fits allocation depth root

theorem Walkable.bounded {source : WalkSource P N} {allocation : UInt64 × BitVec 128 → UInt64}
    {depth : ℕ} {root : Visit P} (h : source.Walkable allocation depth root) :
    source.Bounded allocation depth root where
  finite := h.finite
  atMost file hfile identity hidentity := UInt64.le_of_eq (h.allocated file hfile identity hidentity)
  fits := h.fits

end WalkSource

end WinBlaze
