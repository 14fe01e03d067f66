import WinBlaze.Scanner.AllocationRuns
import WinBlaze.Scanner.WalkPool

/-!
# Walks that refine the pool

A walk has published some events, counts and totals, and holds work, records
and amounts that it will publish. Together they are those of a pool that the
root can reach.
-/

namespace WinBlaze

open Saturating (maxValue)

/-- What a walk has published. -/
structure WalkView where
  events : List WalkEvent
  nextDirectoryId : UInt64
  nextFileId : UInt64
  directoriesSeen : UInt64
  filesSeen : UInt64
  totalSizeBytes : UInt64
  totalAllocationBytes : UInt64

/-- What it holds: work, records to be emitted, and amounts to be counted. -/
@[ext]
structure Held (P N : Type*) where
  parts : Multiset (WorkPart P N) := 0
  records : Multiset WalkEvent := 0
  directories : ℕ := 0
  files : ℕ := 0
  logical : ℕ := 0
  physical : ℕ := 0

variable {P N : Type*}

namespace Held

instance instZero : Zero (Held P N) := ⟨{}⟩

instance instAdd : Add (Held P N) where
  add a b :=
    { parts := a.parts + b.parts
      records := a.records + b.records
      directories := a.directories + b.directories
      files := a.files + b.files
      logical := a.logical + b.logical
      physical := a.physical + b.physical }

@[simp] theorem parts_zero : (0 : Held P N).parts = 0 := rfl
@[simp] theorem records_zero : (0 : Held P N).records = 0 := rfl
@[simp] theorem directories_zero : (0 : Held P N).directories = 0 := rfl
@[simp] theorem files_zero : (0 : Held P N).files = 0 := rfl
@[simp] theorem logical_zero : (0 : Held P N).logical = 0 := rfl
@[simp] theorem physical_zero : (0 : Held P N).physical = 0 := rfl

@[simp] theorem parts_add (a b : Held P N) : (a + b).parts = a.parts + b.parts := rfl
@[simp] theorem records_add (a b : Held P N) : (a + b).records = a.records + b.records := rfl
@[simp] theorem directories_add (a b : Held P N) :
    (a + b).directories = a.directories + b.directories := rfl
@[simp] theorem files_add (a b : Held P N) : (a + b).files = a.files + b.files := rfl
@[simp] theorem logical_add (a b : Held P N) : (a + b).logical = a.logical + b.logical := rfl
@[simp] theorem physical_add (a b : Held P N) : (a + b).physical = a.physical + b.physical := rfl

instance instAddCancelCommMonoid : AddCancelCommMonoid (Held P N) where
  add_assoc a b c := by ext1 <;> simp [add_assoc]
  zero_add a := by ext1 <;> simp
  add_zero a := by ext1 <;> simp
  add_comm a b := by ext1 <;> simp [add_comm]
  add_left_cancel a b c h := by
    simp only [Held.ext_iff, parts_add, records_add, directories_add, files_add, logical_add,
      physical_add, add_right_inj] at h
    exact Held.ext h.1 h.2.1 h.2.2.1 h.2.2.2.1 h.2.2.2.2.1 h.2.2.2.2.2
  nsmul := nsmulRec

/-- A piece of work. -/
def part (part : WorkPart P N) : Held P N := { parts := {part} }

/-- A record to be emitted. -/
def record (event : WalkEvent) : Held P N := { records := {event} }

/-- The amounts of a file to be counted. -/
def amounts (files logical physical : ℕ) : Held P N :=
  { files := files, logical := logical, physical := physical }

/-- Directories to be counted. -/
def uncounted (directories : ℕ) : Held P N := { directories := directories }

@[simp] theorem amounts_zero : (amounts 0 0 0 : Held P N) = 0 := rfl
@[simp] theorem uncounted_zero : (uncounted 0 : Held P N) = 0 := rfl

end Held

/-! ## Records of a pool -/

namespace WalkPool

variable (source : WalkSource P N) (pool : WalkPool P N)

def fileRecords : Multiset FileRecord :=
  pool.files.map (fun file ↦
    fileRecord source file.1.id file.1.task.directoryId file.1.entry file.2)

/-- The record of a directory with so many before it. -/
def recordAt (found : FoundDirectory P N × ℕ) : DirectoryRecord :=
  directoryRecord source (directoryIdAt found.2).val (some found.1.parent.directoryId) found.1.path
    (source.displayName found.1.name)

def directoryRecords : List DirectoryRecord := pool.directories.zipIdx.map (recordAt source)

def events : Multiset WalkEvent :=
  (pool.fileRecords source).map WalkEvent.file +
    ((pool.directoryRecords source).map .directory : List WalkEvent)

end WalkPool

/-- What is published counts as held. -/
def WalkView.published (view : WalkView) : Held P N where
  records := view.events
  directories := view.directoriesSeen.toNat
  files := view.filesSeen.toNat
  logical := view.totalSizeBytes.toNat
  physical := view.totalAllocationBytes.toNat

/-- All that a pool stands for, with the root. -/
def WalkPool.total (source : WalkSource P N) (rootEvent : WalkEvent) (pool : WalkPool P N) :
    Held P N where
  parts := pool.parts
  records := rootEvent ::ₘ pool.events source
  directories := 1 + pool.directories.length
  files := pool.files.card
  logical := (pool.files.map (fun file ↦ file.1.entry.sizeBytes.toNat)).sum
  physical := (pool.files.map (fun file ↦ file.2.toNat)).sum

variable [DecidableEq P] (source : WalkSource P N)

/-- The walk is at a pool that can be reached, and has claimed its identities. -/
structure RefinesAt (root : FallbackTask P) (rootEvent : WalkEvent)
    (claims : Set (UInt64 × BitVec 128) → Prop) (view : WalkView) (held : Held P N)
    (pool : WalkPool P N) : Prop where
  reachable : pool.Reachable source root
  total : view.published + held = pool.total source rootEvent
  nextDirectoryId : view.nextDirectoryId = (directoryIdAt pool.directories.length).val
  nextFileId : view.nextFileId = fileIdAt pool.issued
  claims : claims (claimedIdentities pool.files)

def Refines (root : FallbackTask P) (rootEvent : WalkEvent)
    (claims : Set (UInt64 × BitVec 128) → Prop) (view : WalkView) (held : Held P N) : Prop :=
  ∃ pool : WalkPool P N, RefinesAt source root rootEvent claims view held pool

/-! ## Steps -/

theorem fileIdAt_add (index count : ℕ) : fileIdAt index + .ofNat count = fileIdAt (index + count) := by
  simp [fileIdAt, UInt64.ofNat_add, add_assoc]

theorem directoryIdAt_succ (index : ℕ) :
    (directoryIdAt index).val + 1 = (directoryIdAt (index + 1)).val := by
  simp [directoryIdAt, UInt64.ofNat_add, add_assoc]

/-- The identity of an entry, when there are bytes to claim for it. -/
def claimedBy (entry : FindEntry N) : Set (UInt64 × BitVec 128) :=
  {identity | entry.physicalIdentity = some identity ∧ entry.allocationBytes ≠ 0}

theorem claimedBy_union {entry : FindEntry N} (claimed : Set (UInt64 × BitVec 128))
    (h : ∀ identity, entry.physicalIdentity = some identity → entry.allocationBytes = 0) :
    claimedBy entry ∪ claimed = claimed := by
  refine Set.union_eq_right.mpr fun identity hclaimed ↦ ?_
  exact (hclaimed.2 (h identity hclaimed.1)).elim

omit [DecidableEq P] in
/-- The identities claimed after one more file. -/
theorem claimedIdentities_cons (file : NumberedFile P N) (bytes : UInt64)
    (files : Multiset (NumberedFile P N × UInt64)) :
    claimedIdentities ((file, bytes) ::ₘ files) =
      claimedBy file.entry ∪ claimedIdentities files := by
  ext identity
  simp [claimedIdentities, claimedBy]

section Steps

variable {source} {root task : FallbackTask P} {rootEvent event : WalkEvent}
  {claims : Set (UInt64 × BitVec 128) → Prop} {view : WalkView}
  {held used made others : Held P N} {pool next : WalkPool P N} {work : WorkPart P N}

/-- The work to be done next. -/
theorem RefinesAt.parts (h : RefinesAt source root rootEvent claims view (.part work + others) pool) :
    pool.parts = work ::ₘ others.parts := by
  have hparts := congrArg Held.parts h.total
  simpa [WalkView.published, Held.part, WalkPool.total] using hparts.symm

omit [DecidableEq P] in
/-- A step of the pool turns some of what is held into something else. -/
theorem RefinesAt.exchange (h : view.published + (used + others) = pool.total source rootEvent)
    (hpool : next.total source rootEvent + used = pool.total source rootEvent + made) :
    view.published + (made + others) = next.total source rootEvent := by
  rw [← h] at hpool
  refine add_right_cancel (b := used) (hpool.trans ?_).symm
  abel

namespace Refines

/-- A directory is read. -/
theorem read (h : Refines source root rootEvent claims view (.part (.directory task) + others)) :
    Refines source root rootEvent claims view ({ parts := source.outcomeParts task } + others) := by
  obtain ⟨pool, h⟩ := h
  refine ⟨_, h.reachable.tail (.read h.parts), RefinesAt.exchange h.total ?_, h.nextDirectoryId,
    h.nextFileId, h.claims⟩
  refine Held.ext ?_ rfl rfl rfl rfl rfl
  simp only [WalkPool.total, Held.part, h.parts, Held.parts_add, ← Multiset.singleton_add]
  abel

theorem skip (h : Refines source root rootEvent claims view
      (.part (.outcome task .skipped) + others)) :
    Refines source root rootEvent claims view others := by
  obtain ⟨pool, h⟩ := h
  refine ⟨_, h.reachable.tail (.skip h.parts), ?_, h.nextDirectoryId, h.nextFileId, h.claims⟩
  rw [← zero_add others]
  refine RefinesAt.exchange h.total (Held.ext ?_ rfl rfl rfl rfl rfl)
  simp only [WalkPool.total, Held.part, h.parts, Held.parts_add, Held.parts_zero,
    ← Multiset.singleton_add]
  abel

/-- A file gets the next id. -/
theorem number {entry : FindEntry N} (h : Refines source root rootEvent claims view
      (.part (.outcome task (.file entry)) + others)) :
    Refines source root rootEvent claims { view with nextFileId := view.nextFileId + 1 }
      (.part (.numbered ⟨task, entry, view.nextFileId⟩) + others) := by
  obtain ⟨pool, h⟩ := h
  refine ⟨_, h.reachable.tail (.number h.parts), ?_, h.nextDirectoryId, ?_, h.claims⟩
  · change view.published + _ = _
    refine RefinesAt.exchange h.total (Held.ext ?_ rfl rfl rfl rfl rfl)
    simp only [WalkPool.total, Held.part, h.parts, h.nextFileId, Held.parts_add,
      ← Multiset.singleton_add]
    abel
  · simpa [h.nextFileId] using fileIdAt_add pool.issued 1

/-- The bytes of a file are claimed. -/
theorem claim {file : NumberedFile P N}
    (h : Refines source root rootEvent claims view (.part (.numbered file) + others)) :
    ∃ claimed, claims claimed ∧
      ∀ (bytes : UInt64) (claims' : Set (UInt64 × BitVec 128) → Prop),
        Granted claimed file.entry bytes → claims' (claimedBy file.entry ∪ claimed) →
          Refines source root rootEvent claims' view
            (.record (.file (fileRecord source file.id file.task.directoryId file.entry bytes)) +
              .amounts 1 file.entry.sizeBytes.toNat bytes.toNat + others) := by
  obtain ⟨pool, h⟩ := h
  refine ⟨_, h.claims, fun bytes claims' hbytes hclaims ↦ ⟨_, h.reachable.tail (.claim h.parts hbytes),
    RefinesAt.exchange h.total ?_, h.nextDirectoryId, h.nextFileId, ?_⟩⟩
  swap
  · rwa [claimedIdentities_cons]
  ext1
  case parts =>
    simp only [WalkPool.total, Held.part, Held.record, Held.amounts, h.parts, Held.parts_add,
      ← Multiset.singleton_add]
    abel
  case records =>
    simp only [WalkPool.total, WalkPool.events, WalkPool.fileRecords, WalkPool.directoryRecords,
      Held.part, Held.record, Held.amounts, Held.records_add, Multiset.map_cons]
    simp only [← Multiset.singleton_add]
    abel
  case directories => rfl
  case files => simp [WalkPool.total, Held.part, Held.record, Held.amounts]
  case logical =>
    simp [WalkPool.total, Held.part, Held.record, Held.amounts, add_comm]
  case physical =>
    simp [WalkPool.total, Held.part, Held.record, Held.amounts, add_comm]

/-- A directory gets the next id. -/
theorem assign {path : P} {name : N} {decision : ReparseDecision P}
    (h : Refines source root rootEvent claims view
      (.part (.outcome task (.directory path name decision)) + others)) :
    Refines source root rootEvent claims { view with nextDirectoryId := view.nextDirectoryId + 1 }
      ({ parts := directoryParts (decision.task path ⟨view.nextDirectoryId⟩).toList } +
        .record (.directory (directoryRecord source view.nextDirectoryId (some task.directoryId) path
          (source.displayName name))) + .uncounted 1 + others) := by
  obtain ⟨pool, h⟩ := h
  have hid : directoryIdAt pool.directories.length = ⟨view.nextDirectoryId⟩ := by
    rw [h.nextDirectoryId]
  refine ⟨_, h.reachable.tail (.assign h.parts), ?_, ?_, h.nextFileId, h.claims⟩
  · change view.published + _ = _
    refine RefinesAt.exchange h.total ?_
    ext1
    case parts =>
      simp only [WalkPool.total, Held.part, Held.record, Held.uncounted, h.parts, hid,
        Held.parts_add, ← Multiset.singleton_add]
      abel
    case records =>
      simp only [WalkPool.total, WalkPool.events, WalkPool.fileRecords, WalkPool.directoryRecords,
        List.zipIdx_append, List.map_append, ← Multiset.coe_add, List.zipIdx_cons, List.zipIdx_nil,
        List.map_cons, List.map_nil, Nat.zero_add, Multiset.coe_singleton, Held.part, Held.record,
        Held.uncounted, Held.records_add, WalkPool.recordAt, hid, ← Multiset.singleton_add, add_zero]
      abel
    case directories =>
      simp [WalkPool.total, Held.part, Held.record, Held.uncounted, add_assoc]
    case files => rfl
    case logical => rfl
    case physical => rfl
  · simpa [h.nextDirectoryId] using directoryIdAt_succ pool.directories.length

/-- Some of what is held is published. -/
theorem publish (h : Refines source root rootEvent claims view (used + others)) {view' : WalkView}
    (hpublished : view'.published = view.published + used)
    (hdirectory : view'.nextDirectoryId = view.nextDirectoryId)
    (hfile : view'.nextFileId = view.nextFileId) :
    Refines source root rootEvent claims view' others := by
  obtain ⟨pool, h⟩ := h
  refine ⟨pool, h.reachable, ?_, hdirectory.trans h.nextDirectoryId, hfile.trans h.nextFileId,
    h.claims⟩
  rw [hpublished, add_assoc]
  exact h.total

/-- A record is emitted. -/
theorem emit (h : Refines source root rootEvent claims view (.record event + others)) :
    Refines source root rootEvent claims { view with events := view.events ++ [event] } others := by
  refine h.publish (Held.ext rfl ?_ rfl rfl rfl rfl) rfl rfl
  simp [WalkView.published, Held.record, ← Multiset.coe_add]

end Refines

/-! ## Bounds -/

section Bounds

variable {allocation : UInt64 × BitVec 128 → UInt64} {depth : ℕ}

/-- The amounts of a walk fit. -/
theorem Refines.bounds (hwalk : source.Bounded allocation depth root.visit)
    (h : Refines source root rootEvent claims view held) :
    view.directoriesSeen.toNat + held.directories ≤ maxValue ∧
      view.filesSeen.toNat + held.files ≤ maxValue ∧
      view.totalSizeBytes.toNat + held.logical ≤ maxValue ∧
      view.totalAllocationBytes.toNat + held.physical ≤ maxValue := by
  obtain ⟨pool, h⟩ := h
  have haccount := h.reachable.accounted hwalk
  have hfits := hwalk.fits
  have htotal := h.total
  simp only [Held.ext_iff, WalkView.published, WalkPool.total, Held.directories_add,
    Held.files_add, Held.logical_add, Held.physical_add] at htotal
  obtain ⟨-, -, hdirectories, hfiles, hlogical, hphysical⟩ := htotal
  rw [hdirectories, hfiles, hlogical, hphysical]
  refine ⟨?_, ?_, ?_, ?_⟩
  · have hle := haccount.length_directories_le
    have hlt := hfits.directories
    unfold maxValue
    omega
  · have hle := haccount.card_files_le
    have hlt := hfits.files
    unfold maxValue
    omega
  · exact haccount.logical_le.trans (Nat.le_sub_one_of_lt hfits.logical)
  · exact haccount.physical_le.trans (Nat.le_sub_one_of_lt hfits.physical)

/-- The next id of a directory is not the last number. -/
theorem Refines.nextDirectoryId_lt (hwalk : source.Bounded allocation depth root.visit) {path : P}
    {name : N} {decision : ReparseDecision P} (h : Refines source root rootEvent claims view
      (.part (.outcome task (.directory path name decision)) + others)) :
    view.nextDirectoryId.toNat + 1 ≤ maxValue := by
  obtain ⟨pool, h⟩ := h
  have hnext : WalkPool.Reachable source root _ := h.reachable.tail (.assign h.parts)
  have hle := (hnext.accounted hwalk).length_directories_le
  have hlt := hwalk.fits.directories
  simp only [List.length_append, List.length_singleton] at hle
  rw [h.nextDirectoryId]
  simp only [directoryIdAt, UInt64.toNat_ofNat']
  unfold maxValue
  omega

/-- The next id of a file is not the last number. -/
theorem Refines.nextFileId_lt (hwalk : source.Bounded allocation depth root.visit)
    {entry : FindEntry N} (h : Refines source root rootEvent claims view
      (.part (.outcome task (.file entry)) + others)) :
    view.nextFileId.toNat + 1 ≤ maxValue := by
  obtain ⟨pool, h⟩ := h
  have hnext : WalkPool.Reachable source root _ := h.reachable.tail (.number h.parts)
  have hle := (hnext.accounted hwalk).issued_le
  have hlt := hwalk.fits.files
  simp only at hle
  rw [h.nextFileId]
  simp only [fileIdAt, UInt64.toNat_ofNat']
  unfold maxValue
  omega

end Bounds

end Steps

/-! ## Entries -/

section Entries

variable {source} {task : FallbackTask P}

/-- The work of entries that are not looked at yet. -/
def entryParts (source : WalkSource P N) (task : FallbackTask P)
    (entries : List (Option (FindEntry N))) : Held P N where
  parts := (entries.map (fun entry ↦
    .outcome task (entryOutcome source task.path task.ancestors entry)) : List (WorkPart P N))

theorem entryParts_cons (entry : Option (FindEntry N)) (entries : List (Option (FindEntry N))) :
    entryParts source task (entry :: entries) =
      .part (.outcome task (entryOutcome source task.path task.ancestors entry)) +
        entryParts source task entries := by
  refine Held.ext ?_ rfl rfl rfl rfl rfl
  simp [entryParts, Held.part]

theorem entryParts_getD (entries : List (Option (FindEntry N)))
    (h : source.readDir task.path = some entries) :
    ({ parts := source.outcomeParts task } : Held P N) = entryParts source task entries := by
  refine Held.ext ?_ rfl rfl rfl rfl rfl
  simp only [entryParts, WalkSource.outcomeParts, WalkSource.outcomes, FallbackTask.visit, h,
    Option.getD_some, List.map_map]
  rfl

end Entries

/-! ## Claims -/

theorem TrackedVolumes.exists_claim (order : IterationOrder) {tracker : TrackedVolumes}
    {claimed : Set (UInt64 × BitVec 128)} (h : tracker.Represents claimed) {entry : FindEntry N}
    {identity : UInt64 × BitVec 128} (hidentity : entry.physicalIdentity = some identity) :
    ∃ bytes next, tracker.claim order identity.1 identity.2 entry.allocationBytes =
        some (bytes, next) ∧
      Granted claimed entry bytes ∧ next.Represents (claimedBy entry ∪ claimed) := by
  obtain ⟨bytes, next, hclaim, hzero, hpos⟩ := TrackedVolumes.tracksFirst.step tracker claimed
    ⟨order, identity.1, identity.2, entry.allocationBytes⟩ h
  refine ⟨bytes, next, hclaim, ?_, ?_⟩
  · simp only [Granted, hidentity]
    by_cases hbytes : entry.allocationBytes = 0
    · have hanswer := (hzero hbytes).1
      exact ⟨fun _ ↦ hanswer, fun _ ↦ hanswer.trans hbytes.symm⟩
    · exact (hpos hbytes).2
  · by_cases hbytes : entry.allocationBytes = 0
    · have hnone : claimedBy entry ∪ claimed = claimed := by
        ext other
        simp [claimedBy, hbytes]
      rw [hnone]
      exact (hzero hbytes).2
    · have hone : claimedBy entry ∪ claimed = insert identity claimed := by
        ext other
        simp [claimedBy, hbytes, hidentity, eq_comm]
      rw [hone]
      exact (hpos hbytes).1

end WinBlaze
