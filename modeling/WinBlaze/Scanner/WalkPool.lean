import Mathlib.Data.Multiset.Range
import Mathlib.Logic.Relation
import Mathlib.Tactic.Abel
import WinBlaze.Scanner.DirectoryTree
import WinBlaze.Scanner.FallbackDirectory

/-!
# The walk as a pool of work

A walk that has no order: some directories, entries and files are still to be
dealt with, and any of them may be next. What comes out depends on the tree
only.
-/

namespace WinBlaze

/-- A file with its id. -/
structure NumberedFile (P N : Type*) where
  task : FallbackTask P
  entry : FindEntry N
  id : UInt64

/-- A directory that has an id. -/
structure FoundDirectory (P N : Type*) where
  parent : FallbackTask P
  path : P
  name : N
  decision : ReparseDecision P

/-- A piece of work. -/
inductive WorkPart (P N : Type*)
  | directory (task : FallbackTask P)
  | outcome (task : FallbackTask P) (outcome : EntryOutcome P N)
  | numbered (file : NumberedFile P N)

/-- The work to be done, the number of file ids given, the files with the bytes
claimed for them, and the directories in the order of their ids. -/
structure WalkPool (P N : Type*) where
  parts : Multiset (WorkPart P N)
  issued : ℕ
  files : Multiset (NumberedFile P N × UInt64)
  directories : List (FoundDirectory P N)

variable {P N : Type*}

def FallbackTask.visit (task : FallbackTask P) : Visit P :=
  { path := task.path, ancestors := task.ancestors }

def WorkPart.task : WorkPart P N → FallbackTask P
  | directory task => task
  | outcome task _ => task
  | numbered file => file.task

/-- The id of a directory after so many others. -/
def directoryIdAt (index : ℕ) : DirectoryId := ⟨.ofNat (6 + index)⟩

/-- The id of a file after so many others. -/
def fileIdAt (index : ℕ) : UInt64 := .ofNat (1 + index)

/-- The identities for which bytes were claimed. -/
def claimedIdentities (files : Multiset (NumberedFile P N × UInt64)) : Set (UInt64 × BitVec 128) :=
  {identity | ∃ file ∈ files,
    file.1.entry.physicalIdentity = some identity ∧ file.1.entry.allocationBytes ≠ 0}

/-- The bytes for an entry, when some identities are claimed. -/
def Granted (claimed : Set (UInt64 × BitVec 128)) (entry : FindEntry N) (bytes : UInt64) : Prop :=
  match entry.physicalIdentity with
  | some identity =>
      (identity ∈ claimed → bytes = 0) ∧ (identity ∉ claimed → bytes = entry.allocationBytes)
  | none => bytes = entry.allocationBytes

/-- The work of queued directories. -/
def directoryParts (tasks : List (FallbackTask P)) : Multiset (WorkPart P N) :=
  (tasks.map .directory : List (WorkPart P N))

variable [DecidableEq P] (source : WalkSource P N)

/-- The work of a directory. -/
def WalkSource.outcomeParts (task : FallbackTask P) : Multiset (WorkPart P N) :=
  (source.outcomes task.visit).map (WorkPart.outcome task)

/-- A piece of work is done, and others come from it. -/
inductive PoolStep : WalkPool P N → WalkPool P N → Prop
  | read {pool : WalkPool P N} {task : FallbackTask P} {others : Multiset (WorkPart P N)}
      (hparts : pool.parts = .directory task ::ₘ others) :
      PoolStep pool { pool with parts := source.outcomeParts task + others }
  | skip {pool : WalkPool P N} {task : FallbackTask P} {others : Multiset (WorkPart P N)}
      (hparts : pool.parts = .outcome task .skipped ::ₘ others) :
      PoolStep pool { pool with parts := others }
  | number {pool : WalkPool P N} {task : FallbackTask P} {entry : FindEntry N}
      {others : Multiset (WorkPart P N)}
      (hparts : pool.parts = .outcome task (.file entry) ::ₘ others) :
      PoolStep pool
        { pool with
          parts := .numbered ⟨task, entry, fileIdAt pool.issued⟩ ::ₘ others
          issued := pool.issued + 1 }
  | claim {pool : WalkPool P N} {file : NumberedFile P N} {others : Multiset (WorkPart P N)}
      {bytes : UInt64} (hparts : pool.parts = .numbered file ::ₘ others)
      (hbytes : Granted (claimedIdentities pool.files) file.entry bytes) :
      PoolStep pool { pool with parts := others, files := (file, bytes) ::ₘ pool.files }
  | assign {pool : WalkPool P N} {task : FallbackTask P} {path : P} {name : N}
      {decision : ReparseDecision P} {others : Multiset (WorkPart P N)}
      (hparts : pool.parts = .outcome task (.directory path name decision) ::ₘ others) :
      PoolStep pool
        { pool with
          parts :=
            directoryParts (decision.task path (directoryIdAt pool.directories.length)).toList +
              others
          directories := pool.directories ++ [⟨task, path, name, decision⟩] }

/-- The root is to be read. -/
def WalkPool.initial (root : FallbackTask P) : WalkPool P N where
  parts := {.directory root}
  issued := 0
  files := 0
  directories := []

/-- The pools a walk of a root can reach. -/
def WalkPool.Reachable (root : FallbackTask P) (pool : WalkPool P N) : Prop :=
  Relation.ReflTransGen (PoolStep source) (.initial root) pool

/-! ## Nothing is lost -/

section Remaining

variable {M : Type*} [AddCommMonoid M] (own : Visit P → EntryOutcome P N → M) (depth : ℕ)

/-- What is still to come from a piece of work. -/
def WorkPart.remaining : WorkPart P N → M
  | directory task => source.tree.gather own depth task.visit
  | outcome task found => source.tree.below own depth task.visit found
  | numbered file => own file.task.visit (.file file.entry)

namespace WalkPool

/-- What came out so far. -/
def gathered (pool : WalkPool P N) : M :=
  (pool.files.map (fun file ↦ own file.1.task.visit (.file file.1.entry))).sum +
    (pool.directories.map (fun found ↦
      own found.parent.visit (.directory found.path found.name found.decision))).sum

def remaining (pool : WalkPool P N) : M :=
  (pool.parts.map (WorkPart.remaining source own depth)).sum

end WalkPool

end Remaining

/-- The directory, or the one an entry leads to, is in a finite tree. -/
def WorkPart.Bounded (depth : ℕ) : WorkPart P N → Prop
  | directory task => source.tree.DepthAtMost depth task.visit
  | outcome _ found => ∀ child ∈ found.visit, source.tree.DepthAtMost depth child
  | numbered _ => True

variable {source} {root task : FallbackTask P} {pool next : WalkPool P N} {depth : ℕ}

omit [DecidableEq P] in
theorem task_mem_iff {decision : ReparseDecision P} {path : P} (name : N) {id : DirectoryId} :
    task ∈ decision.task path id ↔ task.directoryId = id ∧ task.path = path ∧
      task.visit ∈ (EntryOutcome.directory path name decision).visit := by
  cases task
  cases decision <;>
    simp [ReparseDecision.task, EntryOutcome.visit, FallbackTask.visit, and_comm, and_left_comm,
      eq_comm]

/-- The work of a directory is in the same bound. -/
theorem bounded_outcomeParts (h : source.tree.DepthAtMost depth task.visit) :
    ∀ part ∈ source.outcomeParts task, part.Bounded source depth := by
  intro part hpart
  obtain ⟨outcome, houtcome, rfl⟩ := List.mem_map.mp (Multiset.mem_coe.mp hpart)
  exact fun child hchild ↦ h.of_next houtcome hchild

theorem PoolStep.bounded (hstep : PoolStep source pool next)
    (h : ∀ part ∈ pool.parts, part.Bounded source depth) :
    ∀ part ∈ next.parts, part.Bounded source depth := by
  cases hstep with
  | @read task others hparts =>
      simp only [hparts, Multiset.forall_mem_cons] at h
      intro part hpart
      rcases Multiset.mem_add.mp hpart with hnew | hother
      · exact bounded_outcomeParts h.1 part hnew
      · exact h.2 part hother
  | skip hparts =>
      simp only [hparts, Multiset.forall_mem_cons] at h
      exact h.2
  | number hparts =>
      simp only [hparts, Multiset.forall_mem_cons] at h
      exact Multiset.forall_mem_cons.mpr ⟨trivial, h.2⟩
  | claim hparts hbytes =>
      simp only [hparts, Multiset.forall_mem_cons] at h
      exact h.2
  | @assign task path name decision others hparts =>
      simp only [hparts, Multiset.forall_mem_cons] at h
      intro part hpart
      rcases Multiset.mem_add.mp hpart with hnew | hother
      · obtain ⟨child, hchild, rfl⟩ := List.mem_map.mp (Multiset.mem_coe.mp hnew)
        exact h.1 _ ((task_mem_iff name).mp (Option.mem_toList.mp hchild)).2.2
      · exact h.2 part hother

/-- What came out and what is to come add up to the tree. -/
theorem PoolStep.gathered {M : Type*} [AddCommMonoid M] {own : Visit P → EntryOutcome P N → M}
    (hskip : ∀ visit, own visit .skipped = 0) (hstep : PoolStep source pool next)
    (h : ∀ part ∈ pool.parts, part.Bounded source depth) :
    next.gathered own + next.remaining source own depth =
      pool.gathered own + pool.remaining source own depth := by
  cases hstep with
  | @read task others hparts =>
      have hbound : source.tree.DepthAtMost depth task.visit :=
        h (.directory task) (by simp [hparts])
      have hread : ((source.outcomeParts task).map (WorkPart.remaining source own depth)).sum =
          source.tree.gather own depth task.visit := by
        simp only [Unfolding.gather_eq_sum hbound, WalkSource.outcomeParts, Multiset.map_coe,
          Multiset.sum_coe, List.map_map]
        rfl
      simp only [WalkPool.remaining, hparts, Multiset.map_add, Multiset.sum_add, hread,
        Multiset.map_cons, Multiset.sum_cons]
      rfl
  | skip hparts =>
      simp [WalkPool.remaining, WalkPool.gathered, hparts, WorkPart.remaining, Unfolding.below,
        hskip, WalkSource.tree, EntryOutcome.visit]
  | number hparts =>
      simp [WalkPool.remaining, WalkPool.gathered, hparts, WorkPart.remaining, Unfolding.below,
        WalkSource.tree, EntryOutcome.visit]
  | claim hparts hbytes =>
      simp only [WalkPool.remaining, WalkPool.gathered, hparts, WorkPart.remaining,
        Multiset.map_cons, Multiset.sum_cons]
      abel
  | @assign task path name decision others hparts =>
      have hchild : ((directoryParts (decision.task path
          (directoryIdAt pool.directories.length)).toList).map
            (WorkPart.remaining source own depth)).sum =
          ((EntryOutcome.directory path name decision).visit).elim 0
            (source.tree.gather own depth) := by
        cases decision <;> simp [ReparseDecision.task, EntryOutcome.visit, FallbackTask.visit,
          directoryParts, WorkPart.remaining]
      have hpart : WorkPart.remaining source own depth
          (.outcome task (.directory path name decision)) =
          own task.visit (.directory path name decision) +
            ((EntryOutcome.directory path name decision).visit).elim 0
              (source.tree.gather own depth) := rfl
      simp only [WalkPool.remaining, WalkPool.gathered, hparts, Multiset.map_add, Multiset.sum_add,
        hchild, Multiset.map_cons, Multiset.sum_cons, hpart, List.map_append, List.sum_append,
        List.map_cons, List.map_nil, List.sum_cons, List.sum_nil]
      abel

/-! ## Ids -/

/-- The id of a file that is not claimed yet. -/
def WorkPart.fileIds : WorkPart P N → Multiset UInt64
  | numbered file => {file.id}
  | _ => 0

/-- The file ids that were given. -/
def WalkPool.fileIds (pool : WalkPool P N) : Multiset UInt64 :=
  pool.files.map (fun file ↦ file.1.id) + (pool.parts.map WorkPart.fileIds).sum

theorem PoolStep.fileIds (hstep : PoolStep source pool next)
    (h : pool.fileIds = (Multiset.range pool.issued).map fileIdAt) :
    next.fileIds = (Multiset.range next.issued).map fileIdAt := by
  cases hstep with
  | @read task others hparts =>
      have hnone : ((source.outcomeParts task).map WorkPart.fileIds).sum = 0 := by
        refine Multiset.sum_eq_zero fun ids hids ↦ ?_
        obtain ⟨part, hpart, rfl⟩ := Multiset.mem_map.mp hids
        obtain ⟨outcome, -, rfl⟩ := List.mem_map.mp (Multiset.mem_coe.mp hpart)
        rfl
      refine Eq.trans ?_ h
      simp [WalkPool.fileIds, hparts, hnone, WorkPart.fileIds]
  | skip hparts =>
      refine Eq.trans ?_ h
      simp [WalkPool.fileIds, hparts, WorkPart.fileIds]
  | @number task entry others hparts =>
      have hbefore : pool.fileIds =
          pool.files.map (fun file ↦ file.1.id) + (others.map WorkPart.fileIds).sum := by
        simp only [WalkPool.fileIds, hparts, WorkPart.fileIds, Multiset.map_cons,
          Multiset.sum_cons, zero_add]
      rw [Multiset.range_succ, Multiset.map_cons, ← h, hbefore]
      simp only [WalkPool.fileIds, Multiset.map_cons, Multiset.sum_cons, WorkPart.fileIds,
        Multiset.singleton_add, Multiset.add_cons]
  | claim hparts hbytes =>
      refine Eq.trans ?_ h
      simp only [WalkPool.fileIds, hparts, Multiset.map_cons, Multiset.sum_cons, WorkPart.fileIds,
        Multiset.cons_add, Multiset.singleton_add, Multiset.add_cons]
  | @assign task path name decision others hparts =>
      have hnone : ((directoryParts (decision.task path
          (directoryIdAt pool.directories.length)).toList : Multiset (WorkPart P N)).map
            WorkPart.fileIds).sum = 0 := by
        cases decision <;> simp [ReparseDecision.task, directoryParts, WorkPart.fileIds]
      refine Eq.trans ?_ h
      simp only [WalkPool.fileIds, hparts, Multiset.map_add, Multiset.sum_add, hnone,
        Multiset.map_cons, Multiset.sum_cons, WorkPart.fileIds]

/-- The directory of the task has its id. -/
def WalkPool.Names (root : FallbackTask P) (pool : WalkPool P N) (task : FallbackTask P) : Prop :=
  task.directoryId = root.directoryId ∧ task.path = root.path ∨
    ∃ index found, pool.directories[index]? = some found ∧
      task.directoryId = directoryIdAt index ∧ task.path = found.path

/-- All work is named. -/
structure WalkPool.Named (root : FallbackTask P) (pool : WalkPool P N) : Prop where
  parts : ∀ part ∈ pool.parts, pool.Names root part.task
  files : ∀ file ∈ pool.files, pool.Names root file.1.task
  directories : ∀ found ∈ pool.directories, pool.Names root found.parent

omit [DecidableEq P] in
theorem WalkPool.Names.concat (h : pool.Names root task) (parts : Multiset (WorkPart P N))
    (found : FoundDirectory P N) :
    WalkPool.Names root
      { pool with parts := parts, directories := pool.directories ++ [found] } task := by
  rcases h with hroot | ⟨index, other, hother, hid⟩
  · exact Or.inl hroot
  · refine Or.inr ⟨index, other, ?_, hid⟩
    obtain ⟨hlt, -⟩ := List.getElem?_eq_some_iff.mp hother
    exact (List.getElem?_append_left hlt).trans hother

theorem PoolStep.named (hstep : PoolStep source pool next) (h : pool.Named root) :
    next.Named root := by
  have hparts' := h.parts
  cases hstep with
  | @read task others hparts =>
      simp only [hparts, Multiset.forall_mem_cons] at hparts'
      refine ⟨fun part hpart ↦ ?_, h.files, h.directories⟩
      rcases Multiset.mem_add.mp hpart with hnew | hother
      · obtain ⟨outcome, -, rfl⟩ := List.mem_map.mp (Multiset.mem_coe.mp hnew)
        exact hparts'.1
      · exact hparts'.2 part hother
  | skip hparts =>
      simp only [hparts, Multiset.forall_mem_cons] at hparts'
      exact ⟨hparts'.2, h.files, h.directories⟩
  | number hparts =>
      simp only [hparts, Multiset.forall_mem_cons] at hparts'
      exact ⟨Multiset.forall_mem_cons.mpr ⟨hparts'.1, hparts'.2⟩, h.files, h.directories⟩
  | claim hparts hbytes =>
      simp only [hparts, Multiset.forall_mem_cons] at hparts'
      exact ⟨hparts'.2, Multiset.forall_mem_cons.mpr ⟨hparts'.1, h.files⟩, h.directories⟩
  | @assign task path name decision others hparts =>
      simp only [hparts, Multiset.forall_mem_cons] at hparts'
      refine ⟨fun part hpart ↦ ?_, fun file hfile ↦ (h.files file hfile).concat _ _,
        fun found hfound ↦ ?_⟩
      · rcases Multiset.mem_add.mp hpart with hnew | hother
        · obtain ⟨child, hchild, rfl⟩ := List.mem_map.mp (Multiset.mem_coe.mp hnew)
          obtain ⟨hid, hpath, -⟩ := (task_mem_iff name).mp (Option.mem_toList.mp hchild)
          exact Or.inr ⟨pool.directories.length, ⟨task, path, name, decision⟩,
            List.getElem?_concat_length, hid, hpath⟩
        · exact (hparts'.2 part hother).concat _ _
      · rcases List.mem_append.mp hfound with hold | hnew
        · exact (h.directories found hold).concat _ _
        · obtain rfl := List.mem_singleton.mp hnew
          exact hparts'.1.concat _ _

/-! ## Physical bytes -/

theorem Granted.eq_zero {claimed : Set (UInt64 × BitVec 128)} {entry : FindEntry N} {bytes : UInt64}
    (h : Granted claimed entry bytes) (hzero : entry.allocationBytes = 0) : bytes = 0 := by
  unfold Granted at h
  cases hidentity : entry.physicalIdentity with
  | none =>
      simp only [hidentity] at h
      exact h.trans hzero
  | some identity =>
      simp only [hidentity, hzero] at h
      by_cases hclaimed : identity ∈ claimed
      · exact h.1 hclaimed
      · exact h.2 hclaimed

/-- A claim is granted no more bytes than its identity adds to those of the files before. -/
theorem Granted.add_le {allocation : UInt64 × BitVec 128 → UInt64} {claimed : Set (UInt64 × BitVec 128)}
    {entry : FindEntry N} {bytes : UInt64} {entries : Multiset (FindEntry N)}
    (h : Granted claimed entry bytes) (hclaimed : ∀ identity ∈ identitiesOf entries, identity ∈ claimed)
    (hmost : ∀ identity ∈ entry.physicalIdentity, entry.allocationBytes ≤ allocation identity) :
    bytes.toNat + physicalBytes allocation entries ≤ physicalBytes allocation (entry ::ₘ entries) := by
  unfold Granted at h
  cases hidentity : entry.physicalIdentity with
  | none =>
      simp only [hidentity] at h
      rw [physicalBytes_cons_none hidentity, h]
  | some identity =>
      simp only [hidentity] at h
      rw [physicalBytes_cons_some hidentity]
      refine Nat.add_le_add_right ?_ _
      by_cases hbefore : identity ∈ claimed
      · rw [h.1 hbefore, UInt64.toNat_zero]
        exact Nat.zero_le _
      · rw [if_neg fun hmem ↦ hbefore (hclaimed identity hmem), h.2 hbefore]
        exact UInt64.le_iff_toNat_le.mp (hmost identity hidentity)

/-- No more bytes are claimed than the identities have that they were claimed for. -/
theorem PoolStep.physical_le {allocation : UInt64 × BitVec 128 → UInt64}
    (hstep : PoolStep source pool next)
    (hmost : ∀ file ∈ next.files, ∀ identity ∈ file.1.entry.physicalIdentity,
      file.1.entry.allocationBytes ≤ allocation identity)
    (h : (pool.files.map (fun file ↦ file.2.toNat)).sum ≤ physicalBytes allocation
      ((pool.files.map (fun file ↦ file.1.entry)).filter (·.allocationBytes ≠ 0))) :
    (next.files.map (fun file ↦ file.2.toNat)).sum ≤ physicalBytes allocation
      ((next.files.map (fun file ↦ file.1.entry)).filter (·.allocationBytes ≠ 0)) := by
  cases hstep with
  | read hparts => exact h
  | skip hparts => exact h
  | number hparts => exact h
  | assign hparts => exact h
  | @claim file others bytes hparts hbytes =>
      simp only [Multiset.forall_mem_cons] at hmost
      simp only [Multiset.map_cons, Multiset.sum_cons]
      by_cases hzero : file.entry.allocationBytes = 0
      · rw [Multiset.filter_cons_of_neg _ (by simpa using hzero), hbytes.eq_zero hzero,
          UInt64.toNat_zero, Nat.zero_add]
        exact h
      · have hfilter : (file.entry ::ₘ pool.files.map (fun file ↦ file.1.entry)).filter
            (·.allocationBytes ≠ 0) = file.entry ::ₘ
              (pool.files.map (fun file ↦ file.1.entry)).filter (·.allocationBytes ≠ 0) :=
          Multiset.filter_cons_of_pos _ hzero
        rw [hfilter]
        refine (Nat.add_le_add_left h _).trans (hbytes.add_le (fun identity hmem ↦ ?_) hmost.1)
        -- a file that counts for the identity has claimed it
        obtain ⟨entry, hentry, hsome⟩ := mem_identitiesOf.mp hmem
        obtain ⟨hentry, hnonzero⟩ := Multiset.mem_filter.mp hentry
        obtain ⟨other, hother, rfl⟩ := Multiset.mem_map.mp hentry
        exact ⟨other, hother, hsome, hnonzero⟩

/-- The bytes claimed are the physical bytes of the files. -/
theorem PoolStep.physical {allocation : UInt64 × BitVec 128 → UInt64}
    (hstep : PoolStep source pool next)
    (halloc : ∀ file ∈ next.files, ∀ identity ∈ file.1.entry.physicalIdentity,
      file.1.entry.allocationBytes = allocation identity)
    (h : (pool.files.map (fun file ↦ file.2.toNat)).sum =
      physicalBytes allocation (pool.files.map (fun file ↦ file.1.entry))) :
    (next.files.map (fun file ↦ file.2.toNat)).sum =
      physicalBytes allocation (next.files.map (fun file ↦ file.1.entry)) := by
  cases hstep with
  | read hparts => exact h
  | skip hparts => exact h
  | number hparts => exact h
  | assign hparts => exact h
  | @claim file others bytes hparts hbytes =>
      simp only [Multiset.forall_mem_cons] at halloc
      simp only [Multiset.map_cons, Multiset.sum_cons, h]
      unfold Granted at hbytes
      cases hidentity : file.entry.physicalIdentity with
      | none =>
          simp only [hidentity] at hbytes
          simp only [physicalBytes_cons_none hidentity, hbytes]
      | some identity =>
          simp only [hidentity] at hbytes
          have hown := halloc.1 identity hidentity
          simp only [physicalBytes_cons_some hidentity]
          congr 1
          by_cases hclaimed : identity ∈ claimedIdentities pool.files
          · obtain ⟨other, hother, hsome, -⟩ := id hclaimed
            have hmem : identity ∈ identitiesOf (pool.files.map (fun file ↦ file.1.entry)) :=
              mem_identitiesOf.mpr ⟨_, Multiset.mem_map_of_mem _ hother, hsome⟩
            simp only [hbytes.1 hclaimed, if_pos hmem, UInt64.toNat_zero]
          · simp only [hbytes.2 hclaimed, hown]
            split
            case isFalse => rfl
            case isTrue hmem =>
              -- the files before had no bytes either
              obtain ⟨entry, hentry, hsome⟩ := mem_identitiesOf.mp hmem
              obtain ⟨other, hother, rfl⟩ := Multiset.mem_map.mp hentry
              have hzero : other.1.entry.allocationBytes = 0 := by
                by_contra hne
                exact hclaimed ⟨other, hother, hsome, hne⟩
              simp only [← halloc.2 other hother identity hsome, hzero, UInt64.toNat_zero]

/-! ## Runs -/

section Run

variable {allocation : UInt64 × BitVec 128 → UInt64}

namespace WalkPool

omit [DecidableEq P] in
theorem gathered_fileOf (pool : WalkPool P N) :
    pool.gathered fileOf = pool.files.map (fun file ↦ (file.1.task.path, file.1.entry)) := by
  have hfiles := Multiset.bind_singleton pool.files
    (fun file ↦ (file.1.task.path, file.1.entry))
  simpa [gathered, fileOf, FallbackTask.visit, Multiset.bind, Multiset.join] using hfiles

omit [DecidableEq P] in
theorem gathered_directoryOf (pool : WalkPool P N) :
    pool.gathered directoryOf =
      ((pool.directories.map (fun found ↦ (found.path, found.parent.path)) : List (P × P)) :
        Multiset (P × P)) := by
  have hfound := Multiset.bind_singleton (pool.directories : Multiset (FoundDirectory P N))
    (fun found ↦ (found.path, found.parent.path))
  simpa [gathered, directoryOf, FallbackTask.visit, Multiset.bind, Multiset.join] using hfound

/-- What holds of the pools of a walk. -/
structure Accounted (source : WalkSource P N) (allocation : UInt64 × BitVec 128 → UInt64)
    (depth : ℕ) (root : FallbackTask P) (pool : WalkPool P N) : Prop where
  bounded : ∀ part ∈ pool.parts, part.Bounded source depth
  files : pool.files.map (fun file ↦ (file.1.task.path, file.1.entry)) +
    pool.remaining source fileOf depth = source.treeFiles depth root.visit
  directories : pool.gathered directoryOf + pool.remaining source directoryOf depth =
    source.treeDirectories depth root.visit
  fileIds : pool.fileIds = (Multiset.range pool.issued).map fileIdAt
  named : pool.Named root
  physical : (pool.files.map (fun file ↦ file.2.toNat)).sum ≤ physicalBytes allocation
    ((pool.files.map (fun file ↦ file.1.entry)).filter (·.allocationBytes ≠ 0))

theorem accounted_initial (h : source.tree.DepthAtMost depth root.visit) :
    (initial root : WalkPool P N).Accounted source allocation depth root where
  bounded := fun part hpart ↦ Multiset.mem_singleton.mp hpart ▸ h
  files := by simp [initial, remaining, WorkPart.remaining, WalkSource.treeFiles]
  directories := by
    simp [initial, gathered, remaining, WorkPart.remaining, WalkSource.treeDirectories]
  fileIds := by simp [initial, WalkPool.fileIds, WorkPart.fileIds]
  named := ⟨by simp [initial, Names, WorkPart.task], by simp [initial], by simp [initial]⟩
  physical := Nat.zero_le _

/-- The files of the pool are in the tree. -/
theorem mem_treeFiles (h : pool.files.map (fun file ↦ (file.1.task.path, file.1.entry)) +
      pool.remaining source fileOf depth = source.treeFiles depth root.visit) :
    ∀ file ∈ pool.files, (file.1.task.path, file.1.entry) ∈ source.treeFiles depth root.visit := by
  intro file hfile
  rw [← h]
  exact Multiset.mem_add.mpr (Or.inl (Multiset.mem_map_of_mem _ hfile))

theorem Accounted.step (h : pool.Accounted source allocation depth root)
    (hmost : source.AllocatesAtMost allocation depth root.visit)
    (hstep : PoolStep source pool next) : next.Accounted source allocation depth root := by
  have hfiles : next.files.map (fun file ↦ (file.1.task.path, file.1.entry)) +
      next.remaining source fileOf depth = source.treeFiles depth root.visit := by
    rw [← gathered_fileOf, hstep.gathered (fun _ ↦ rfl) h.bounded, gathered_fileOf]
    exact h.files
  refine ⟨hstep.bounded h.bounded, hfiles, ?_, hstep.fileIds h.fileIds, hstep.named h.named,
    hstep.physical_le (fun file hfile ↦ ?_) h.physical⟩
  · rw [hstep.gathered (fun _ ↦ rfl) h.bounded]
    exact h.directories
  · exact hmost _ (mem_treeFiles hfiles file hfile)

theorem Reachable.accounted (hwalk : source.Bounded allocation depth root.visit)
    (h : pool.Reachable source root) : pool.Accounted source allocation depth root := by
  induction h with
  | refl => exact accounted_initial hwalk.finite
  | tail _ hstep ih => exact ih.step hwalk.atMost hstep

/-- Where the allocation of a file is that of its identity, the bytes are those of the files. -/
theorem Reachable.physical (hwalk : source.Walkable allocation depth root.visit)
    (h : pool.Reachable source root) :
    (pool.files.map (fun file ↦ file.2.toNat)).sum =
      physicalBytes allocation (pool.files.map (fun file ↦ file.1.entry)) := by
  induction h with
  | refl => simp [initial, physicalBytes, identitiesOf]
  | tail hreach hstep ih =>
      have haccount := Reachable.accounted hwalk.bounded (hreach.tail hstep)
      exact hstep.physical (fun file hfile ↦ hwalk.allocated _ (mem_treeFiles haccount.files file hfile)) ih

/-! ## Bounds -/

theorem Accounted.files_le (h : pool.Accounted source allocation depth root) :
    pool.files.map (fun file ↦ (file.1.task.path, file.1.entry)) ≤
      source.treeFiles depth root.visit := by
  rw [← h.files]
  exact Multiset.le_add_right _ _

theorem Accounted.card_files_le (h : pool.Accounted source allocation depth root) :
    pool.files.card ≤ (source.treeFiles depth root.visit).card := by
  simpa using Multiset.card_le_card h.files_le

theorem Accounted.length_directories_le (h : pool.Accounted source allocation depth root) :
    pool.directories.length ≤ (source.treeDirectories depth root.visit).card := by
  rw [← h.directories, gathered_directoryOf]
  simp

theorem Accounted.logical_le (h : pool.Accounted source allocation depth root) :
    (pool.files.map (fun file ↦ file.1.entry.sizeBytes.toNat)).sum ≤
      ((source.treeFiles depth root.visit).map (fun file ↦ file.2.sizeBytes.toNat)).sum := by
  rw [← h.files]
  simp

theorem Accounted.physical_le (h : pool.Accounted source allocation depth root) :
    (pool.files.map (fun file ↦ file.2.toNat)).sum ≤
      physicalBytes allocation ((source.treeFiles depth root.visit).map Prod.snd) := by
  refine (h.physical.trans (physicalBytes_filter_le _)).trans ?_
  rw [← h.files, Multiset.map_add, Multiset.map_map, add_comm]
  exact physicalBytes_le_add _

/-- A file that has an id is one of those to come. -/
theorem card_fileIds_le (parts : Multiset (WorkPart P N)) :
    (parts.map WorkPart.fileIds).sum.card ≤
      (parts.map (WorkPart.remaining source fileOf depth)).sum.card := by
  induction parts using Multiset.induction with
  | empty => simp
  | cons part parts ih =>
      have hpart : part.fileIds.card ≤ (part.remaining source fileOf depth).card := by
        cases part <;> simp [WorkPart.fileIds, WorkPart.remaining, fileOf]
      simp only [Multiset.map_cons, Multiset.sum_cons, Multiset.card_add]
      exact Nat.add_le_add hpart ih

theorem Accounted.issued_le (h : pool.Accounted source allocation depth root) :
    pool.issued ≤ (source.treeFiles depth root.visit).card := by
  have hissued : pool.issued = pool.fileIds.card := by simp [h.fileIds]
  rw [hissued, ← h.files]
  simpa [WalkPool.fileIds, remaining] using card_fileIds_le pool.parts

end WalkPool

end Run

end WinBlaze
