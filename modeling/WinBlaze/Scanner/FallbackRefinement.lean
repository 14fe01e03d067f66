import WinBlaze.Scanner.FallbackAccounting
import WinBlaze.Scanner.WalkRefinement

/-!
# The fallback walk refines the pool

What the tasks and jobs of all workers hold is, together with what is published,
a pool that the root can reach, as long as the walk is not cancelled.
-/

namespace WinBlaze

open Saturating (satAdd maxValue)

variable {P N : Type*}

def FallbackShared.view (shared : FallbackShared) : WalkView where
  events := shared.events
  nextDirectoryId := shared.nextDirectoryId
  nextFileId := shared.nextFileId
  directoriesSeen := shared.directoriesSeen
  filesSeen := shared.filesSeen
  totalSizeBytes := shared.totalSizeBytes
  totalAllocationBytes := shared.totalAllocationBytes

/-- Every shard stands for its own identities. -/
def FallbackShared.Claims (shared : FallbackShared) (claimed : Set (UInt64 × BitVec 128)) : Prop :=
  ∀ shard, (shared.physicalIds shard).Represents
    {identity ∈ claimed | shardIndex identity.1 identity.2 = shard}

theorem FallbackShared.claims_initial (rootEvent : WalkEvent) : (FallbackShared.initial rootEvent).Claims ∅ := by
  intro shard
  have hnone : {identity ∈ (∅ : Set (UInt64 × BitVec 128)) |
      shardIndex identity.1 identity.2 = shard} = ∅ :=
    Set.eq_empty_of_forall_notMem fun identity hmem ↦ hmem.1
  exact hnone.symm ▸ TrackedVolumes.represents_empty

/-- The walk is at a pool, with what is held. -/
def FallbackShared.At [DecidableEq P] (source : WalkSource P N) (root : FallbackTask P) (rootEvent : WalkEvent)
    (shared : FallbackShared) (held : Held P N) : Prop :=
  Refines source root rootEvent shared.Claims shared.view held

/-! ## What jobs hold -/

def FallbackTask.held (task : FallbackTask P) : Held P N := .part (.directory task)

/-- What an action will publish or do. -/
def WalkAction.held (task : FallbackTask P) : WalkAction P N → Held P N
  | .flush => 0
  | .publishWhenFull => 0
  | .publish => 0
  | .file entry id => .part (.numbered ⟨task, entry, id⟩)
  | .emitFile record => .record (.file record)
  | .publishFiles files => .amounts files.toNat 0 0
  | .publishLogical logical => .amounts 0 logical.toNat 0
  | .publishPhysical physical => .amounts 0 0 physical.toNat
  | .directory path name decision => .part (.outcome task (.directory path name decision))
  | .countDirectory => .uncounted 1
  | .emitDirectory record child => .record (.directory record) + { parts := directoryParts child.toList }

/-- The counts that are not published, and the files without an id. -/
def FallbackTotals.held (task : FallbackTask P) (totals : FallbackTotals N) : Held P N :=
  .amounts totals.files.toNat totals.logical.toNat totals.physical.toNat +
    { parts := (totals.pending.map (fun entry ↦ .outcome task (.file entry)) : List (WorkPart P N)) }

namespace DirectoryJob

/-- What the list of actions holds. -/
def actionsHeld (task : FallbackTask P) (todo : List (WalkAction P N)) : Held P N :=
  (todo.map (WalkAction.held task)).sum

def held [DecidableEq P] (source : WalkSource P N) (job : DirectoryJob P N) : Held P N :=
  job.totals.held job.task + { parts := directoryParts job.newTasks } +
    actionsHeld job.task job.todo +
    entryParts source job.task (job.entries.getD [])

@[simp] theorem actionsHeld_nil (task : FallbackTask P) :
    actionsHeld task ([] : List (WalkAction P N)) = 0 := rfl

@[simp] theorem actionsHeld_cons (task : FallbackTask P) (action : WalkAction P N)
    (todo : List (WalkAction P N)) :
    actionsHeld task (action :: todo) = action.held task + actionsHeld task todo :=
  List.sum_cons

@[simp] theorem actionsHeld_append (task : FallbackTask P) (front back : List (WalkAction P N)) :
    actionsHeld task (front ++ back) = actionsHeld task front + actionsHeld task back := by
  simp [actionsHeld]

/-- An addition to a counter. -/
def isAddition : WalkAction P N → Bool
  | .publishFiles _ => true
  | .publishLogical _ => true
  | .publishPhysical _ => true
  | _ => false

/-- A list of actions that publishes the counts when they are full. -/
def publishesNext : List (WalkAction P N) → Bool
  | .publishWhenFull :: _ => true
  | .emitFile _ :: .publishWhenFull :: _ => true
  | .publish :: _ => true
  | _ => false

/-- No more than 512 files are counted before they are published, and all are in
the end. -/
structure Valid (job : DirectoryJob P N) : Prop where
  small : job.totals.files.toNat < 512 ∨
    job.totals.files.toNat = 512 ∧ publishesNext job.todo = true
  counted : job.totals.files = 0 → job.totals.logical = 0 ∧ job.totals.physical = 0
  flushed : job.entries = none → job.totals.pending ≠ [] → .flush ∈ job.todo
  published : job.entries = none → job.todo.getLast? = some .publish ∨
    job.totals.files = 0 ∧ ∀ action ∈ job.todo, isAddition action = true

end DirectoryJob

variable [DecidableEq P] {source : WalkSource P N} {root : FallbackTask P}
  {rootEvent : WalkEvent} {allocation : UInt64 × BitVec 128 → UInt64} {depth : ℕ}
  {shared shared' : FallbackShared} {job job' : DirectoryJob P N} {others : Held P N}

/-! ## Actions -/

/-- The files of a batch get their ids. -/
theorem Refines.numberAll {claims : Set (UInt64 × BitVec 128) → Prop} {view : WalkView}
    {task : FallbackTask P} (first : UInt64) (batch : List (FindEntry N)) (index : ℕ)
    (hview : view.nextFileId = first + .ofNat index)
    (h : Refines source root rootEvent claims view
      ({ parts := (batch.map (fun entry ↦ .outcome task (.file entry)) : List (WorkPart P N)) } +
        others)) :
    Refines source root rootEvent claims
      { view with nextFileId := first + .ofNat (index + batch.length) }
      (DirectoryJob.actionsHeld task
        ((batch.zipIdx index).map (fun entry ↦ .file entry.1 (first + .ofNat entry.2))) + others) := by
  induction batch generalizing index view others with
  | nil =>
      rw [List.length_nil, Nat.add_zero, ← hview]
      exact h
  | cons entry batch ih =>
      have hsplit : ({ parts := ((entry :: batch).map (fun entry ↦ .outcome task (.file entry)) :
            List (WorkPart P N)) } : Held P N) =
          .part (.outcome task (.file entry)) +
            { parts := (batch.map (fun entry ↦ .outcome task (.file entry)) :
              List (WorkPart P N)) } := by
        refine Held.ext ?_ rfl rfl rfl rfl rfl
        simp [Held.part]
      rw [hsplit, add_assoc] at h
      have hnumber := h.number
      have hnext : view.nextFileId + 1 = first + .ofNat (index + 1) := by
        simp [hview, UInt64.ofNat_add, add_assoc]
      rw [add_left_comm, hview] at hnumber
      have hall := ih (index + 1) (hview ▸ hnext) hnumber
      have hlength : index + 1 + batch.length = index + (entry :: batch).length := by
        simp only [List.length_cons]
        omega
      rw [hlength] at hall
      simpa [WalkAction.held, add_left_comm, add_assoc] using hall

/-- A claim is granted by its shard. -/
theorem claimShared_spec (order : IterationOrder) {claimed : Set (UInt64 × BitVec 128)}
    (h : shared.Claims claimed) (entry : FindEntry N) :
    ∃ bytes next, claimShared order shared entry = some (bytes, next) ∧ next.view = shared.view ∧
      next.cancelled = shared.cancelled ∧ Granted claimed entry bytes ∧
      next.Claims (claimedBy entry ∪ claimed) := by
  unfold claimShared
  cases hidentity : entry.physicalIdentity with
  | none =>
      have hnone := claimedBy_union claimed fun identity hsome ↦ by
        rw [hidentity] at hsome
        cases hsome
      refine ⟨_, shared, rfl, rfl, rfl, ?_, by rwa [hnone]⟩
      simp only [Granted, hidentity]
  | some identity =>
      by_cases hbytes : entry.allocationBytes = 0
      · have hnone := claimedBy_union claimed fun _ _ ↦ hbytes
        refine ⟨0, shared, if_pos hbytes, rfl, rfl, ?_, by rwa [hnone]⟩
        simp [Granted, hidentity, hbytes]
      · obtain ⟨bytes, next, hclaim, hgranted, hnext⟩ :=
          TrackedVolumes.exists_claim order (h (shardIndex identity.1 identity.2)) hidentity
        refine ⟨bytes,
          { shared with
            physicalIds :=
              Function.update shared.physicalIds (shardIndex identity.1 identity.2) next },
          by simp only [if_neg hbytes, hclaim, Option.map_some], rfl, rfl, ?_, fun shard ↦ ?_⟩
        · simpa [Granted, hidentity] using hgranted
        · by_cases hshard : shard = shardIndex identity.1 identity.2
          · subst hshard
            have hset : {other ∈ claimedBy entry ∪ claimed |
                shardIndex other.1 other.2 = shardIndex identity.1 identity.2} =
                claimedBy entry ∪ {other ∈ claimed |
                  shardIndex other.1 other.2 = shardIndex identity.1 identity.2} := by
              ext other
              simp only [claimedBy, hidentity, Option.some.injEq, Set.mem_union, Set.mem_ofPred_eq]
              constructor
              · rintro ⟨hnew | hold, hshard⟩
                · exact Or.inl hnew
                · exact Or.inr ⟨hold, hshard⟩
              · rintro (⟨rfl, hne⟩ | ⟨hold, hshard⟩)
                · exact ⟨Or.inl ⟨rfl, hne⟩, rfl⟩
                · exact ⟨Or.inr hold, hshard⟩
            rw [hset]
            simpa only [Function.update_self] using hnext
          · have hset : {other ∈ claimedBy entry ∪ claimed | shardIndex other.1 other.2 = shard} =
                {other ∈ claimed | shardIndex other.1 other.2 = shard} := by
              ext other
              simp only [claimedBy, hidentity, Option.some.injEq, Set.mem_union, Set.mem_ofPred_eq]
              constructor
              · rintro ⟨⟨rfl, -⟩ | hold, hother⟩
                · exact absurd hother.symm hshard
                · exact ⟨hold, hother⟩
              · exact fun hold ↦ ⟨Or.inr hold.1, hold.2⟩
            rw [hset]
            simpa only [Function.update_of_ne hshard] using h shard

/-- A job holds what its next action holds, and the rest. -/
theorem DirectoryJob.held_cons {action : WalkAction P N} {rest : List (WalkAction P N)}
    (htodo : job.todo = action :: rest) :
    job.held source = action.held job.task + ({ job with todo := rest } : DirectoryJob P N).held source := by
  simp only [DirectoryJob.held, htodo, actionsHeld_cons]
  abel

/-- The files that are pending get their ids. -/
theorem FallbackShared.At.flush (h : shared.At source root rootEvent (job.held source + others)) :
    FallbackShared.At source root rootEvent
      { shared with nextFileId := shared.nextFileId + .ofNat job.totals.pending.length }
      (({ job with
        totals := { job.totals with pending := [] }
        todo := batchActions shared.nextFileId job.totals.pending ++ job.todo } : DirectoryJob P N).held
          source + others) := by
  have hpending : job.held source + others =
      { parts := (job.totals.pending.map (fun entry ↦ .outcome job.task (.file entry)) :
        List (WorkPart P N)) } + (.amounts job.totals.files.toNat job.totals.logical.toNat
          job.totals.physical.toNat + { parts := directoryParts job.newTasks } +
            DirectoryJob.actionsHeld job.task job.todo +
              entryParts source job.task (job.entries.getD []) + others) := by
    simp only [DirectoryJob.held, FallbackTotals.held]
    abel
  rw [hpending] at h
  have hbatch := Refines.numberAll shared.nextFileId job.totals.pending 0 (by simp [view]) h
  rw [Nat.zero_add] at hbatch
  refine Eq.subst ?_ hbatch
  have htotals : (FallbackTotals.held job.task { job.totals with pending := [] } : Held P N) =
      .amounts job.totals.files.toNat job.totals.logical.toNat job.totals.physical.toNat := by
    refine Held.ext ?_ rfl rfl rfl rfl rfl
    simp [FallbackTotals.held, Held.amounts]
  simp only [DirectoryJob.held, DirectoryJob.actionsHeld_append, htotals, batchActions]
  abel

omit [DecidableEq P] in
/-- The counts of a worker with one more file, as they do not overflow. -/
theorem FallbackTotals.held_file (totals : FallbackTotals N) (task : FallbackTask P) (size bytes : UInt64)
    (hfiles : totals.files.toNat + 1 ≤ maxValue) (hlogical : totals.logical.toNat + size.toNat ≤ maxValue)
    (hphysical : totals.physical.toNat + bytes.toNat ≤ maxValue) :
    (FallbackTotals.held task
      { totals with
        files := totals.files + 1
        logical := satAdd totals.logical size
        physical := satAdd totals.physical bytes } : Held P N) =
      .amounts 1 size.toNat bytes.toNat + totals.held task := by
  have hcount : (totals.files + 1).toNat = totals.files.toNat + 1 := Saturating.toNat_add_of_le hfiles
  refine Held.ext ?_ rfl rfl ?_ ?_ ?_
  · simp [FallbackTotals.held, Held.amounts]
  · simp only [FallbackTotals.held, Held.amounts, Held.files_add, hcount]
    omega
  · simp only [FallbackTotals.held, Held.amounts, Held.logical_add, Saturating.toNat_satAdd_of_le hlogical]
    omega
  · simp only [FallbackTotals.held, Held.amounts, Held.physical_add, Saturating.toNat_satAdd_of_le hphysical]
    omega

/-- A file is claimed and counted. -/
theorem FallbackShared.At.file (hwalk : source.Bounded allocation depth root.visit) {order : IterationOrder}
    {entry : FindEntry N} {id bytes : UInt64} {next : FallbackShared}
    (hclaim : claimShared order shared entry = some (bytes, next))
    (h : shared.At source root rootEvent
      ((WalkAction.file entry id).held job.task + (job.held source + others))) :
    next.At source root rootEvent
      (({ job with
        totals :=
          { job.totals with
            files := job.totals.files + 1
            logical := satAdd job.totals.logical entry.sizeBytes
            physical := satAdd job.totals.physical bytes }
        todo :=
          .emitFile (fileRecord source id job.task.directoryId entry bytes) ::
            .publishWhenFull :: job.todo } : DirectoryJob P N).held source + others) := by
  obtain ⟨claimed, hclaimed, hgrant⟩ := Refines.claim h
  obtain ⟨granted, last, hsome, hview, -, hbytes, hnext⟩ := claimShared_spec order hclaimed entry
  obtain ⟨rfl, rfl⟩ := Prod.mk.inj (Option.some.inj (hsome.symm.trans hclaim))
  have hheld := hgrant granted last.Claims hbytes hnext
  obtain ⟨-, hfiles, hlogical, hphysical⟩ := hheld.bounds hwalk
  simp only [Held.record, Held.amounts, DirectoryJob.held, FallbackTotals.held, Held.files_add,
    Held.logical_add, Held.physical_add] at hfiles hlogical hphysical
  have htotals := FallbackTotals.held_file job.totals job.task entry.sizeBytes granted (by omega)
    (by omega) (by omega)
  rw [FallbackShared.At, hview]
  refine Eq.subst ?_ hheld
  simp only [DirectoryJob.held, DirectoryJob.actionsHeld_cons, WalkAction.held, htotals]
  abel

/-- Counts that were held are published. -/
theorem FallbackShared.At.count (hwalk : source.Bounded allocation depth root.visit)
    (directories files logical physical : UInt64)
    (h : shared.At source root rootEvent
      (.uncounted directories.toNat + .amounts files.toNat logical.toNat physical.toNat + others)) :
    FallbackShared.At source root rootEvent
      { shared with
        directoriesSeen := shared.directoriesSeen + directories
        filesSeen := shared.filesSeen + files
        totalSizeBytes := shared.totalSizeBytes + logical
        totalAllocationBytes := shared.totalAllocationBytes + physical } others := by
  obtain ⟨hdirectories, hfiles, hlogical, hphysical⟩ := Refines.bounds hwalk h
  simp only [Held.uncounted, Held.amounts, Held.directories_add, Held.files_add, Held.logical_add,
    Held.physical_add, view] at hdirectories hfiles hlogical hphysical
  refine Refines.publish h (Held.ext ?_ ?_ ?_ ?_ ?_ ?_) rfl rfl
  · simp [WalkView.published, Held.uncounted, Held.amounts]
  · simp [WalkView.published, view, Held.uncounted, Held.amounts]
  · simpa [WalkView.published, view, Held.uncounted, Held.amounts] using
      Saturating.toNat_add_of_le (by omega)
  · simpa [WalkView.published, view, Held.uncounted, Held.amounts] using
      Saturating.toNat_add_of_le (by omega)
  · simpa [WalkView.published, view, Held.uncounted, Held.amounts] using
      Saturating.toNat_add_of_le (by omega)
  · simpa [WalkView.published, view, Held.uncounted, Held.amounts] using
      Saturating.toNat_add_of_le (by omega)

/-- The counts of a worker are on their way to the shared ones. -/
theorem DirectoryJob.held_publish : ({ job with
    totals := { job.totals with files := 0, logical := 0, physical := 0 }
    todo := .publishFiles job.totals.files :: .publishLogical job.totals.logical ::
      .publishPhysical job.totals.physical :: job.todo } : DirectoryJob P N).held source =
        job.held source := by
  have hamounts : (job.totals.held job.task : Held P N) =
      FallbackTotals.held job.task { job.totals with files := 0, logical := 0, physical := 0 } +
        (.amounts job.totals.files.toNat 0 0 + (.amounts 0 job.totals.logical.toNat 0 +
          .amounts 0 0 job.totals.physical.toNat)) := by
    refine Held.ext ?_ rfl rfl ?_ ?_ ?_ <;> simp [FallbackTotals.held, Held.amounts]
  simp only [DirectoryJob.held, DirectoryJob.actionsHeld_cons, WalkAction.held, hamounts]
  abel

/-- A directory is emitted, and its task is new. -/
theorem FallbackShared.At.emitDirectory {record : DirectoryRecord} {child : Option (FallbackTask P)}
    (h : shared.At source root rootEvent
      ((WalkAction.emitDirectory record child).held job.task + (job.held source + others))) :
    FallbackShared.At source root rootEvent
      { shared with events := shared.events ++ [.directory record] }
      (({ job with newTasks := job.newTasks ++ child.toList } : DirectoryJob P N).held source + others) := by
  have hsplit : (WalkAction.held job.task (.emitDirectory record child) : Held P N) =
      .record (.directory record) + { parts := directoryParts child.toList } := rfl
  rw [hsplit, add_assoc] at h
  have hnew : ({ parts := directoryParts (job.newTasks ++ child.toList) } : Held P N) =
      { parts := directoryParts job.newTasks } + { parts := directoryParts child.toList } := by
    refine Held.ext ?_ rfl rfl rfl rfl rfl
    simp [directoryParts]
  refine Eq.subst ?_ (Refines.emit h)
  simp only [DirectoryJob.held, hnew]
  abel

/-- An action keeps the pool. -/
theorem FallbackShared.At.runAction (hwalk : source.Bounded allocation depth root.visit)
    {order : IterationOrder} {action : WalkAction P N} {rest : List (WalkAction P N)}
    (htodo : job.todo = action :: rest)
    (hrun : WinBlaze.runAction source order shared job rest action = some (shared', job'))
    (h : shared.At source root rootEvent (job.held source + others)) :
    shared'.At source root rootEvent (job'.held source + others) := by
  rw [DirectoryJob.held_cons htodo, add_assoc] at h
  cases action with
  | flush =>
      rw [WalkAction.held, zero_add] at h
      simp only [WinBlaze.runAction] at hrun
      split at hrun
      case isTrue =>
        obtain ⟨rfl, rfl⟩ := Prod.mk.inj (Option.some.inj hrun)
        exact h
      case isFalse =>
        obtain ⟨rfl, rfl⟩ := Prod.mk.inj (Option.some.inj hrun)
        exact h.flush
  | file entry id =>
      obtain ⟨claimed, hclaim, heq⟩ := Option.map_eq_some_iff.mp hrun
      obtain ⟨rfl, rfl⟩ := Prod.mk.inj heq
      have hfile := FallbackShared.At.file hwalk hclaim h
      exact hfile
  | emitFile record =>
      obtain ⟨rfl, rfl⟩ := Prod.mk.inj (Option.some.inj hrun)
      exact h.emit
  | publishWhenFull =>
      obtain ⟨rfl, rfl⟩ := Prod.mk.inj (Option.some.inj hrun)
      rw [WalkAction.held, zero_add] at h
      split
      · simpa only [DirectoryJob.held, DirectoryJob.actionsHeld_cons, WalkAction.held, zero_add] using h
      · exact h
  | publish =>
      obtain ⟨rfl, rfl⟩ := Prod.mk.inj (Option.some.inj hrun)
      rw [WalkAction.held, zero_add] at h
      split
      · exact h
      · rwa [← DirectoryJob.held_publish] at h
  | publishFiles files =>
      obtain ⟨rfl, rfl⟩ := Prod.mk.inj (Option.some.inj hrun)
      simpa using FallbackShared.At.count hwalk 0 files 0 0 (by simpa [WalkAction.held] using h)
  | publishLogical logical =>
      obtain ⟨rfl, rfl⟩ := Prod.mk.inj (Option.some.inj hrun)
      simpa using FallbackShared.At.count hwalk 0 0 logical 0 (by simpa [WalkAction.held] using h)
  | publishPhysical physical =>
      obtain ⟨rfl, rfl⟩ := Prod.mk.inj (Option.some.inj hrun)
      simpa using FallbackShared.At.count hwalk 0 0 0 physical (by simpa [WalkAction.held] using h)
  | directory path name decision =>
      obtain ⟨rfl, rfl⟩ := Prod.mk.inj (Option.some.inj hrun)
      refine Eq.subst ?_ (Refines.assign h)
      simp only [DirectoryJob.held, DirectoryJob.actionsHeld_cons, WalkAction.held, view]
      abel
  | countDirectory =>
      obtain ⟨rfl, rfl⟩ := Prod.mk.inj (Option.some.inj hrun)
      simpa using FallbackShared.At.count hwalk 1 0 0 0 (by simpa [WalkAction.held] using h)
  | emitDirectory record child =>
      obtain ⟨rfl, rfl⟩ := Prod.mk.inj (Option.some.inj hrun)
      exact h.emitDirectory

omit [DecidableEq P] in
theorem runAction_cancelled {order : IterationOrder} {action : WalkAction P N}
    {rest : List (WalkAction P N)}
    (hrun : runAction source order shared job rest action = some (shared', job')) :
    shared'.cancelled = shared.cancelled := by
  cases action with
  | flush =>
      simp only [runAction] at hrun
      split at hrun <;> simp only [Option.some.injEq, Prod.mk.injEq] at hrun <;> rw [← hrun.1]
  | file entry id =>
      simp only [runAction, Option.map_eq_some_iff, Prod.mk.injEq] at hrun
      obtain ⟨⟨bytes, next⟩, hclaim, rfl, -⟩ := hrun
      unfold claimShared at hclaim
      split at hclaim
      · split at hclaim
        · simp only [Option.some.injEq, Prod.mk.injEq] at hclaim
          rw [← hclaim.2]
        · simp only [Option.map_eq_some_iff, Prod.mk.injEq] at hclaim
          obtain ⟨claimed, -, -, rfl⟩ := hclaim
          rfl
      · simp only [Option.some.injEq, Prod.mk.injEq] at hclaim
        rw [← hclaim.2]
  | _ =>
      simp only [runAction, Option.some.injEq, Prod.mk.injEq] at hrun
      rw [← hrun.1]

/-! ## Valid jobs -/

namespace DirectoryJob

omit [DecidableEq P] in
theorem getLast?_of_ne {action : WalkAction P N} {rest : List (WalkAction P N)}
    (h : (action :: rest).getLast? = some .publish) (hne : action ≠ .publish) :
    rest.getLast? = some .publish := by
  cases rest with
  | nil => exact absurd (Option.some.inj h) hne
  | cons next rest => rwa [List.getLast?_cons_cons] at h

omit [DecidableEq P] in
/-- A job with new actions in front, and with its counts. -/
theorem Valid.replace {action : WalkAction P N} {rest : List (WalkAction P N)}
    (h : job.Valid) (htodo : job.todo = action :: rest) (front : List (WalkAction P N))
    (hadd : isAddition action = false)
    (hpublish : action ≠ .publish) {totals : FallbackTotals N} {newTasks : List (FallbackTask P)}
    (hcounted : totals.files = 0 → totals.logical = 0 ∧ totals.physical = 0)
    (hsmall : totals.files.toNat < 512 ∨ totals.files.toNat = 512 ∧
      publishesNext (front ++ rest) = true)
    (hflushed : totals.pending ≠ [] → job.totals.pending ≠ [] ∧ action ≠ .flush) :
    Valid { job with totals := totals, newTasks := newTasks, todo := front ++ rest } where
  small := hsmall
  counted := hcounted
  flushed := by
    intro hentries hpending
    obtain ⟨hbefore, hne⟩ := hflushed hpending
    have hmem := h.flushed hentries hbefore
    rw [htodo] at hmem
    exact List.mem_append_right _ ((List.mem_cons.mp hmem).resolve_left (Ne.symm hne))
  published := by
    intro hentries
    rcases h.published hentries with hlast | ⟨-, hall⟩
    · rw [htodo] at hlast
      refine Or.inl ?_
      simp only [List.getLast?_append, getLast?_of_ne hlast hpublish, Option.some_or]
    · have hthis := hall action (by rw [htodo]; exact List.mem_cons_self)
      exact absurd (hadd.symm.trans hthis) Bool.false_ne_true

omit [DecidableEq P] in
/-- After an addition to a counter. -/
theorem Valid.addition {action : WalkAction P N} {rest : List (WalkAction P N)} (h : job.Valid)
    (htodo : job.todo = action :: rest) (hadd : isAddition action = true) :
    Valid { job with todo := rest } where
  small := by
    refine Or.inl (h.small.resolve_right ?_)
    rintro ⟨-, hnext⟩
    rw [htodo] at hnext
    cases action <;> simp_all [isAddition, publishesNext]
  counted := h.counted
  flushed := by
    intro hentries hpending
    have hmem := h.flushed hentries hpending
    rw [htodo] at hmem
    refine (List.mem_cons.mp hmem).resolve_left ?_
    rintro rfl
    cases hadd
  published := by
    intro hentries
    rcases h.published hentries with hlast | ⟨hzero, hall⟩
    · rw [htodo] at hlast
      refine Or.inl (getLast?_of_ne hlast ?_)
      rintro rfl
      cases hadd
    · rw [htodo] at hall
      exact Or.inr ⟨hzero, fun other hother ↦ hall other (List.mem_cons_of_mem _ hother)⟩

omit [DecidableEq P] in
theorem Valid.small_of (h : job.Valid) (hnext : publishesNext job.todo = false) :
    job.totals.files.toNat < 512 :=
  h.small.resolve_right fun hfull ↦ absurd (hnext.symm.trans hfull.2) Bool.false_ne_true

omit [DecidableEq P] in
/-- After the counts are published. -/
theorem Valid.publish {rest : List (WalkAction P N)} (h : job.Valid)
    (htodo : job.todo = .publish :: rest) (front : List (WalkAction P N))
    (hfront : ∀ action ∈ front, isAddition action = true) :
    Valid { job with
      totals := { job.totals with files := 0, logical := 0, physical := 0 }
      todo := front ++ rest } where
  small := Or.inl (Nat.zero_lt_succ _)
  counted := fun _ ↦ ⟨rfl, rfl⟩
  flushed := by
    intro hentries hpending
    have hmem := h.flushed hentries hpending
    rw [htodo] at hmem
    exact List.mem_append_right _ ((List.mem_cons.mp hmem).resolve_left nofun)
  published := by
    intro hentries
    rcases h.published hentries with hlast | ⟨-, hall⟩
    · cases rest with
      | nil => exact Or.inr ⟨rfl, by simpa using hfront⟩
      | cons next rest =>
          rw [htodo, List.getLast?_cons_cons] at hlast
          refine Or.inl ?_
          simp only [List.getLast?_append, hlast, Option.some_or]
    · have hthis := hall .publish (by rw [htodo]; exact List.mem_cons_self)
      cases hthis

omit [DecidableEq P] in
/-- After a file is counted: the counts may be full, and are then published next. -/
theorem Valid.file {entry : FindEntry N} {id : UInt64} {rest : List (WalkAction P N)} (h : job.Valid)
    (htodo : job.todo = .file entry id :: rest) (logical physical : UInt64) (record : FileRecord) :
    Valid { job with
      totals := { job.totals with files := job.totals.files + 1, logical := logical, physical := physical }
      todo := .emitFile record :: .publishWhenFull :: rest } := by
  have hsmall := h.small_of (by rw [htodo]; rfl)
  have hone : (1 : UInt64).toNat = 1 := rfl
  have hadd : (job.totals.files + 1).toNat = job.totals.files.toNat + (1 : UInt64).toNat := by
    apply Saturating.toNat_add_of_le
    unfold maxValue
    omega
  refine h.replace htodo [_, _] rfl nofun (fun hzero ↦ ?_) ?_ fun hsome ↦ ⟨hsome, nofun⟩
  · have hcontra := congrArg UInt64.toNat hzero
    simp only [hadd, UInt64.toNat_zero] at hcontra
    omega
  · simp only [hadd]
    by_cases hfull : job.totals.files.toNat + 1 < 512
    · exact Or.inl hfull
    · exact Or.inr ⟨by omega, rfl⟩

omit [DecidableEq P] in
theorem Valid.emitFile {record : FileRecord} {rest : List (WalkAction P N)} (h : job.Valid)
    (htodo : job.todo = .emitFile record :: rest) : Valid { job with todo := rest } := by
  refine h.replace htodo [] rfl nofun h.counted ?_ fun hsome ↦ ⟨hsome, nofun⟩
  refine h.small.imp_right fun hfull ↦ ⟨hfull.1, ?_⟩
  have hnext := hfull.2
  rw [htodo] at hnext
  cases rest with
  | nil => cases hnext
  | cons action rest => cases action <;> first | rfl | cases hnext

omit [DecidableEq P] in
/-- Nothing was counted since the counts were published. -/
theorem Valid.publishNothing {rest : List (WalkAction P N)} (h : job.Valid)
    (htodo : job.todo = .publish :: rest) (hzero : job.totals.files = 0) :
    Valid { job with todo := rest } := by
  have hsame : job.totals = { job.totals with files := 0, logical := 0, physical := 0 } := by
    obtain ⟨hlogical, hphysical⟩ := h.counted hzero
    cases htotals : job.totals
    simp_all
  have hpublished := h.publish htodo [] nofun
  rw [← hsame] at hpublished
  exact hpublished

omit [DecidableEq P] in
theorem Valid.runAction {order : IterationOrder} {action : WalkAction P N}
    {rest : List (WalkAction P N)} (h : job.Valid) (htodo : job.todo = action :: rest)
    (hrun : WinBlaze.runAction source order shared job rest action = some (shared', job')) :
    job'.Valid := by
  cases action with
  | flush =>
      have hsmall := h.small_of (by rw [htodo]; rfl)
      simp only [WinBlaze.runAction] at hrun
      split at hrun
      case isTrue hnone =>
        obtain ⟨-, rfl⟩ := Prod.mk.inj (Option.some.inj hrun)
        refine h.replace htodo [] rfl nofun h.counted (Or.inl hsmall) fun hsome ↦ ?_
        exact absurd (List.isEmpty_iff.mp hnone) hsome
      case isFalse =>
        obtain ⟨-, rfl⟩ := Prod.mk.inj (Option.some.inj hrun)
        exact h.replace htodo _ rfl nofun h.counted (Or.inl hsmall) fun hsome ↦ absurd rfl hsome
  | file entry id =>
      obtain ⟨claimed, -, heq⟩ := Option.map_eq_some_iff.mp hrun
      obtain ⟨-, rfl⟩ := Prod.mk.inj heq
      exact h.file htodo _ _ _
  | emitFile record =>
      obtain ⟨-, rfl⟩ := Prod.mk.inj (Option.some.inj hrun)
      exact h.emitFile htodo
  | publishWhenFull =>
      obtain ⟨-, rfl⟩ := Prod.mk.inj (Option.some.inj hrun)
      split
      case isTrue =>
        exact h.replace htodo [.publish] rfl nofun h.counted
          (h.small.imp_right fun hfull ↦ ⟨hfull.1, rfl⟩) fun hsome ↦ ⟨hsome, nofun⟩
      case isFalse hnot =>
        rw [UInt64.le_iff_toNat_le] at hnot
        have hlt : job.totals.files.toNat < 512 := Nat.not_le.mp hnot
        exact h.replace htodo [] rfl nofun h.counted (Or.inl hlt) fun hsome ↦ ⟨hsome, nofun⟩
  | publish =>
      obtain ⟨-, rfl⟩ := Prod.mk.inj (Option.some.inj hrun)
      split
      case isTrue hzero => exact h.publishNothing htodo hzero
      case isFalse =>
        refine h.publish htodo [_, _, _] fun action haction ↦ ?_
        simp only [List.mem_cons, List.not_mem_nil, or_false] at haction
        rcases haction with rfl | rfl | rfl <;> rfl
  | publishFiles files =>
      obtain ⟨-, rfl⟩ := Prod.mk.inj (Option.some.inj hrun)
      exact h.addition htodo rfl
  | publishLogical logical =>
      obtain ⟨-, rfl⟩ := Prod.mk.inj (Option.some.inj hrun)
      exact h.addition htodo rfl
  | publishPhysical physical =>
      obtain ⟨-, rfl⟩ := Prod.mk.inj (Option.some.inj hrun)
      exact h.addition htodo rfl
  | directory path name decision =>
      have hsmall := h.small_of (by rw [htodo]; rfl)
      obtain ⟨-, rfl⟩ := Prod.mk.inj (Option.some.inj hrun)
      exact h.replace htodo [_, _] rfl nofun h.counted (Or.inl hsmall)
        fun hsome ↦ ⟨hsome, nofun⟩
  | countDirectory =>
      have hsmall := h.small_of (by rw [htodo]; rfl)
      obtain ⟨-, rfl⟩ := Prod.mk.inj (Option.some.inj hrun)
      exact h.replace htodo [] rfl nofun h.counted (Or.inl hsmall)
        fun hsome ↦ ⟨hsome, nofun⟩
  | emitDirectory record child =>
      have hsmall := h.small_of (by rw [htodo]; rfl)
      obtain ⟨-, rfl⟩ := Prod.mk.inj (Option.some.inj hrun)
      exact h.replace htodo [] rfl nofun h.counted (Or.inl hsmall)
        fun hsome ↦ ⟨hsome, nofun⟩

end DirectoryJob

/-! ## The account -/

/-- Nothing is left to be counted or emitted. -/
def FallbackTotals.Idle (totals : FallbackTotals N) : Prop :=
  totals.pending = [] ∧ totals.files = 0 ∧ totals.logical = 0 ∧ totals.physical = 0

omit [DecidableEq P] in
theorem FallbackTotals.Idle.held {totals : FallbackTotals N} (h : totals.Idle)
    (task : FallbackTask P) : (totals.held task : Held P N) = 0 := by
  obtain ⟨hpending, hfiles, hlogical, hphysical⟩ := h
  simp only [FallbackTotals.held, hpending, hfiles, hlogical, hphysical]
  rfl

/-- A directory that is started. -/
theorem FallbackShared.At.start {totals : FallbackTotals N} (hidle : totals.Idle)
    {task : FallbackTask P} (hlive : shared.cancelled = false)
    (h : shared.At source root rootEvent (task.held + others)) :
    shared.At source root rootEvent
      ((startDirectory source shared totals task).held source + others) := by
  have hread := Refines.read h
  have hentries : ({ parts := source.outcomeParts task } : Held P N) =
      entryParts source task ((source.readDir task.path).getD []) := by
    cases hdir : source.readDir task.path with
    | some entries => exact entryParts_getD entries hdir
    | none =>
        simp only [WalkSource.outcomeParts, WalkSource.outcomes, FallbackTask.visit, hdir]
        rfl
  have hheld : (startDirectory source shared totals task).held source =
      entryParts source task ((source.readDir task.path).getD []) := by
    have hnew : ({ parts := directoryParts [] } : Held P N) = 0 := rfl
    simp only [DirectoryJob.held, startDirectory, hlive, hidle.held task, hnew,
      DirectoryJob.actionsHeld_nil, zero_add, Bool.false_eq_true, if_false]
  rw [hheld, ← hentries]
  exact hread

omit [DecidableEq P] in
theorem startDirectory_valid {totals : FallbackTotals N} (hidle : totals.Idle)
    (task : FallbackTask P) : (startDirectory source shared totals task).Valid where
  small := Or.inl (by simp [startDirectory, hidle.2.1])
  counted := fun _ ↦ hidle.2.2
  flushed := fun _ hpending ↦ absurd hidle.1 hpending
  published := fun _ ↦ Or.inr ⟨hidle.2.1, fun action haction ↦ nomatch haction⟩

/-- The loop over the entries ends. -/
theorem endActions_held {entries : Option (List (Option (FindEntry N)))}
    (hentries : entries.getD [] = job.entries.getD []) (htodo : job.todo = []) :
    ({ job with todo := endActions, entries := entries } : DirectoryJob P N).held source =
      job.held source := by
  simp only [DirectoryJob.held, htodo, hentries, endActions, DirectoryJob.actionsHeld_cons,
    WalkAction.held, DirectoryJob.actionsHeld_nil, add_zero]

omit [DecidableEq P] in
theorem endActions_valid (h : job.Valid) (htodo : job.todo = []) :
    ({ job with todo := endActions, entries := none } : DirectoryJob P N).Valid where
  small := Or.inl (h.small_of (by rw [htodo]; rfl))
  counted := h.counted
  flushed := fun _ _ ↦ List.mem_cons_self
  published := fun _ ↦ Or.inl rfl

/-- An entry is looked at. -/
theorem FallbackShared.At.runEntry {entry : Option (FindEntry N)}
    {entries : List (Option (FindEntry N))} (htodo : job.todo = [])
    (hentries : job.entries = some (entry :: entries))
    (h : shared.At source root rootEvent (job.held source + others)) :
    shared.At source root rootEvent ((WinBlaze.runEntry source job entries entry).held source + others) := by
  have hheld : job.held source + others =
      .part (.outcome job.task (entryOutcome source job.task.path job.task.ancestors entry)) +
        (job.totals.held job.task + { parts := directoryParts job.newTasks } +
          entryParts source job.task entries + others) := by
    simp only [DirectoryJob.held, htodo, hentries, DirectoryJob.actionsHeld_nil, Option.getD_some,
      entryParts_cons]
    abel
  rw [hheld] at h
  unfold WinBlaze.runEntry
  cases houtcome : entryOutcome source job.task.path job.task.ancestors entry with
  | skipped =>
      rw [houtcome] at h
      refine Eq.subst ?_ (Refines.skip h)
      simp only [DirectoryJob.held, htodo, DirectoryJob.actionsHeld_nil, Option.getD_some]
      abel
  | file file =>
      rw [houtcome] at h
      have htotals : (FallbackTotals.held job.task
            { job.totals with pending := job.totals.pending ++ [file] } : Held P N) =
          .part (.outcome job.task (.file file)) + job.totals.held job.task := by
        refine Held.ext ?_ rfl ?_ ?_ ?_ ?_ <;> simp [FallbackTotals.held, Held.amounts, Held.part]
      have hactions : DirectoryJob.actionsHeld job.task
          (if job.totals.pending.length + 1 = 64 then [.flush] else [] : List (WalkAction P N)) =
            0 := by
        split <;> simp [WalkAction.held]
      refine Eq.subst ?_ h
      simp only [DirectoryJob.held, htotals, hactions, Option.getD_some]
      abel
  | directory path name decision =>
      rw [houtcome] at h
      refine Eq.subst ?_ h
      simp only [DirectoryJob.held, DirectoryJob.actionsHeld_cons, DirectoryJob.actionsHeld_nil,
        WalkAction.held, Option.getD_some]
      abel

theorem runEntry_valid {entry : Option (FindEntry N)} {entries : List (Option (FindEntry N))}
    (h : job.Valid) (htodo : job.todo = []) : (runEntry source job entries entry).Valid := by
  have hsmall := h.small_of (by rw [htodo]; rfl)
  unfold runEntry
  split
  · exact ⟨Or.inl hsmall, h.counted, nofun, nofun⟩
  · exact ⟨Or.inl hsmall, h.counted, nofun, nofun⟩
  · exact ⟨Or.inl hsmall, h.counted, nofun, nofun⟩

/-- A step of a worker keeps its job valid. -/
theorem stepDirectory_valid {order : IterationOrder} (hvalid : job.Valid)
    (hstep : stepDirectory source order shared job = some (shared', job')) : job'.Valid := by
  unfold stepDirectory at hstep
  split at hstep
  case h_1 action rest htodo => exact hvalid.runAction htodo hstep
  case h_2 htodo hentries =>
    simp only [Option.some.injEq, Prod.mk.injEq] at hstep
    obtain ⟨-, rfl⟩ := hstep
    exact endActions_valid hvalid htodo
  case h_3 entry entries htodo hentries =>
    split at hstep
    case isTrue =>
      simp only [Option.some.injEq, Prod.mk.injEq] at hstep
      obtain ⟨-, rfl⟩ := hstep
      exact endActions_valid hvalid htodo
    case isFalse =>
      simp only [Option.some.injEq, Prod.mk.injEq] at hstep
      obtain ⟨-, rfl⟩ := hstep
      exact runEntry_valid hvalid htodo
  case h_4 => cases hstep

/-- One step of a worker. -/
theorem stepDirectory_keeps (hwalk : source.Bounded allocation depth root.visit)
    (rootEvent : WalkEvent) (others : Held P N) {order : IterationOrder}
    (hstep : stepDirectory source order shared job = some (shared', job')) :
    shared'.cancelled = shared.cancelled ∧ (shared.cancelled = false →
      shared.At source root rootEvent (job.held source + others) →
        shared'.At source root rootEvent (job'.held source + others)) := by
  unfold stepDirectory at hstep
  split at hstep
  case h_1 action rest htodo =>
    exact ⟨runAction_cancelled hstep, fun _ h ↦ h.runAction hwalk htodo hstep⟩
  case h_2 htodo hentries =>
    simp only [Option.some.injEq, Prod.mk.injEq] at hstep
    obtain ⟨rfl, rfl⟩ := hstep
    refine ⟨rfl, fun _ h ↦ ?_⟩
    rwa [endActions_held (by rw [hentries]; rfl) htodo]
  case h_3 entry entries htodo hentries =>
    split at hstep
    case isTrue hcancelled =>
      simp only [Option.some.injEq, Prod.mk.injEq] at hstep
      obtain ⟨rfl, rfl⟩ := hstep
      refine ⟨rfl, fun hlive ↦ ?_⟩
      exact absurd (hlive.symm.trans hcancelled) Bool.false_ne_true
    case isFalse =>
      simp only [Option.some.injEq, Prod.mk.injEq] at hstep
      obtain ⟨rfl, rfl⟩ := hstep
      exact ⟨rfl, fun _ h ↦ h.runEntry htodo hentries⟩
  case h_4 => cases hstep

omit [DecidableEq P] in
/-- The totals of a worker are idle when its job has a result. -/
theorem DirectoryJob.Valid.idle (hvalid : job.Valid) (htodo : job.todo = [])
    (hentries : job.entries = none) : job.totals.Idle := by
  have hpending : job.totals.pending = [] := by
    by_contra hsome
    have hmem := hvalid.flushed hentries hsome
    rw [htodo] at hmem
    cases hmem
  have hfiles : job.totals.files = 0 := by
    rcases hvalid.published hentries with hlast | ⟨hzero, -⟩
    · rw [htodo] at hlast
      cases hlast
    · exact hzero
  exact ⟨hpending, hfiles, hvalid.counted hfiles⟩

omit [DecidableEq P] in
theorem sum_held (tasks : List (FallbackTask P)) :
    (tasks.map FallbackTask.held).sum = ({ parts := directoryParts tasks } : Held P N) := by
  induction tasks with
  | nil => rfl
  | cons task tasks ih =>
      rw [List.map_cons, List.sum_cons, ih]
      refine Held.ext ?_ rfl rfl rfl rfl rfl
      simp [FallbackTask.held, Held.part, directoryParts]

/-- What is held in a walk, and the pool it is at unless it is cancelled. -/
def poolAccount (hwalk : source.Bounded allocation depth root.visit) (rootEvent : WalkEvent) :
    Account (directoryProcessing source) (Held P N) where
  task := FallbackTask.held
  job := DirectoryJob.held source
  Idle := FallbackTotals.Idle
  Valid := DirectoryJob.Valid
  Keeps shared held := shared.cancelled = false → shared.At source root rootEvent held
  start := by
    rintro shared _ totals task _ others hidle ⟨rfl, rfl⟩ h
    exact ⟨startDirectory_valid hidle task, fun hlive ↦ (h hlive).start hidle hlive⟩
  step := by
    rintro shared shared' job job' others hvalid ⟨order, hstep⟩ h
    obtain ⟨hsame, hkeeps⟩ := stepDirectory_keeps hwalk rootEvent others hstep
    refine ⟨stepDirectory_valid hvalid hstep, fun hlive ↦ ?_⟩
    rw [hsame] at hlive
    exact hkeeps hlive (h hlive)
  result := by
    rintro shared job _ _ others hvalid ⟨htodo, hentries, rfl, rfl⟩ h
    have hidle := hvalid.idle htodo hentries
    have hheld : job.held source = (job.newTasks.map FallbackTask.held).sum := by
      simp only [DirectoryJob.held, hidle.held, htodo, hentries, sum_held,
        DirectoryJob.actionsHeld_nil, zero_add, add_zero]
      exact add_zero _
    refine ⟨hidle, fun hlive ↦ ?_⟩
    rw [← hheld]
    exact h hlive
  other := by
    rintro shared _ all rfl h hlive
    cases hlive

end WinBlaze
