import WinBlaze.Scanner.WalkRefinement

/-!
# The sequential walk refines the pool

It takes the work of a directory in the order of its entries, and publishes
what it finds at once.
-/

namespace WinBlaze

open Saturating (maxValue satAdd_eq_add)

variable {P N : Type*} [DecidableEq P] {source : WalkSource P N}
  {root task : FallbackTask P} {rootEvent : WalkEvent}
  {allocation : UInt64 × BitVec 128 → UInt64} {depth : ℕ} {others : Held P N}

def DirectoryWalkState.view (state : DirectoryWalkState) : WalkView where
  events := state.events
  nextDirectoryId := state.nextDirectoryId
  nextFileId := state.nextFileId
  directoriesSeen := state.directoriesSeen
  filesSeen := state.filesSeen
  totalSizeBytes := state.totalSizeBytes
  totalAllocationBytes := state.totalAllocationBytes

/-- The walk is at a pool, with some work left. -/
def DirectoryWalkState.At (source : WalkSource P N) (root : FallbackTask P) (rootEvent : WalkEvent)
    (state : DirectoryWalkState) (held : Held P N) : Prop :=
  Refines source root rootEvent state.physicalIds.Represents state.view held

namespace DirectoryWalkState

variable {state : DirectoryWalkState}

theorem claimEntry_spec (orders : ℕ → IterationOrder) {claimed : Set (UInt64 × BitVec 128)}
    (h : state.physicalIds.Represents claimed) (entry : FindEntry N) :
    ∃ bytes tracker, claimEntry orders state entry = some (bytes, tracker) ∧
      Granted claimed entry bytes ∧ tracker.Represents (claimedBy entry ∪ claimed) := by
  unfold claimEntry
  cases hidentity : entry.physicalIdentity with
  | none =>
      refine ⟨_, _, rfl, ?_, ?_⟩
      · simp only [Granted, hidentity]
      · have hnone := claimedBy_union claimed fun identity hsome ↦ by
          rw [hidentity] at hsome
          cases hsome
        rwa [hnone]
  | some identity => exact TrackedVolumes.exists_claim _ h hidentity

theorem At.drop (h : state.At source root rootEvent (0 + others)) :
    state.At source root rootEvent others := by
  rwa [zero_add] at h

/-- A file is emitted. -/
theorem At.emitFile (orders : ℕ → IterationOrder) (hwalk : source.Bounded allocation depth root.visit) {entry : FindEntry N}
    (h : state.At source root rootEvent (.part (.outcome task (.file entry)) + others)) :
    ∃ next, emitFileRecord source orders state task.directoryId entry = some next ∧
      next.At source root rootEvent others := by
  have hid := satAdd_eq_add (b := 1) (h.nextFileId_lt hwalk)
  obtain ⟨claimed, hclaimed, hgrant⟩ := h.number.claim
  obtain ⟨bytes, tracker, hclaim, hbytes, htracker⟩ := claimEntry_spec orders hclaimed entry
  have hheld := hgrant bytes tracker.Represents hbytes htracker
  obtain ⟨-, hfiles, hlogical, hphysical⟩ := hheld.bounds hwalk
  simp only [Held.record, Held.amounts, Held.files_add, Held.logical_add, Held.physical_add,
    Nat.zero_add] at hfiles hlogical hphysical
  have hfiles' : state.filesSeen.toNat + (1 : UInt64).toNat ≤ maxValue :=
    le_trans (Nat.add_le_add_left (Nat.le_add_right 1 _) _) hfiles
  have hlogical' : state.totalSizeBytes.toNat + entry.sizeBytes.toNat ≤ maxValue :=
    le_trans (Nat.add_le_add_left (Nat.le_add_right _ _) _) hlogical
  have hphysical' : state.totalAllocationBytes.toNat + bytes.toNat ≤ maxValue :=
    le_trans (Nat.add_le_add_left (Nat.le_add_right _ _) _) hphysical
  rw [add_assoc] at hheld
  refine ⟨_, by simp only [emitFileRecord, hclaim, Option.map_some]; rfl, ?_⟩
  refine hheld.emit.publish (Held.ext rfl ?_ ?_ ?_ ?_ ?_) rfl hid
  · simp [WalkView.published, view, Held.amounts]
  · simp [WalkView.published, view, Held.amounts]
  · simpa [WalkView.published, view, Held.amounts] using Saturating.toNat_satAdd_of_le hfiles'
  · simpa [WalkView.published, view, Held.amounts] using Saturating.toNat_satAdd_of_le hlogical'
  · simpa [WalkView.published, view, Held.amounts] using Saturating.toNat_satAdd_of_le hphysical'

/-- A directory is emitted, and is work when it is descended into. -/
theorem At.emitDirectory (hwalk : source.Bounded allocation depth root.visit) {path : P} {name : N}
    {decision : ReparseDecision P} (h : state.At source root rootEvent
      (.part (.outcome task (.directory path name decision)) + others)) :
    (emitDirectoryRecord source state task.directoryId path (source.displayName name)).At source root
      rootEvent
      ({ parts := directoryParts (decision.task path ⟨state.nextDirectoryId⟩).toList } + others) := by
  have hid := satAdd_eq_add (b := 1) (h.nextDirectoryId_lt hwalk)
  have hheld := h.assign
  obtain ⟨hdirectories, -⟩ := hheld.bounds hwalk
  simp only [Held.record, Held.uncounted, Held.directories_add, Nat.zero_add] at hdirectories
  have hdirectories' : state.directoriesSeen.toNat + (1 : UInt64).toNat ≤ maxValue :=
    le_trans (Nat.add_le_add_left (Nat.le_add_right 1 _) _) hdirectories
  have hsplit : ({ parts := directoryParts (decision.task path ⟨state.nextDirectoryId⟩).toList } +
      Held.record (.directory (directoryRecord source state.nextDirectoryId (some task.directoryId)
        path (source.displayName name))) + .uncounted 1 + others : Held P N) =
      .record (.directory (directoryRecord source state.nextDirectoryId (some task.directoryId) path
        (source.displayName name))) + (.uncounted 1 +
          ({ parts := directoryParts (decision.task path ⟨state.nextDirectoryId⟩).toList } +
            others)) := by
    abel
  refine (hsplit ▸ hheld).emit.publish (Held.ext rfl ?_ ?_ ?_ ?_ ?_) hid rfl
  · simp [WalkView.published, view, Held.uncounted, emitDirectoryRecord]
  · simpa [WalkView.published, view, Held.uncounted, emitDirectoryRecord] using
      Saturating.toNat_satAdd_of_le hdirectories'
  · simp [WalkView.published, view, Held.uncounted, emitDirectoryRecord]
  · simp [WalkView.published, view, Held.uncounted, emitDirectoryRecord]
  · simp [WalkView.published, view, Held.uncounted, emitDirectoryRecord]

/-- The sequential walk of a directory does its work and leaves the rest. -/
theorem At.walk (orders : ℕ → IterationOrder) (hwalk : source.Bounded allocation depth root.visit) (fuel : ℕ)
    (hdepth : source.tree.DepthAtMost fuel task.visit)
    (h : state.At source root rootEvent (.part (.directory task) + others)) :
    ∃ next, walkDirectoryTree source orders fuel task.path task.directoryId task.ancestors state =
        some next ∧ next.At source root rootEvent others := by
  induction fuel generalizing task state others with
  | zero => exact hdepth.elim
  | succ fuel ih =>
      have hread := Refines.read h
      unfold walkDirectoryTree
      cases hentries : source.readDir task.path with
      | none =>
          have hnone : ({ parts := source.outcomeParts task } : Held P N) = 0 := by
            simp only [WalkSource.outcomeParts, WalkSource.outcomes, FallbackTask.visit, hentries]
            rfl
          rw [hnone, zero_add] at hread
          exact ⟨state, rfl, hread⟩
      | some entries =>
          rw [entryParts_getD entries hentries] at hread
          have hchildren : ∀ entry ∈ entries,
              ∀ child ∈ (entryOutcome source task.path task.ancestors entry).visit,
                source.tree.DepthAtMost fuel child := by
            intro entry hentry
            refine hdepth (entryOutcome source task.path task.ancestors entry) ?_
            simp only [WalkSource.tree, WalkSource.outcomes, FallbackTask.visit, hentries,
              Option.getD_some]
            exact List.mem_map_of_mem hentry
          clear hentries hdepth h
          induction entries generalizing state others with
          | nil => exact ⟨state, rfl, At.drop hread⟩
          | cons entry entries ihentries =>
              obtain ⟨hchild, hchildren⟩ := List.forall_mem_cons.mp hchildren
              rw [entryParts_cons, add_assoc] at hread
              simp only [List.foldlM_cons]
              cases houtcome : entryOutcome source task.path task.ancestors entry with
              | skipped =>
                  rw [houtcome] at hread
                  exact ihentries hread.skip hchildren
              | file file =>
                  rw [houtcome] at hread
                  obtain ⟨next, hnext, hat⟩ := At.emitFile orders hwalk hread
                  simp only [hnext]
                  exact ihentries hat hchildren
              | directory path name decision =>
                  rw [houtcome] at hread hchild
                  have hemitted := At.emitDirectory hwalk hread
                  cases decision with
                  | follow ancestors =>
                      obtain ⟨next, hnext, hat⟩ :
                          ∃ next, walkDirectoryTree source orders fuel path ⟨state.nextDirectoryId⟩
                            ancestors _ = some next ∧ next.At source root rootEvent
                              (entryParts source task entries + others) :=
                        @ih ⟨path, ⟨state.nextDirectoryId⟩, ancestors⟩ _ _ (hchild _ rfl) hemitted
                      simp only [hnext]
                      exact ihentries hat hchildren
                  | skippedByPolicy => exact ihentries (At.drop hemitted) hchildren
                  | skippedCycle => exact ihentries (At.drop hemitted) hchildren
                  | skippedUnresolvable => exact ihentries (At.drop hemitted) hchildren

end DirectoryWalkState

end WinBlaze
