import WinBlaze.Scanner.FallbackProgress
import WinBlaze.Scanner.FallbackRefinement

/-!
# The fallback walk can end

Every directory of a finite tree is work of some weight, more than the actions
it comes down to. No claim panics, so a job goes on until it has a result.
-/

namespace WinBlaze

variable {P N : Type*} [DecidableEq P] (source : WalkSource P N) (depth : ℕ)

/-- The weight of a directory to be read. -/
def visitWeight (visit : Visit P) : ℕ :=
  9 + source.tree.gather
    (fun _ outcome ↦ 10 + if outcome.visit.isSome then 9 else 0) depth visit

/-- The weight of an entry. -/
def outcomeWeight (outcome : EntryOutcome P N) : ℕ :=
  10 + outcome.visit.elim 0 (visitWeight source depth)

def FallbackTask.weight (task : FallbackTask P) : ℕ := visitWeight source depth task.visit

def WalkAction.weight : WalkAction P N → ℕ
  | .file _ _ => 7
  | .publishWhenFull => 5
  | .publish => 4
  | .directory path name decision =>
      3 + (EntryOutcome.directory path name decision).visit.elim 0 (visitWeight source depth)
  | .emitDirectory _ child => 1 + child.elim 0 (FallbackTask.weight source depth)
  | _ => 1

namespace DirectoryJob

def weight (job : DirectoryJob P N) : ℕ :=
  2 + (if job.entries.isSome then 6 else 0) +
    ((job.entries.getD []).map (fun entry ↦
      outcomeWeight source depth
        (entryOutcome source job.task.path job.task.ancestors entry))).sum +
    (job.todo.map (WalkAction.weight source depth)).sum +
    (job.newTasks.map (FallbackTask.weight source depth)).sum + 8 * job.totals.pending.length

end DirectoryJob

variable {source depth} {root : FallbackTask P} {rootEvent : WalkEvent}
  {allocation : UInt64 × BitVec 128 → UInt64} {shared shared' : FallbackShared}
  {job job' : DirectoryJob P N}

theorem visitWeight_eq {visit : Visit P} (h : source.tree.DepthAtMost depth visit) :
    visitWeight source depth visit =
      9 + ((source.outcomes visit).map (outcomeWeight source depth)).sum := by
  rw [visitWeight, Unfolding.gather_eq_sum h]
  congr 3
  funext outcome
  unfold Unfolding.below outcomeWeight visitWeight
  have hnext : source.tree.next outcome = outcome.visit := rfl
  simp only [hnext]
  cases hvisit : outcome.visit with
  | none => simp
  | some child =>
      simp only [Option.isSome_some, Option.elim_some, if_true]
      omega

/-- An action leaves less to do. -/
theorem runAction_weight {order : IterationOrder} {action : WalkAction P N}
    {rest : List (WalkAction P N)} (htodo : job.todo = action :: rest)
    (hrun : runAction source order shared job rest action = some (shared', job')) :
    job'.weight source depth < job.weight source depth := by
  cases action with
  | flush =>
      simp only [runAction] at hrun
      split at hrun
      · simp only [Option.some.injEq, Prod.mk.injEq] at hrun
        obtain ⟨-, rfl⟩ := hrun
        simp only [DirectoryJob.weight, htodo, List.map_cons, List.sum_cons, WalkAction.weight]
        omega
      · simp only [Option.some.injEq, Prod.mk.injEq] at hrun
        obtain ⟨-, rfl⟩ := hrun
        have hbatch : ((batchActions (P := P) shared.nextFileId job.totals.pending).map
            (WalkAction.weight source depth)).sum = 7 * job.totals.pending.length := by
          simp [batchActions, Function.comp_def, WalkAction.weight, Nat.mul_comm]
        simp only [DirectoryJob.weight, htodo, List.map_cons, List.sum_cons, List.map_append,
          List.sum_append, hbatch, WalkAction.weight, List.length_nil]
        omega
  | file entry id =>
      simp only [runAction, Option.map_eq_some_iff, Prod.mk.injEq] at hrun
      obtain ⟨claimed, -, -, rfl⟩ := hrun
      simp only [DirectoryJob.weight, htodo, List.map_cons, List.sum_cons, WalkAction.weight]
      omega
  | publishWhenFull =>
      simp only [runAction, Option.some.injEq, Prod.mk.injEq] at hrun
      obtain ⟨-, rfl⟩ := hrun
      by_cases hfull : 512 ≤ job.totals.files
      · simp only [DirectoryJob.weight, htodo, if_pos hfull, List.map_cons, List.sum_cons,
          WalkAction.weight]
        omega
      · simp only [DirectoryJob.weight, htodo, if_neg hfull, List.map_cons, List.sum_cons,
          WalkAction.weight]
        omega
  | publish =>
      simp only [runAction, Option.some.injEq, Prod.mk.injEq] at hrun
      obtain ⟨-, rfl⟩ := hrun
      split <;>
        simp only [DirectoryJob.weight, htodo, List.map_cons, List.sum_cons, WalkAction.weight] <;>
        omega
  | directory path name decision =>
      simp only [runAction, Option.some.injEq, Prod.mk.injEq] at hrun
      obtain ⟨-, rfl⟩ := hrun
      have hchild : (decision.task path ⟨shared.nextDirectoryId⟩).elim 0
          (FallbackTask.weight source depth) =
          (EntryOutcome.directory path name decision).visit.elim 0 (visitWeight source depth) := by
        cases decision <;> rfl
      simp only [DirectoryJob.weight, htodo, List.map_cons, List.sum_cons, WalkAction.weight, hchild]
      omega
  | emitDirectory record child =>
      simp only [runAction, Option.some.injEq, Prod.mk.injEq] at hrun
      obtain ⟨-, rfl⟩ := hrun
      have hchild : (child.toList.map (FallbackTask.weight source depth)).sum =
          child.elim 0 (FallbackTask.weight source depth) := by
        cases child <;> simp
      simp only [DirectoryJob.weight, htodo, List.map_cons, List.sum_cons, WalkAction.weight,
        List.map_append, List.sum_append, hchild]
      omega
  | _ =>
      simp only [runAction, Option.some.injEq, Prod.mk.injEq] at hrun
      obtain ⟨-, rfl⟩ := hrun
      simp only [DirectoryJob.weight, htodo, List.map_cons, List.sum_cons, WalkAction.weight]
      omega

omit [DecidableEq P] in
/-- No action panics when the trackers are sound. -/
theorem exists_runAction (order : IterationOrder) {claimed : Set (UInt64 × BitVec 128)}
    (hclaims : shared.Claims claimed) (action : WalkAction P N) (rest : List (WalkAction P N)) :
    ∃ shared' job', runAction source order shared job rest action = some (shared', job') := by
  cases action with
  | flush =>
      simp only [runAction]
      split <;> exact ⟨_, _, rfl⟩
  | file entry id =>
      obtain ⟨bytes, next, hclaim, -⟩ := claimShared_spec order hclaims entry
      exact ⟨_, _, by simp only [runAction, hclaim, Option.map_some]; rfl⟩
  | _ => exact ⟨_, _, rfl⟩

/-- An entry leaves less to do. -/
theorem runEntry_weight {entry : Option (FindEntry N)} {entries : List (Option (FindEntry N))}
    (htodo : job.todo = []) (hentries : job.entries = some (entry :: entries)) :
    (runEntry source job entries entry).weight source depth < job.weight source depth := by
  have hbefore : job.weight source depth = 2 + 6 +
      (outcomeWeight source depth (entryOutcome source job.task.path job.task.ancestors entry) +
        (entries.map (fun entry ↦ outcomeWeight source depth
          (entryOutcome source job.task.path job.task.ancestors entry))).sum) + 0 +
      (job.newTasks.map (FallbackTask.weight source depth)).sum +
        8 * job.totals.pending.length := by
    simp only [DirectoryJob.weight, htodo, hentries, Option.getD_some, List.map_cons, List.sum_cons]
    rfl
  rw [hbefore]
  unfold runEntry
  cases houtcome : entryOutcome source job.task.path job.task.ancestors entry with
  | skipped =>
      simp only [DirectoryJob.weight, htodo, Option.isSome_some, if_true, Option.getD_some,
        List.map_nil, List.sum_nil, outcomeWeight, EntryOutcome.visit, Option.elim_none]
      omega
  | file file =>
      have hflush : ((if job.totals.pending.length + 1 = 64 then [.flush] else [] :
          List (WalkAction P N)).map (WalkAction.weight source depth)).sum ≤ 1 := by
        split <;> simp [WalkAction.weight]
      simp only [DirectoryJob.weight, Option.isSome_some, if_true, Option.getD_some,
        outcomeWeight, EntryOutcome.visit, Option.elim_none, List.length_append, List.length_singleton]
      simp only [outcomeWeight] at *
      omega
  | directory path name decision =>
      simp only [DirectoryJob.weight, Option.isSome_some, if_true, Option.getD_some,
        outcomeWeight, List.map_cons, List.map_nil, List.sum_cons, List.sum_nil, WalkAction.weight]
      omega

/-- A step of a job leaves less to do. -/
theorem stepDirectory_weight {order : IterationOrder}
    (hstep : stepDirectory source order shared job = some (shared', job')) :
    job'.weight source depth < job.weight source depth := by
  -- the loop over the entries ends
  have hend : ∀ entries, job.entries = some entries → job.todo = [] →
      ({ job with todo := endActions, entries := none } : DirectoryJob P N).weight source depth <
        job.weight source depth := by
    intro entries hentries htodo
    simp only [DirectoryJob.weight, htodo, hentries, endActions, WalkAction.weight, List.map_cons,
      List.map_nil, List.sum_cons, List.sum_nil, Option.isSome_none, Option.isSome_some, if_true,
      Bool.false_eq_true, if_false, Option.getD_none]
    omega
  unfold stepDirectory at hstep
  split at hstep
  case h_1 action rest htodo => exact runAction_weight htodo hstep
  case h_2 htodo hentries =>
    simp only [Option.some.injEq, Prod.mk.injEq] at hstep
    obtain ⟨-, rfl⟩ := hstep
    exact hend [] hentries htodo
  case h_3 entry entries htodo hentries =>
    split at hstep
    case isTrue =>
      simp only [Option.some.injEq, Prod.mk.injEq] at hstep
      obtain ⟨-, rfl⟩ := hstep
      exact hend _ hentries htodo
    case isFalse =>
      simp only [Option.some.injEq, Prod.mk.injEq] at hstep
      obtain ⟨-, rfl⟩ := hstep
      exact runEntry_weight htodo hentries
  case h_4 => cases hstep

/-- A job goes on or has a result. -/
theorem exists_stepDirectory (order : IterationOrder) {claimed : Set (UInt64 × BitVec 128)}
    (hclaims : shared.Claims claimed) :
    (∃ shared' job', stepDirectory source order shared job = some (shared', job')) ∨
      job.todo = [] ∧ job.entries = none := by
  unfold stepDirectory
  cases htodo : job.todo with
  | cons action rest => exact Or.inl (exists_runAction order hclaims action rest)
  | nil =>
      cases hentries : job.entries with
      | none => exact Or.inr ⟨rfl, rfl⟩
      | some entries =>
          cases entries with
          | nil => exact Or.inl ⟨_, _, rfl⟩
          | cons entry entries =>
              refine Or.inl ?_
              dsimp only
              split <;> exact ⟨_, _, rfl⟩

/-- The weight of a job before its first step. -/
theorem startDirectory_weight {totals : FallbackTotals N} (hpending : totals.pending = [])
    {task : FallbackTask P} (hdepth : source.tree.DepthAtMost depth task.visit) :
    (startDirectory source shared totals task).weight source depth < task.weight source depth := by
  have hweight : FallbackTask.weight source depth task = _ := visitWeight_eq hdepth
  rw [hweight, WalkSource.outcomes]
  have hsum : (((source.readDir task.path).getD []).map (fun entry ↦
      outcomeWeight source depth (entryOutcome source task.path task.ancestors entry))).sum =
      (((source.readDir task.path).getD []).map
        (outcomeWeight source depth ∘ entryOutcome source task.path task.ancestors)).sum := rfl
  simp only [startDirectory, DirectoryJob.weight, hpending, List.map_nil, List.sum_nil,
    List.length_nil, FallbackTask.visit, List.map_map]
  by_cases hcancelled : shared.cancelled = true
  · simp only [if_pos hcancelled, Option.isSome_none, Bool.false_eq_true, if_false,
      Option.getD_none, List.map_nil, List.sum_nil]
    omega
  · simp only [if_neg hcancelled]
    split <;> omega

/-- The weight left over by a job with a result is more than its new tasks. -/
theorem newTasks_weight (job : DirectoryJob P N) :
    (job.newTasks.map (FallbackTask.weight source depth)).sum + 1 < job.weight source depth := by
  simp only [DirectoryJob.weight]
  omega

/-- A walk that is not cancelled makes progress. -/
def directoryProgress (hwalk : source.Bounded allocation depth root.visit) (rootEvent : WalkEvent) :
    Progress (poolAccount hwalk rootEvent) where
  Live shared := shared.cancelled = false
  task := FallbackTask.weight source depth
  job := DirectoryJob.weight source depth
  start := by
    intro shared totals task others hlive hidle hkeeps
    obtain ⟨pool, hpool⟩ := hkeeps hlive
    have hbounded := (hpool.reachable.accounted hwalk).bounded
      (.directory task) (hpool.parts ▸ Multiset.mem_cons_self _ _)
    exact ⟨shared, _, ⟨rfl, rfl⟩, hlive, startDirectory_weight hidle.1 hbounded⟩
  step := by
    intro shared job others hlive hvalid hkeeps
    obtain ⟨pool, hpool⟩ := hkeeps hlive
    have hclaims : shared.Claims _ := hpool.claims
    have hnext : (∃ shared' job', stepDirectory source id shared job = some (shared', job')) ∨
        job.todo = [] ∧ job.entries = none := exists_stepDirectory id hclaims
    rcases hnext with ⟨shared', job', hstep⟩ | ⟨htodo, hentries⟩
    · obtain ⟨hsame, -⟩ := stepDirectory_keeps hwalk rootEvent others hstep
      exact Or.inl ⟨shared', job', ⟨id, hstep⟩, hsame.trans hlive, stepDirectory_weight hstep⟩
    · exact Or.inr ⟨job.totals, job.newTasks, ⟨htodo, hentries, rfl, rfl⟩, newTasks_weight job⟩

end WinBlaze
