import WinBlaze.Scanner.DirectoryGraph
import WinBlaze.Scanner.FallbackBudget
import WinBlaze.Scanner.WalkAgreement

/-!
# Every walk of a finite graph ends

The tree that a walk unfolds from a finite graph has a bounded depth. So the
recursion of the sequential walk ends, and the workers of the fallback walk take
no more tasks than the tree has nodes, each of which is done after finitely many
steps.
-/

namespace WinBlaze

variable {P N : Type*} [DecidableEq P] (source : WalkSource P N) (depth : ℕ)

/-! ## Tasks -/

/-- The directories below an entry. -/
def outcomeSize (outcome : EntryOutcome P N) : ℕ :=
  outcome.visit.elim 0 (source.tree.size depth)

def FallbackTask.size (task : FallbackTask P) : ℕ := source.tree.size depth task.visit

def WalkAction.size : WalkAction P N → ℕ
  | .directory path name decision => outcomeSize source depth (.directory path name decision)
  | .emitDirectory _ child => child.elim 0 (FallbackTask.size source depth)
  | _ => 0

/-- The directories that a job may still come to. -/
def DirectoryJob.size (job : DirectoryJob P N) : ℕ :=
  ((job.entries.getD []).map (fun entry ↦
      outcomeSize source depth (entryOutcome source job.task.path job.task.ancestors entry))).sum +
    (job.todo.map (WalkAction.size source depth)).sum +
    (job.newTasks.map (FallbackTask.size source depth)).sum

variable {source depth} {shared shared' : FallbackShared} {job job' : DirectoryJob P N}

/-- An action hands on what it came to. -/
theorem runAction_size {order : IterationOrder} {action : WalkAction P N}
    {rest : List (WalkAction P N)} (htodo : job.todo = action :: rest)
    (hrun : runAction source order shared job rest action = some (shared', job')) :
    job'.size source depth = job.size source depth := by
  cases action with
  | flush =>
      simp only [runAction] at hrun
      split at hrun
      · simp only [Option.some.injEq, Prod.mk.injEq] at hrun
        obtain ⟨-, rfl⟩ := hrun
        simp [DirectoryJob.size, htodo, WalkAction.size]
      · simp only [Option.some.injEq, Prod.mk.injEq] at hrun
        obtain ⟨-, rfl⟩ := hrun
        have hbatch : ((batchActions (P := P) shared.nextFileId job.totals.pending).map
            (WalkAction.size source depth)).sum = 0 := by
          simp [batchActions, Function.comp_def, WalkAction.size]
        simp [DirectoryJob.size, htodo, WalkAction.size, hbatch]
  | file entry id =>
      simp only [runAction, Option.map_eq_some_iff, Prod.mk.injEq] at hrun
      obtain ⟨claimed, -, -, rfl⟩ := hrun
      simp [DirectoryJob.size, htodo, WalkAction.size]
  | publishWhenFull =>
      simp only [runAction, Option.some.injEq, Prod.mk.injEq] at hrun
      obtain ⟨-, rfl⟩ := hrun
      by_cases hfull : 512 ≤ job.totals.files
      · simp [DirectoryJob.size, htodo, WalkAction.size, if_pos hfull]
      · simp [DirectoryJob.size, htodo, WalkAction.size, if_neg hfull]
  | publish =>
      simp only [runAction, Option.some.injEq, Prod.mk.injEq] at hrun
      obtain ⟨-, rfl⟩ := hrun
      split <;> simp [DirectoryJob.size, htodo, WalkAction.size]
  | directory path name decision =>
      simp only [runAction, Option.some.injEq, Prod.mk.injEq] at hrun
      obtain ⟨-, rfl⟩ := hrun
      have hchild : (decision.task path ⟨shared.nextDirectoryId⟩).elim 0
          (FallbackTask.size source depth) =
          outcomeSize source depth (.directory path name decision) := by
        cases decision <;> rfl
      simp [DirectoryJob.size, htodo, WalkAction.size, hchild]
  | emitDirectory record child =>
      simp only [runAction, Option.some.injEq, Prod.mk.injEq] at hrun
      obtain ⟨-, rfl⟩ := hrun
      have hchild : (child.toList.map (FallbackTask.size source depth)).sum =
          child.elim 0 (FallbackTask.size source depth) := by
        cases child <;> simp
      simp only [DirectoryJob.size, htodo, WalkAction.size, List.map_append, List.sum_append, hchild,
        List.map_cons, List.sum_cons]
      omega
  | _ =>
      simp only [runAction, Option.some.injEq, Prod.mk.injEq] at hrun
      obtain ⟨-, rfl⟩ := hrun
      simp [DirectoryJob.size, htodo, WalkAction.size]

/-- A step comes to no more directories than the job had before it. -/
theorem stepDirectory_size {order : IterationOrder}
    (hstep : stepDirectory source order shared job = some (shared', job')) :
    job'.size source depth ≤ job.size source depth := by
  unfold stepDirectory at hstep
  split at hstep
  case h_1 action rest htodo => exact Nat.le_of_eq (runAction_size htodo hstep)
  case h_2 htodo hentries =>
    simp only [Option.some.injEq, Prod.mk.injEq] at hstep
    obtain ⟨-, rfl⟩ := hstep
    simp [DirectoryJob.size, htodo, hentries, endActions, WalkAction.size]
  case h_3 entry entries htodo hentries =>
    split at hstep
    case isTrue =>
      simp only [Option.some.injEq, Prod.mk.injEq] at hstep
      obtain ⟨-, rfl⟩ := hstep
      simp [DirectoryJob.size, htodo, hentries, endActions, WalkAction.size]
    case isFalse =>
      simp only [Option.some.injEq, Prod.mk.injEq] at hstep
      obtain ⟨-, rfl⟩ := hstep
      unfold runEntry
      cases houtcome : entryOutcome source job.task.path job.task.ancestors entry with
      | skipped => simp [DirectoryJob.size, htodo, hentries]
      | file file =>
          have hflush : ((if job.totals.pending.length + 1 = 64 then [.flush] else [] :
              List (WalkAction P N)).map (WalkAction.size source depth)).sum = 0 := by
            split <;> simp [WalkAction.size]
          simp only [DirectoryJob.size, htodo, hentries, hflush, Option.getD_some, List.map_cons,
            List.map_nil, List.sum_cons, List.sum_nil]
          omega
      | directory path name decision =>
          simp only [DirectoryJob.size, htodo, hentries, houtcome, WalkAction.size, Option.getD_some,
            List.map_cons, List.map_nil, List.sum_cons, List.sum_nil]
          omega
  case h_4 => cases hstep

/-- A task that is started comes to itself and to what its job comes to. -/
theorem startDirectory_size {totals : FallbackTotals N} {task : FallbackTask P}
    (hdepth : source.tree.DepthAtMost depth task.visit) :
    (startDirectory source shared totals task).size source depth < task.size source depth := by
  have hsize : FallbackTask.size source depth task =
      1 + ((source.outcomes task.visit).map (outcomeSize source depth)).sum :=
    Unfolding.size_eq hdepth
  rw [hsize, WalkSource.outcomes]
  simp only [startDirectory, DirectoryJob.size, FallbackTask.visit, List.map_nil, List.sum_nil,
    List.map_map]
  by_cases hcancelled : shared.cancelled = true
  · simp only [if_pos hcancelled, Option.getD_none, List.map_nil, List.sum_nil]
    omega
  · simp only [if_neg hcancelled]
    exact Nat.lt_one_add_iff.mpr (le_refl _)

variable (source) in
/-- The directories that tasks and jobs come to. -/
def directoryCosts (hdepth : ∀ visit, source.tree.DepthAtMost depth visit) :
    TaskCosts (directoryProcessing source) where
  task := FallbackTask.size source depth
  job := DirectoryJob.size source depth
  positive _ := Unfolding.size_pos depth _
  start := by
    rintro shared _ totals task _ ⟨rfl, rfl⟩
    exact startDirectory_size (hdepth _)
  step := by
    rintro shared shared' job job' ⟨order, hstep⟩
    exact stepDirectory_size hstep
  result := by
    rintro job _ _ ⟨htodo, hentries, -, rfl⟩
    simp [DirectoryJob.size, htodo, hentries]

/-! ## Jobs -/

/-- A step keeps the trackers sound. -/
theorem stepDirectory_claims {order : IterationOrder} {claimed : Set (UInt64 × BitVec 128)}
    (hclaims : shared.Claims claimed)
    (hstep : stepDirectory source order shared job = some (shared', job')) :
    ∃ claimed', shared'.Claims claimed' := by
  unfold stepDirectory at hstep
  split at hstep
  case h_1 action rest htodo =>
    cases action with
    | file entry id =>
        obtain ⟨bytes, next, hclaim, -, -, -, hnext⟩ := claimShared_spec order hclaims entry
        simp only [runAction, hclaim, Option.map_some, Option.some.injEq, Prod.mk.injEq] at hstep
        exact ⟨_, hstep.1 ▸ hnext⟩
    | flush =>
        simp only [runAction] at hstep
        split at hstep
        · simp only [Option.some.injEq, Prod.mk.injEq] at hstep
          exact ⟨claimed, hstep.1 ▸ hclaims⟩
        · simp only [Option.some.injEq, Prod.mk.injEq] at hstep
          exact ⟨claimed, hstep.1 ▸ hclaims⟩
    | _ =>
        simp only [runAction, Option.some.injEq, Prod.mk.injEq] at hstep
        exact ⟨claimed, hstep.1 ▸ hclaims⟩
  case h_2 =>
    simp only [Option.some.injEq, Prod.mk.injEq] at hstep
    exact ⟨claimed, hstep.1 ▸ hclaims⟩
  case h_3 =>
    split at hstep
    · simp only [Option.some.injEq, Prod.mk.injEq] at hstep
      exact ⟨claimed, hstep.1 ▸ hclaims⟩
    · simp only [Option.some.injEq, Prod.mk.injEq] at hstep
      exact ⟨claimed, hstep.1 ▸ hclaims⟩
  case h_4 => cases hstep

/-- A step of a job, whatever the others did to the shared state before it. -/
def JobStep (source : WalkSource P N) (job job' : DirectoryJob P N) : Prop :=
  ∃ order shared shared', stepDirectory source order shared job = some (shared', job')

/-- A job ends after no more steps than its weight. -/
theorem length_le_weight {jobs : List (DirectoryJob P N)}
    (h : List.IsChain (JobStep source) (job :: jobs)) :
    jobs.length ≤ job.weight source depth := by
  induction jobs generalizing job with
  | nil => exact Nat.zero_le _
  | cons next jobs ih =>
      obtain ⟨⟨order, shared, shared', hstep⟩, hrest⟩ := List.isChain_cons_cons.mp h
      exact Nat.succ_le_of_lt ((ih hrest).trans_lt (stepDirectory_weight hstep))

variable (source) in
/-- Trackers that are sound, whatever is left to do. -/
def trackerAccount : Account (directoryProcessing source) ℕ where
  task _ := 0
  job _ := 0
  Idle := FallbackTotals.Idle
  Valid := DirectoryJob.Valid
  Keeps shared _ := ∃ claimed, shared.Claims claimed
  start := by
    rintro shared _ totals task _ others hidle ⟨rfl, rfl⟩ h
    exact ⟨startDirectory_valid hidle task, h⟩
  step := by
    rintro shared shared' job job' others hvalid ⟨order, hstep⟩ ⟨claimed, hclaims⟩
    exact ⟨stepDirectory_valid hvalid hstep, stepDirectory_claims hclaims hstep⟩
  result := by
    rintro shared job _ _ others hvalid ⟨htodo, hentries, rfl, rfl⟩ h
    exact ⟨hvalid.idle htodo hentries, h⟩
  other := by
    rintro shared _ all rfl h
    exact h

/-- A walk makes progress, cancelled or not. -/
def trackerProgress (hdepth : ∀ visit, source.tree.DepthAtMost depth visit) :
    Progress (trackerAccount source) where
  Live _ := True
  task := FallbackTask.weight source depth
  job := DirectoryJob.weight source depth
  start := by
    intro shared totals task others _ hidle _
    exact ⟨shared, _, ⟨rfl, rfl⟩, trivial, startDirectory_weight hidle.1 (hdepth _)⟩
  step := by
    rintro shared job others - - ⟨claimed, hclaims⟩
    have hnext : (∃ shared' job', stepDirectory source id shared job = some (shared', job')) ∨
        job.todo = [] ∧ job.entries = none := exists_stepDirectory id hclaims
    rcases hnext with ⟨shared', job', hstep⟩ | ⟨htodo, hentries⟩
    · exact Or.inl ⟨shared', job', ⟨id, hstep⟩, trivial, stepDirectory_weight hstep⟩
    · exact Or.inr ⟨job.totals, job.newTasks, ⟨htodo, hentries, rfl, rfl⟩, newTasks_weight job⟩

/-! ## The sequential walk -/

/-- A loop goes through when its steps do, in the same way under all limits. -/
theorem exists_foldlM {σ α ι : Type*} (keeps : σ → Prop) (limits : ι → Prop)
    {step : ι → σ → α → Option σ} {items : List α}
    (h : ∀ item ∈ items, ∀ state, keeps state →
      ∃ next, keeps next ∧ ∀ limit, limits limit → step limit state item = some next)
    {state : σ} (hstate : keeps state) :
    ∃ next, keeps next ∧ ∀ limit, limits limit → items.foldlM (step limit) state = some next := by
  induction items generalizing state with
  | nil => exact ⟨state, hstate, fun _ _ ↦ rfl⟩
  | cons item items ih =>
      obtain ⟨hitem, hitems⟩ := List.forall_mem_cons.mp h
      obtain ⟨next, hnext, hstep⟩ := hitem state hstate
      obtain ⟨final, hfinal, hrest⟩ := ih hitems hnext
      refine ⟨final, hfinal, fun limit hlimit ↦ ?_⟩
      simp only [List.foldlM_cons, hstep limit hlimit]
      exact hrest limit hlimit

/-- The walk of a directory ends, with the same result for every limit of the
depth that is not less than the depth below it. -/
theorem exists_walkDirectoryTree (orders : ℕ → IterationOrder) {directory : P}
    {ancestors : AncestorChain P} (hdepth : source.tree.DepthAtMost depth ⟨directory, ancestors⟩)
    (parent : DirectoryId) {state : DirectoryWalkState}
    (hstate : ∃ claimed, state.physicalIds.Represents claimed) :
    ∃ next, (∃ claimed, next.physicalIds.Represents claimed) ∧ ∀ fuel, depth ≤ fuel →
      walkDirectoryTree source orders fuel directory parent ancestors state = some next := by
  induction depth generalizing directory ancestors parent state with
  | zero => exact hdepth.elim
  | succ depth ih =>
      cases hentries : source.readDir directory with
      | none =>
          refine ⟨state, hstate, fun fuel hfuel ↦ ?_⟩
          obtain ⟨fuel, rfl⟩ := Nat.exists_eq_add_of_le' (Nat.one_le_of_lt hfuel)
          simp only [walkDirectoryTree, hentries]
      | some entries =>
          have hchildren : ∀ entry ∈ entries,
              ∀ child ∈ (entryOutcome source directory ancestors entry).visit,
                source.tree.DepthAtMost depth child := by
            intro entry hentry
            refine hdepth (entryOutcome source directory ancestors entry) ?_
            simp only [WalkSource.tree, WalkSource.outcomes, hentries, Option.getD_some]
            exact List.mem_map_of_mem hentry
          suffices hloop : ∃ next, (∃ claimed, next.physicalIds.Represents claimed) ∧
              ∀ fuel, depth ≤ fuel →
                walkDirectoryTree source orders (fuel + 1) directory parent ancestors state =
                  some next by
            obtain ⟨next, hnext, hloop⟩ := hloop
            refine ⟨next, hnext, fun fuel hfuel ↦ ?_⟩
            obtain ⟨fuel, rfl⟩ := Nat.exists_eq_add_of_le' (Nat.one_le_of_lt hfuel)
            exact hloop fuel (Nat.le_of_succ_le_succ hfuel)
          simp only [walkDirectoryTree, hentries]
          refine exists_foldlM _ (fun fuel ↦ depth ≤ fuel) (fun entry hentry state hstate ↦ ?_) hstate
          have hchild := hchildren entry hentry
          cases houtcome : entryOutcome source directory ancestors entry with
          | skipped => exact ⟨state, hstate, fun _ _ ↦ rfl⟩
          | file file =>
              obtain ⟨claimed, hclaimed⟩ := hstate
              obtain ⟨bytes, tracker, hclaim, -, htracker⟩ :=
                DirectoryWalkState.claimEntry_spec orders hclaimed file
              obtain ⟨next, hemit, hnext⟩ : ∃ next,
                  emitFileRecord source orders state parent file = some next ∧
                    ∃ claimed, next.physicalIds.Represents claimed := by
                simp only [emitFileRecord, hclaim, Option.map_some]
                exact ⟨_, rfl, _, htracker⟩
              exact ⟨next, hnext, fun _ _ ↦ hemit⟩
          | directory path name decision =>
              rw [houtcome] at hchild
              have hemitted : ∃ claimed, (emitDirectoryRecord source state parent path
                  (source.displayName name)).physicalIds.Represents claimed := hstate
              cases decision with
              | follow chain => exact ih (hchild _ rfl) ⟨state.nextDirectoryId⟩ hemitted
              | skippedByPolicy => exact ⟨_, hemitted, fun _ _ ↦ rfl⟩
              | skippedCycle => exact ⟨_, hemitted, fun _ _ ↦ rfl⟩
              | skippedUnresolvable => exact ⟨_, hemitted, fun _ _ ↦ rfl⟩

/-- In a finite static graph of directories with whatever links between them,
under every policy, a walk can visit finitely many directories. The sequential
walk returns. The workers of the fallback walk, as many as they are, take a
bounded number of tasks in every run, do not get stuck in one and can come to
the end from wherever they are; and a task is done after finitely many steps,
whatever happens meanwhile. -/
theorem finite_graph_walk_ends (source : WalkSource P N) {D : Type*} [Fintype D]
    (graph : DirectoryGraph source D) (root : Visit P) (name : String) :
    {visit | Relation.ReflTransGen source.tree.Leads root visit}.Finite ∧
    (∃ depth, ∀ orders, ∃ state, ∀ fuel, depth ≤ fuel →
      walkDirectoryTree source orders fuel root.path ⟨5⟩ root.ancestors
        (.new (rootEvent source root.path name)) = some state) ∧
    (∃ tasks, ∀ workerLimit walk, FallbackReachable source root name workerLimit walk →
      walk.enqueued.length ≤ tasks ∧
      (∀ worker ∈ walk.workers, ∀ job, worker.phase = .processing job →
        (∀ order, ∃ shared' job',
            stepDirectory source order walk.shared job = some (shared', job')) ∨
          (directoryProcessing source).Result job job.totals job.newTasks) ∧
      ∃ final, Relation.ReflTransGen (FallbackStep (directoryProcessing source) workerLimit {})
          walk final ∧
        ∀ worker ∈ final.workers, worker.phase = .done) ∧
    ∀ job, ∃ steps, ∀ jobs, List.IsChain (JobStep source) (job :: jobs) → jobs.length ≤ steps := by
  have hdepth := graph.depthAtMost
  have hidle : FallbackTotals.Idle ({} : FallbackTotals N) := ⟨rfl, rfl, rfl, rfl⟩
  have hroot : (trackerAccount source).Keeps
      (.initial (rootEvent source root.path name)) 0 := by
    exact ⟨∅, FallbackShared.claims_initial _⟩
  refine ⟨(hdepth root).finite, ⟨graph.depth, fun orders ↦ ?_⟩,
    ⟨(rootTask root).size source graph.depth, fun workerLimit walk hreach ↦ ⟨?_, ?_, ?_⟩⟩,
    fun job ↦ ⟨job.weight source graph.depth, fun jobs hjobs ↦ length_le_weight hjobs⟩⟩
  · have hstart : ∃ claimed, (DirectoryWalkState.new
        (rootEvent source root.path name)).physicalIds.Represents claimed :=
      ⟨∅, TrackedVolumes.represents_empty⟩
    obtain ⟨state, -, hstate⟩ := exists_walkDirectoryTree orders (hdepth root) ⟨5⟩ hstart
    exact ⟨state, hstate⟩
  · exact (directoryCosts source hdepth).length_enqueued_le hreach
  · intro worker hworker job hphase
    obtain ⟨claimed, hclaims⟩ := (Account.holds_of_reachable hidle hroot hreach).keeps
    by_cases hdone : job.todo = [] ∧ job.entries = none
    · exact Or.inr ⟨hdone.1, hdone.2, rfl, rfl⟩
    · exact Or.inl fun order ↦ (exists_stepDirectory order hclaims).resolve_right hdone
  · obtain ⟨final, hrun, -, hend⟩ :=
      hreach.exists_finished (trackerProgress hdepth) hidle hroot trivial
    exact ⟨final, hrun, hend⟩

/-! ## A link to a directory above the root -/

namespace LoopSource

/-- The directory that a name leads to: `s` in the volume, and the link `j` in
`s` back to the volume. -/
def follow : Bool → String → Option Bool
  | false, "s" => some true
  | true, "j" => some false
  | _, _ => none

def locate : List String → Option Bool
  | "C:" :: names => names.foldlM follow false
  | _ => none

def entry (name : String) (attributes : FileAttributes) : FindEntry String :=
  { name := name, attributes := attributes, sizeBytes := 0, allocationBytes := 0,
    physicalIdentity := none, createdUtc := 0, modifiedUtc := 0, accessedUtc := 0 }

def contents : Bool → Option (List (Option (FindEntry String)))
  | false => some [some (entry "s" ⟨0x10⟩)]
  | true => some [some (entry "j" ⟨0x410⟩)]

def canonicalPath : Bool → List String
  | false => ["C:"]
  | true => ["C:", "s"]

end LoopSource

/-- A volume whose only directory has a link to the volume. -/
def loopSource : WalkSource (List String) String where
  readDir path := (LoopSource.locate path).bind LoopSource.contents
  canonicalize path := (LoopSource.locate path).map LoopSource.canonicalPath
  stripVerbatimPrefix path := path
  join path name := path ++ [name]
  displayPath path := "\\".intercalate path
  displayName name := name
  isVolumePath _ := false
  allows _ _ := true
  policy := .followAll

theorem LoopSource.locate_append {path : List String} {directory : Bool}
    (h : locate path = some directory) (name : String) :
    locate (path ++ [name]) = follow directory name := by
  unfold locate at h
  split at h
  case h_1 names =>
    simp only [locate, List.cons_append, List.foldlM_append, h]
    cases hfollow : follow directory name <;> simp [hfollow]
  case h_2 => cases h

/-- The walk goes around the loop once. -/
def loopGraph : DirectoryGraph loopSource Bool where
  locate := LoopSource.locate
  contents := LoopSource.contents
  canonicalPath := LoopSource.canonicalPath
  level := Bool.toNat
  readDir_eq _ := rfl
  nested := by
    intro path directory entries entry child hpath hentries hentry hdirectory hplain hchild
    have hfollow := (LoopSource.locate_append hpath entry.name).symm.trans hchild
    cases directory with
    | false =>
        obtain rfl := Option.some.inj hentries
        obtain rfl := Option.some.inj (List.mem_singleton.mp hentry)
        obtain rfl : true = child := Option.some.inj hfollow
        exact Nat.zero_lt_one
    | true =>
        obtain rfl := Option.some.inj hentries
        obtain rfl := Option.some.inj (List.mem_singleton.mp hentry)
        cases hplain
  linked := by
    intro path directory entries entry resolved hpath hentries hentry hdirectory hlink hresolved
    obtain ⟨target, htarget, rfl⟩ := Option.map_eq_some_iff.mp hresolved
    exact ⟨target, htarget, rfl⟩

theorem finite_graph_walk_ends_loop : ∃ tasks, ∀ workerLimit walk,
    FallbackReachable loopSource ⟨["C:", "s"], [["C:", "s"]]⟩ "s" workerLimit walk →
      walk.enqueued.length ≤ tasks := by
  obtain ⟨-, -, ⟨tasks, htasks⟩, -⟩ :=
    finite_graph_walk_ends loopSource loopGraph ⟨["C:", "s"], [["C:", "s"]]⟩ "s"
  exact ⟨tasks, fun workerLimit walk hreach ↦ (htasks workerLimit walk hreach).1⟩

end WinBlaze
