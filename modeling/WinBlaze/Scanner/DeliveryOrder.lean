import WinBlaze.Scanner.Pipeline

/-!
# Parents before children

A worker takes up a directory after its record was emitted, so every record is
emitted after the one of its parent. It reaches the channel after it as long as
no worker sends a batch while another one still keeps the record of a parent.
-/

namespace WinBlaze

open PrivateBatches

variable {P N : Type*} {source : WalkSource P N} {config : ScanPipelineConfig} {workerLimit : ℕ}

/-- Every directory is announced before what is in it. -/
abbrev ParentsFirst (events : List ScanEvent) : Prop :=
  InOrder ScanEvent.announced? ScanEvent.parent? events

/-- The record of a directory is among the events. -/
abbrev Announces (events : List ScanEvent) (id : DirectoryId) : Prop :=
  Announced ScanEvent.announced? events id

/-! ## The order of emission -/

/-- The records of a walk, in the order in which they are emitted. -/
def emittedEvents (events : List WalkEvent) : List ScanEvent := events.map WalkEvent.toScanEvent

theorem emittedEvents_concat (events : List WalkEvent) (event : WalkEvent) :
    emittedEvents (events ++ [event]) = emittedEvents events ++ [event.toScanEvent] :=
  List.map_append

/-- The records that an action emits are in the directory of the task. -/
def WalkAction.IsIn (directory : DirectoryId) : WalkAction P N → Prop
  | .emitFile record => record.parentDirectoryId = directory
  | .emitDirectory record child => record.parentDirectoryId = some directory ∧
      ∀ task ∈ child, task.directoryId = record.id
  | _ => True

/-- The directories that a job and its new tasks are in. -/
def DirectoryJob.directories (job : DirectoryJob P N) : Multiset DirectoryId :=
  {job.task.directoryId} + (job.newTasks.map FallbackTask.directoryId : Multiset DirectoryId)

/-- Everything was emitted in order, and so were the directories that are held. -/
def EmittedInOrder (shared : FallbackShared) (held : Multiset DirectoryId) : Prop :=
  ParentsFirst (emittedEvents shared.events) ∧
    ∀ id ∈ held, Announces (emittedEvents shared.events) id

section Emission

variable {shared shared' : FallbackShared} {job job' : DirectoryJob P N}
  {others : Multiset DirectoryId}

theorem EmittedInOrder.mono {held fewer : Multiset DirectoryId} (h : EmittedInOrder shared held)
    (hevents : shared'.events = shared.events) (hfewer : ∀ id ∈ fewer, id ∈ held) :
    EmittedInOrder shared' fewer := by
  rw [EmittedInOrder, hevents]
  exact ⟨h.1, fun id hid ↦ h.2 id (hfewer id hid)⟩

/-- A record is emitted in a directory that is held. -/
theorem EmittedInOrder.emit {held more : Multiset DirectoryId} (h : EmittedInOrder shared held)
    {event : WalkEvent} (hevents : shared'.events = shared.events ++ [event])
    (hparent : ∀ id, event.toScanEvent.parent? = some id → id ∈ held)
    (hmore : ∀ id ∈ more, id ∈ held ∨ event.toScanEvent.announced? = some id) :
    EmittedInOrder shared' more := by
  rw [EmittedInOrder, hevents, emittedEvents_concat]
  refine ⟨inOrder_concat_iff.mpr ⟨h.1, fun id hid ↦ h.2 id (hparent id hid)⟩, fun id hid ↦ ?_⟩
  rcases hmore id hid with hheld | hannounced
  · exact (h.2 id hheld).append_left _
  · exact ⟨_, List.mem_append_right _ (List.mem_singleton.mpr rfl), hannounced⟩

theorem mem_batchActions {first : UInt64} {batch : List (FindEntry N)} {action : WalkAction P N}
    (h : action ∈ batchActions first batch) : ∃ entry id, action = .file entry id := by
  obtain ⟨entry, -, rfl⟩ := List.mem_map.mp h
  exact ⟨_, _, rfl⟩

theorem events_claimShared {order : IterationOrder} {entry : FindEntry N}
    {claimed : UInt64 × FallbackShared} (h : claimShared order shared entry = some claimed) :
    claimed.2.events = shared.events := by
  unfold claimShared at h
  split at h
  case h_1 =>
    split at h
    case isTrue =>
      obtain rfl := Option.some.inj h
      rfl
    case isFalse =>
      obtain ⟨granted, -, rfl⟩ := Option.map_eq_some_iff.mp h
      rfl
  case h_2 =>
    obtain rfl := Option.some.inj h
    rfl

/-- The task of a directory is in the directory that it is about. -/
theorem directoryId_of_task {decision : ReparseDecision P} {path : P} {id : DirectoryId}
    {task : FallbackTask P} (h : decision.task path id = some task) : task.directoryId = id := by
  cases decision with
  | follow ancestors =>
      obtain rfl := Option.some.inj h
      rfl
  | _ => cases h

/-- An action puts only actions on the list that are in the directory of the task. -/
theorem isIn_runAction {order : IterationOrder} {action : WalkAction P N}
    {rest : List (WalkAction P N)} (hrest : ∀ action ∈ rest, action.IsIn job.task.directoryId)
    (hrun : runAction source order shared job rest action = some (shared', job')) :
    ∀ action ∈ job'.todo, action.IsIn job'.task.directoryId := by
  cases action with
  | flush =>
      simp only [runAction] at hrun
      split at hrun
      case isTrue =>
        obtain ⟨rfl, rfl⟩ := Prod.mk.inj (Option.some.inj hrun)
        exact hrest
      case isFalse =>
        obtain ⟨rfl, rfl⟩ := Prod.mk.inj (Option.some.inj hrun)
        refine List.forall_mem_append.mpr ⟨fun action hmem ↦ ?_, hrest⟩
        obtain ⟨entry, id, rfl⟩ := mem_batchActions hmem
        trivial
  | file entry id =>
      obtain ⟨claimed, -, heq⟩ := Option.map_eq_some_iff.mp hrun
      obtain ⟨rfl, rfl⟩ := Prod.mk.inj heq
      exact List.forall_mem_cons.mpr ⟨rfl, List.forall_mem_cons.mpr ⟨trivial, hrest⟩⟩
  | publishWhenFull =>
      obtain ⟨rfl, rfl⟩ := Prod.mk.inj (Option.some.inj hrun)
      dsimp only
      split
      · exact List.forall_mem_cons.mpr ⟨trivial, hrest⟩
      · exact hrest
  | publish =>
      obtain ⟨rfl, rfl⟩ := Prod.mk.inj (Option.some.inj hrun)
      split
      · exact hrest
      · refine List.forall_mem_cons.mpr ⟨trivial, List.forall_mem_cons.mpr ⟨trivial, ?_⟩⟩
        exact List.forall_mem_cons.mpr ⟨trivial, hrest⟩
  | directory path name decision =>
      obtain ⟨rfl, rfl⟩ := Prod.mk.inj (Option.some.inj hrun)
      refine List.forall_mem_cons.mpr ⟨trivial, List.forall_mem_cons.mpr ⟨⟨rfl, ?_⟩, hrest⟩⟩
      exact fun task htask ↦ directoryId_of_task htask
  | _ =>
      obtain ⟨rfl, rfl⟩ := Prod.mk.inj (Option.some.inj hrun)
      exact hrest

/-- The other actions than the two that emit leave the events and the directories alone. -/
theorem quiet_runAction {order : IterationOrder} {action : WalkAction P N}
    {rest : List (WalkAction P N)}
    (hrun : runAction source order shared job rest action = some (shared', job'))
    (hfile : ∀ record, action ≠ .emitFile record)
    (hdirectory : ∀ record child, action ≠ .emitDirectory record child) :
    shared'.events = shared.events ∧ job'.directories = job.directories := by
  cases action with
  | flush =>
      simp only [runAction] at hrun
      split at hrun <;> obtain ⟨rfl, rfl⟩ := Prod.mk.inj (Option.some.inj hrun) <;> exact ⟨rfl, rfl⟩
  | file entry id =>
      obtain ⟨claimed, hclaim, heq⟩ := Option.map_eq_some_iff.mp hrun
      obtain ⟨rfl, rfl⟩ := Prod.mk.inj heq
      exact ⟨events_claimShared hclaim, rfl⟩
  | publish =>
      obtain ⟨rfl, rfl⟩ := Prod.mk.inj (Option.some.inj hrun)
      split <;> exact ⟨rfl, rfl⟩
  | emitFile record => exact absurd rfl (hfile record)
  | emitDirectory record child => exact absurd rfl (hdirectory record child)
  | _ =>
      obtain ⟨rfl, rfl⟩ := Prod.mk.inj (Option.some.inj hrun)
      exact ⟨rfl, rfl⟩

theorem DirectoryJob.mem_directories : job.task.directoryId ∈ job.directories + others :=
  Multiset.mem_add.mpr (Or.inl (Multiset.mem_add.mpr (Or.inl (Multiset.mem_singleton_self _))))

theorem emittedInOrder_runAction {order : IterationOrder} {action : WalkAction P N}
    {rest : List (WalkAction P N)} (haction : action.IsIn job.task.directoryId)
    (hrest : ∀ action ∈ rest, action.IsIn job.task.directoryId)
    (hrun : runAction source order shared job rest action = some (shared', job'))
    (h : EmittedInOrder shared (job.directories + others)) :
    (∀ action ∈ job'.todo, action.IsIn job'.task.directoryId) ∧
      EmittedInOrder shared' (job'.directories + others) := by
  refine ⟨isIn_runAction hrest hrun, ?_⟩
  cases action with
  | emitFile record =>
      obtain ⟨rfl, rfl⟩ := Prod.mk.inj (Option.some.inj hrun)
      refine h.emit rfl (fun id hid ↦ ?_) fun id hid ↦ Or.inl hid
      obtain rfl : job.task.directoryId = id := haction.symm.trans (Option.some.inj hid)
      exact DirectoryJob.mem_directories
  | emitDirectory record child =>
      obtain ⟨rfl, rfl⟩ := Prod.mk.inj (Option.some.inj hrun)
      refine h.emit rfl (fun id hid ↦ ?_) fun id hid ↦ ?_
      · obtain rfl : job.task.directoryId = id := Option.some.inj (haction.1.symm.trans hid)
        exact DirectoryJob.mem_directories
      · simp only [DirectoryJob.directories, List.map_append, ← Multiset.coe_add,
          Multiset.mem_add, Multiset.mem_coe, List.mem_map, Option.mem_toList] at hid ⊢
        rcases hid with (hid | hid | ⟨task, htask, rfl⟩) | hid
        · exact Or.inl (Or.inl (Or.inl hid))
        · exact Or.inl (Or.inl (Or.inr hid))
        · exact Or.inr (congrArg some (haction.2 task htask).symm)
        · exact Or.inl (Or.inr hid)
  | _ =>
      obtain ⟨hevents, hdirectories⟩ := quiet_runAction hrun nofun nofun
      exact h.mono hevents fun _ hid ↦ hdirectories ▸ hid

variable [DecidableEq P]

theorem emittedInOrder_stepDirectory {order : IterationOrder}
    (hvalid : ∀ action ∈ job.todo, action.IsIn job.task.directoryId)
    (hstep : stepDirectory source order shared job = some (shared', job'))
    (h : EmittedInOrder shared (job.directories + others)) :
    (∀ action ∈ job'.todo, action.IsIn job'.task.directoryId) ∧
      EmittedInOrder shared' (job'.directories + others) := by
  have hend : ∀ action ∈ (endActions : List (WalkAction P N)), action.IsIn job.task.directoryId := by
    intro action hmem
    simp only [endActions, List.mem_cons, List.not_mem_nil, or_false] at hmem
    rcases hmem with rfl | rfl <;> trivial
  unfold stepDirectory at hstep
  split at hstep
  case h_1 action rest htodo =>
    rw [htodo] at hvalid
    exact emittedInOrder_runAction (hvalid action List.mem_cons_self)
      (fun other hmem ↦ hvalid other (List.mem_cons_of_mem _ hmem)) hstep h
  case h_2 htodo _ =>
    obtain ⟨rfl, rfl⟩ := Prod.mk.inj (Option.some.inj hstep)
    exact ⟨hend, h⟩
  case h_3 entry entries htodo _ =>
    split at hstep
    case isTrue =>
      obtain ⟨rfl, rfl⟩ := Prod.mk.inj (Option.some.inj hstep)
      exact ⟨hend, h⟩
    case isFalse =>
      obtain ⟨rfl, rfl⟩ := Prod.mk.inj (Option.some.inj hstep)
      unfold runEntry
      split
      · exact ⟨hvalid, h⟩
      · refine ⟨fun action hmem ↦ ?_, h⟩
        dsimp only at hmem
        split at hmem
        case isTrue =>
          obtain rfl := List.mem_singleton.mp hmem
          trivial
        case isFalse => cases hmem
      · refine ⟨fun action hmem ↦ ?_, h⟩
        simp only [List.mem_cons, List.not_mem_nil, or_false] at hmem
        rcases hmem with rfl | rfl <;> trivial
  case h_4 => cases hstep

end Emission

variable [DecidableEq P]

/-- The directories that tasks and jobs are in. -/
def directoryAccount (source : WalkSource P N) :
    Account (directoryProcessing source) (Multiset DirectoryId) where
  task task := {task.directoryId}
  job := DirectoryJob.directories
  Idle _ := True
  Valid job := ∀ action ∈ job.todo, action.IsIn job.task.directoryId
  Keeps := EmittedInOrder
  start := by
    rintro shared shared' totals task job others - ⟨rfl, rfl⟩ h
    exact ⟨fun action hmem ↦ (List.not_mem_nil hmem).elim, h⟩
  step := by
    rintro shared shared' job job' others hvalid ⟨order, hstep⟩ h
    exact emittedInOrder_stepDirectory hvalid hstep h
  result := by
    rintro shared job totals newTasks others - ⟨-, -, rfl, rfl⟩ h
    refine ⟨trivial, h.mono rfl fun id hid ↦ ?_⟩
    have hsum : (job.newTasks.map fun task ↦ ({task.directoryId} : Multiset DirectoryId)).sum =
        (job.newTasks.map FallbackTask.directoryId : Multiset DirectoryId) := by
      induction job.newTasks with
      | nil => rfl
      | cons task rest ih =>
          rw [List.map_cons, List.sum_cons, ih, List.map_cons, ← Multiset.cons_coe,
            Multiset.singleton_add]
    rw [hsum] at hid
    rw [DirectoryJob.directories, add_assoc]
    exact Multiset.mem_add.mpr (Or.inr hid)
  other := by
    rintro shared shared' all rfl h
    exact h

/-- Every walk emits each record after the one of its parent. -/
theorem parentsFirst_emittedEvents {path : P} {ancestors : AncestorChain P} {name : String}
    {walk : FallbackWalk FallbackShared (FallbackTotals N) (FallbackTask P) (DirectoryJob P N)}
    (h : FallbackWalk.Reachable (directoryProcessing source) workerLimit {}
      (.initial (rootEvent source path name)) (rootTask ⟨path, ancestors⟩) walk) :
    ParentsFirst (emittedEvents walk.shared.events) := by
  have hroot : (directoryAccount source).Keeps (.initial (rootEvent source path name))
      ((directoryAccount source).task (rootTask ⟨path, ancestors⟩)) := by
    refine ⟨?_, fun id hid ↦ ?_⟩
    · refine inOrder_concat_iff.mpr ⟨inOrder_nil, fun id hid ↦ ?_⟩
      cases hid
    · obtain rfl := Multiset.mem_singleton.mp hid
      exact ⟨_, List.mem_singleton.mpr rfl, rfl⟩
  have hholds : (directoryAccount source).Holds walk := Account.holds_of_reachable trivial hroot h
  exact hholds.keeps.1

/-! ## The order of delivery -/

namespace PipelinedWalk

/-- What arrived, and what every pipeline keeps. -/
def batches (state : PipelinedWalk P N) : Batches (Option ℕ) ScanEvent where
  delivered := state.delivered
  batch i := (state.pipelines i).buffer

omit [DecidableEq P] in
theorem batches_flush (state : PipelinedWalk P N) (i : Option ℕ) :
    (state.flush i).batches = state.batches.send i := by
  refine congrArg (Batches.mk _) (funext fun j ↦ ?_)
  by_cases hj : j = i
  · rw [hj, pipelines_flush_self, Function.update_self]
  · rw [pipelines_flush_of_ne hj, Function.update_of_ne hj]
    rfl

omit [DecidableEq P] in
theorem batches_queue (state : PipelinedWalk P N) (i : Option ℕ) (event : ScanEvent) :
    (state.queue i event).batches = state.batches.push i event := by
  refine congrArg (Batches.mk _) (funext fun j ↦ ?_)
  by_cases hj : j = i
  · rw [hj, pipelines_queue_self, Function.update_self]
    rfl
  · rw [pipelines_queue_of_ne hj, Function.update_of_ne hj]
    rfl

/-- The walk emits in order, everything emitted arrived or is in a pipeline, and
no directory is announced more often than it was emitted. -/
structure Delivering (source : WalkSource P N) (workerLimit : ℕ) (path : P)
    (ancestors : AncestorChain P) (name : String) (state : PipelinedWalk P N) : Prop where
  reachable : FallbackWalk.Reachable (directoryProcessing source) workerLimit {}
    (.initial (rootEvent source path name)) (rootTask ⟨path, ancestors⟩) state.walk
  sound : Batches.Sound ScanEvent.announced? ScanEvent.parent?
    (emittedEvents state.walk.shared.events) state.batches
  counted : Batches.Counted ScanEvent.announced? (emittedEvents state.walk.shared.events)
    state.batches

section Steps

variable {path : P} {ancestors : AncestorChain P} {name : String} {volume : VolumeRecord}
  {state before after : PipelinedWalk P N} {i : Option ℕ}

theorem delivering_initial : (initial source volume ⟨path, ancestors⟩ name).Delivering source
    workerLimit path ancestors name := by
  refine ⟨.refl, ⟨fun event hevent ↦ ?_, fun j front event rest heq ↦ ?_⟩, fun id senders ↦ ?_⟩
  · obtain rfl := List.mem_singleton.mp hevent
    exact Or.inl (List.mem_cons_of_mem _ List.mem_cons_self)
  · cases front <;> cases heq
  · have hzero : ∑ j ∈ senders, announcements ScanEvent.announced?
        ((initial source volume ⟨path, ancestors⟩ name).batches.batch j) id = 0 :=
      Finset.sum_eq_zero fun _ _ ↦ rfl
    rw [hzero, Nat.add_zero]
    have hopening : (initial source volume ⟨path, ancestors⟩ name).batches.delivered =
        [.sessionStarted volume] ++ ([(rootEvent source path name).toScanEvent] ++
          [.progress ⟨1, 0, 0, 0⟩]) := rfl
    rw [hopening, announcements, List.countP_append, List.countP_append]
    exact (Nat.zero_add _).le

theorem parentsFirst_initial (source : WalkSource P N) (volume : VolumeRecord) (root : Visit P)
    (name : String) : ParentsFirst (initial source volume root name).delivered := by
  refine inOrder_concat_iff.mpr ⟨inOrder_concat_iff.mpr ⟨inOrder_concat_iff.mpr
    ⟨inOrder_nil, ?_⟩, ?_⟩, ?_⟩
  all_goals
    intro id hid
    cases hid

/-- A step of the walk that emits nothing. -/
theorem Delivering.quiet (h : state.Delivering source workerLimit path ancestors name)
    {walk : FallbackWalk FallbackShared (FallbackTotals N) (FallbackTask P) (DirectoryJob P N)}
    (hstep : FallbackStep (directoryProcessing source) workerLimit {} state.walk walk)
    (hevents : walk.shared.events = state.walk.shared.events) :
    Delivering source workerLimit path ancestors name { state with walk := walk } := by
  refine ⟨h.reachable.tail hstep, ?_, ?_⟩
  · rw [hevents]
    exact h.sound
  · rw [hevents]
    exact h.counted

theorem Delivering.flush (h : state.Delivering source workerLimit path ancestors name)
    (i : Option ℕ) : (state.flush i).Delivering source workerLimit path ancestors name := by
  refine ⟨h.reachable, ?_, ?_⟩
  · rw [batches_flush]
    exact h.sound.send i
  · rw [batches_flush]
    exact h.counted.send i

theorem Delivering.report (h : state.Delivering source workerLimit path ancestors name)
    {event : ScanEvent} (hreport : event.isReport = true) (i : Option ℕ) :
    (state.queue i event).Delivering source workerLimit path ancestors name := by
  have hneeds : event.parent? = none ∧ event.announced? = none := by
    cases event <;> first | exact ⟨rfl, rfl⟩ | cases hreport
  have hsound := h.sound.push (a := event) i fun id hid ↦ by
    rw [hneeds.1] at hid
    cases hid
  refine ⟨h.reachable, ?_, fun id senders ↦ ?_⟩
  · rw [batches_queue]
    exact hsound.mono fun other hother ↦ List.mem_append_left _ hother
  · have hcounted := h.counted.push i event id senders
    have hnone : announcements ScanEvent.announced? [event] id = 0 := by
      simp [announcements, hneeds.2]
    have happend : announcements ScanEvent.announced?
        (emittedEvents state.walk.shared.events ++ [event]) id =
          announcements ScanEvent.announced? (emittedEvents state.walk.shared.events) id := by
      rw [announcements, List.countP_append]
      exact Nat.add_eq_left.mpr hnone
    rw [happend] at hcounted
    rw [batches_queue]
    exact hcounted

theorem Delivering.record (h : state.Delivering source workerLimit path ancestors name)
    {walk : FallbackWalk FallbackShared (FallbackTotals N) (FallbackTask P) (DirectoryJob P N)}
    (hstep : FallbackStep (directoryProcessing source) workerLimit {} state.walk walk)
    {event : WalkEvent} (hevents : walk.shared.events = state.walk.shared.events ++ [event])
    (i : Option ℕ) :
    Delivering source workerLimit path ancestors name
      (queue { state with walk := walk } i event.toScanEvent) := by
  have hreach := h.reachable.tail hstep
  have hemitted : emittedEvents walk.shared.events =
      emittedEvents state.walk.shared.events ++ [event.toScanEvent] := by
    rw [hevents, emittedEvents_concat]
  have horder := parentsFirst_emittedEvents hreach
  rw [hemitted] at horder
  refine ⟨hreach, ?_, ?_⟩
  · rw [batches_queue]
    refine Eq.subst (motive := fun events ↦ Batches.Sound _ _ events _) hemitted.symm ?_
    exact h.sound.push i (inOrder_concat_iff.mp horder).2
  · rw [batches_queue]
    refine Eq.subst (motive := fun events ↦ Batches.Counted _ events _) hemitted.symm ?_
    exact h.counted.push i event.toScanEvent

omit [DecidableEq P] in
theorem enqueue_eq (config : ScanPipelineConfig) (state : PipelinedWalk P N) (i : Option ℕ)
    (event : ScanEvent) :
    state.enqueue config i event = state.queue i event ∨
      state.enqueue config i event = (state.queue i event).flush i := by
  rw [enqueue]
  split
  · exact Or.inr rfl
  · exact Or.inl rfl

/-- The sender of a step collects at most one event before it sends. -/
theorem Delivering.exists_collected (h : before.Delivering source workerLimit path ancestors name)
    (hstep : PipelinedStep source config workerLimit i before after) :
    ∃ collected : PipelinedWalk P N,
      collected.Delivering source workerLimit path ancestors name ∧
      collected.delivered = before.delivered ∧
      (∀ j, j ≠ i → collected.pipelines j = before.pipelines j) ∧
      (after = collected ∨ after = collected.flush i) := by
  cases hstep with
  | quiet hstep halone hevents =>
      exact ⟨_, h.quiet hstep hevents, rfl, fun _ _ ↦ rfl, Or.inl rfl⟩
  | @record _ i totals job job' shared order event hphase hwork hevents =>
      have hrecord := h.record (.process hphase ⟨order, hwork⟩) hevents (before.pipelineOf i)
      exact ⟨_, hrecord, rfl, fun j hj ↦ pipelines_queue_of_ne hj _ _, enqueue_eq config _ _ _⟩
  | @report _ i totals job event hphase hreport =>
      have hqueued := h.report hreport (before.pipelineOf i)
      exact ⟨_, hqueued, rfl, fun j hj ↦ pipelines_queue_of_ne hj _ _, enqueue_eq config _ _ _⟩
  | share hstep halone hshared hevents =>
      exact ⟨_, h.quiet hstep hevents, rfl, fun _ _ ↦ rfl, Or.inr rfl⟩
  | leave hphase => exact ⟨_, h, rfl, fun _ _ ↦ rfl, Or.inr rfl⟩

theorem Delivering.step (h : before.Delivering source workerLimit path ancestors name)
    (hstep : PipelinedStep source config workerLimit i before after) :
    after.Delivering source workerLimit path ancestors name := by
  obtain ⟨collected, hcollected, -, -, rfl | rfl⟩ := h.exists_collected hstep
  · exact hcollected
  · exact hcollected.flush i

/-- When a sender sends a batch, no other pipeline still keeps the record of a
directory that the batch has events in. -/
def SendsBehindParents (i : Option ℕ) (before after : PipelinedWalk P N) : Prop :=
  ∀ event ∈ after.delivered.drop before.delivered.length, ∀ parent, event.parent? = some parent →
    ∀ j, j ≠ i → ¬ Announces (before.pipelines j).buffer parent

omit [DecidableEq P] in
theorem sendsBehindParents_flush_iff {collected : PipelinedWalk P N}
    (hdelivered : collected.delivered = before.delivered)
    (hothers : ∀ j, j ≠ i → collected.pipelines j = before.pipelines j) :
    SendsBehindParents i before (collected.flush i) ↔
      Batches.SendsAnnounced ScanEvent.announced? ScanEvent.parent? i collected.batches := by
  have hsent : (collected.flush i).delivered.drop before.delivered.length =
      collected.batches.batch i := by
    rw [← hdelivered]
    exact List.drop_left
  rw [SendsBehindParents, hsent]
  refine forall₂_congr fun event _ ↦ forall₂_congr fun parent _ ↦ forall₂_congr fun j hj ↦ ?_
  rw [← hothers j hj]
  rfl

theorem Delivering.parentsFirst_step (h : before.Delivering source workerLimit path ancestors name)
    (hstep : PipelinedStep source config workerLimit i before after)
    (horder : ParentsFirst before.delivered) (hsends : SendsBehindParents i before after) :
    ParentsFirst after.delivered := by
  obtain ⟨collected, hcollected, hdelivered, hothers, rfl | rfl⟩ := h.exists_collected hstep
  · rwa [hdelivered]
  · rw [← hdelivered] at horder
    exact hcollected.sound.inOrder_send horder
      ((sendsBehindParents_flush_iff hdelivered hothers).mp hsends)

/-- The directories that were emitted have different ids. -/
def DistinctDirectories (state : PipelinedWalk P N) : Prop :=
  ((directoriesOf state.walk.shared.events).map DirectoryRecord.id).Nodup

omit [DecidableEq P] in
theorem announcements_le_one (h : state.DistinctDirectories) (id : DirectoryId) :
    announcements ScanEvent.announced? (emittedEvents state.walk.shared.events) id ≤ 1 := by
  have hcount : ∀ events : List WalkEvent, announcements ScanEvent.announced? (emittedEvents events) id =
      ((directoriesOf events).map DirectoryRecord.id).count id := by
    intro events
    induction events with
    | nil => rfl
    | cons event rest ih =>
        cases event with
        | file record => exact ih
        | directory record =>
            have hcons : directoriesOf (.directory record :: rest) = record :: directoriesOf rest := rfl
            have hemitted : emittedEvents (.directory record :: rest) =
                .directoryFound record :: emittedEvents rest := rfl
            rw [hcons, hemitted, List.map_cons, List.count_cons, ← ih, announcements,
              List.countP_cons]
            simp [ScanEvent.announced?, announcements]
  rw [hcount]
  exact List.nodup_iff_count_le_one.mp h id

theorem Delivering.sendsBehindParents_step
    (h : before.Delivering source workerLimit path ancestors name)
    (hstep : PipelinedStep source config workerLimit i before after)
    (hdistinct : after.DistinctDirectories) (horder : ParentsFirst after.delivered) :
    SendsBehindParents i before after := by
  obtain ⟨collected, hcollected, hdelivered, hothers, rfl | rfl⟩ := h.exists_collected hstep
  · intro event hevent
    rw [hdelivered, List.drop_length] at hevent
    cases hevent
  · apply (sendsBehindParents_flush_iff hdelivered hothers).mpr
    exact hcollected.counted.sendsAnnounced (announcements_le_one hdistinct) horder

/-- Every step of a run sends behind the parents. -/
def AlwaysBehindParents (start : PipelinedWalk P N) (steps : List (Option ℕ × PipelinedWalk P N)) :
    Prop :=
  List.IsChain (fun before after ↦ SendsBehindParents after.1 before.2 after.2)
    ((none, start) :: steps)

/-- In a run whose steps all send behind the parents, every state has the parents first. -/
theorem Delivering.parentsFirst_run {start : PipelinedWalk P N}
    (h : start.Delivering source workerLimit path ancestors name)
    (horder : ParentsFirst start.delivered) {steps : List (Option ℕ × PipelinedWalk P N)}
    (hrun : IsRun source config workerLimit start steps) (hbehind : AlwaysBehindParents start steps) :
    ∀ step ∈ steps, ParentsFirst step.2.delivered := by
  unfold IsRun at hrun
  unfold AlwaysBehindParents at hbehind
  generalize none = label at hrun hbehind
  induction steps generalizing start label with
  | nil => exact fun step hstep ↦ (List.not_mem_nil hstep).elim
  | cons next rest ih =>
      obtain ⟨hstep, hrest⟩ := List.isChain_cons_cons.mp hrun
      obtain ⟨hsends, hlater⟩ := List.isChain_cons_cons.mp hbehind
      have hnext := h.parentsFirst_step hstep horder hsends
      intro step hmem
      rcases List.mem_cons.mp hmem with rfl | hmem
      · exact hnext
      · exact ih (h.step hstep) hnext next.1 hrest hlater step hmem

/-- Where directories have different ids, only such runs do. -/
theorem Delivering.alwaysBehindParents {start : PipelinedWalk P N}
    (h : start.Delivering source workerLimit path ancestors name)
    {steps : List (Option ℕ × PipelinedWalk P N)}
    (hrun : IsRun source config workerLimit start steps)
    (hdistinct : ∀ step ∈ steps, step.2.DistinctDirectories)
    (horder : ∀ step ∈ steps, ParentsFirst step.2.delivered) : AlwaysBehindParents start steps := by
  unfold IsRun at hrun
  unfold AlwaysBehindParents
  generalize none = label at hrun ⊢
  induction steps generalizing start label with
  | nil => exact List.isChain_singleton _
  | cons next rest ih =>
      obtain ⟨hstep, hrest⟩ := List.isChain_cons_cons.mp hrun
      refine List.isChain_cons_cons.mpr ⟨?_, ?_⟩
      · exact h.sendsBehindParents_step hstep (hdistinct next List.mem_cons_self)
          (horder next List.mem_cons_self)
      · exact ih (h.step hstep) (fun step hmem ↦ hdistinct step (List.mem_cons_of_mem _ hmem))
          (fun step hmem ↦ horder step (List.mem_cons_of_mem _ hmem)) next.1 hrest

/-! ## Batches of one event -/

/-- No pipeline keeps anything. -/
def KeepsNothing (state : PipelinedWalk P N) : Prop := ∀ j, (state.pipelines j).buffer = []

theorem KeepsNothing.step (h : before.KeepsNothing) (hconfig : config.batchSize ≤ 1)
    (hstep : PipelinedStep source config workerLimit i before after) : after.KeepsNothing := by
  have hflush : ∀ (state : PipelinedWalk P N) (i : Option ℕ),
      (∀ j, j ≠ i → (state.pipelines j).buffer = []) → (state.flush i).KeepsNothing := by
    intro state i hothers j
    by_cases hj : j = i
    · rw [hj, pipelines_flush_self]
    · rw [pipelines_flush_of_ne hj]
      exact hothers j hj
  have henqueue : ∀ (state : PipelinedWalk P N) (i : Option ℕ) (event : ScanEvent),
      state.KeepsNothing → (state.enqueue config i event).KeepsNothing := by
    intro state i event hstate
    have hfull : ((state.queue i event).pipelines i).shouldFlush config = true := by
      have hbuffer : ((state.queue i event).pipelines i).buffer = [event] := by
        rw [pipelines_queue_self, ScanEventPipeline.queue, hstate i, List.nil_append]
      rw [ScanEventPipeline.shouldFlush, hbuffer, List.length_singleton, Nat.max_eq_right hconfig]
      rfl
    have heq : state.enqueue config i event = (state.queue i event).flush i := by
      rw [enqueue]
      exact if_pos (by rw [hfull, Bool.or_true])
    rw [heq]
    refine hflush _ i fun j hj ↦ ?_
    rw [pipelines_queue_of_ne hj]
    exact hstate j
  cases hstep with
  | quiet => exact h
  | record => exact henqueue _ _ _ h
  | report => exact henqueue _ _ _ h
  | share => exact hflush _ _ fun j _ ↦ h j
  | leave => exact hflush _ _ fun j _ ↦ h j

/-- Batches of one event never overtake a parent. -/
theorem alwaysBehindParents_of_batchSize {start : PipelinedWalk P N} (h : start.KeepsNothing)
    (hconfig : config.batchSize ≤ 1) {steps : List (Option ℕ × PipelinedWalk P N)}
    (hrun : IsRun source config workerLimit start steps) : AlwaysBehindParents start steps := by
  unfold IsRun at hrun
  unfold AlwaysBehindParents
  generalize none = label at hrun ⊢
  induction steps generalizing start label with
  | nil => exact List.isChain_singleton _
  | cons next rest ih =>
      obtain ⟨hstep, hrest⟩ := List.isChain_cons_cons.mp hrun
      refine List.isChain_cons_cons.mpr ⟨fun event _ parent _ j _ ↦ ?_, ?_⟩
      · rintro ⟨announcement, hmem, -⟩
        rw [h j] at hmem
        cases hmem
      · exact ih (h.step hconfig hstep) next.1 hrest

end Steps

end PipelinedWalk

end WinBlaze
