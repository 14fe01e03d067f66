import WinBlaze.Core.Scan
import WinBlaze.Lib.PrivateBatches
import WinBlaze.Scanner.WalkAgreement

/-!
# Event pipelines

Every thread that emits events collects them in a pipeline of its own. A full
pipeline sends its events as one batch, and all batches enter one channel. The
scan thread has a pipeline before it becomes the first worker, and every worker
has another one, which is sent at the latest when the worker leaves.
-/

namespace WinBlaze

structure ScanPipelineConfig where
  batchSize : ℕ := 512
  maxInFlightEvents : ℕ := 1024
  maxInFlightBytes : UInt64 := 8 * 1024 * 1024
  deriving DecidableEq, Repr

def ScanPipelineConfig.shouldApplyBackpressure (config : ScanPipelineConfig) (inFlightEvents : ℕ)
    (inFlightBytes : UInt64) : Bool :=
  config.maxInFlightEvents ≤ inFlightEvents || config.maxInFlightBytes ≤ inFlightBytes

structure ScanEventPipeline where
  buffer : List ScanEvent := []
  bufferedBytes : UInt64 := 0
  deriving DecidableEq, Repr

namespace ScanEvent

/-- The size an event is taken to have. -/
def estimatedBytes : ScanEvent → UInt64
  | .sessionStarted _ | .volumeDiscovered _ => 128
  | .directoryFound directory =>
      max (Saturating.satAdd (.ofNat directory.fullPath.utf8ByteSize)
        (.ofNat directory.name.utf8ByteSize)) 64
  | .fileFound file =>
      Saturating.satAdd (Saturating.satAdd (.ofNat file.fullPath.utf8ByteSize)
        (.ofNat file.name.utf8ByteSize)) 128
  | .issue _ => 96
  | .progress _ => 32
  | .summary _ => 64
  | .completed | .cancelled | .failed _ => 16

/-- The event is not kept back. -/
def forcesFlush : ScanEvent → Bool
  | .progress _ | .summary _ | .completed | .cancelled | .failed _ => true
  | _ => false

/-- What a worker reports besides its records. -/
def isReport : ScanEvent → Bool
  | .issue _ | .progress _ => true
  | _ => false

/-- The directory that an event announces. -/
def announced? : ScanEvent → Option DirectoryId
  | .directoryFound directory => some directory.id
  | _ => none

/-- The directory that an event is in. -/
def parent? : ScanEvent → Option DirectoryId
  | .directoryFound directory => directory.parentDirectoryId
  | .fileFound file => some file.parentDirectoryId
  | _ => none

end ScanEvent

namespace ScanEventPipeline

/-- `enqueue` before it flushes. -/
def queue (pipeline : ScanEventPipeline) (event : ScanEvent) : ScanEventPipeline where
  buffer := pipeline.buffer ++ [event]
  bufferedBytes := Saturating.satAdd pipeline.bufferedBytes event.estimatedBytes

def shouldFlush (config : ScanPipelineConfig) (pipeline : ScanEventPipeline) : Bool :=
  max config.batchSize 1 ≤ pipeline.buffer.length ||
    config.shouldApplyBackpressure pipeline.buffer.length pipeline.bufferedBytes

end ScanEventPipeline

def WalkEvent.toScanEvent : WalkEvent → ScanEvent
  | .directory record => .directoryFound record
  | .file record => .fileFound record

/-- A fallback walk with its pipelines, by worker; `none` is the scan thread
before it becomes the first worker. `delivered` is what the channel received. -/
structure PipelinedWalk (P N : Type*) where
  walk : FallbackWalk FallbackShared (FallbackTotals N) (FallbackTask P) (DirectoryJob P N)
  pipelines : Option ℕ → ScanEventPipeline
  delivered : List ScanEvent

namespace PipelinedWalk

variable {P N : Type*}

/-- The pipeline that worker `i` emits into. -/
def pipelineOf (state : PipelinedWalk P N) (i : ℕ) : Option ℕ :=
  if state.walk.alone then none else some i

def flush (state : PipelinedWalk P N) (i : Option ℕ) : PipelinedWalk P N :=
  { state with
    pipelines := Function.update state.pipelines i {}
    delivered := state.delivered ++ (state.pipelines i).buffer }

def queue (state : PipelinedWalk P N) (i : Option ℕ) (event : ScanEvent) : PipelinedWalk P N :=
  { state with
    pipelines := Function.update state.pipelines i ((state.pipelines i).queue event) }

@[simp] theorem pipelines_flush_self (state : PipelinedWalk P N) (i : Option ℕ) :
    (state.flush i).pipelines i = {} :=
  Function.update_self _ _ _

theorem pipelines_flush_of_ne {i j : Option ℕ} (hj : j ≠ i) (state : PipelinedWalk P N) :
    (state.flush i).pipelines j = state.pipelines j :=
  Function.update_of_ne hj _ _

@[simp] theorem pipelines_queue_self (state : PipelinedWalk P N) (i : Option ℕ)
    (event : ScanEvent) :
    (state.queue i event).pipelines i = (state.pipelines i).queue event :=
  Function.update_self _ _ _

theorem pipelines_queue_of_ne {i j : Option ℕ} (hj : j ≠ i) (state : PipelinedWalk P N)
    (event : ScanEvent) : (state.queue i event).pipelines j = state.pipelines j :=
  Function.update_of_ne hj _ _

def enqueue (config : ScanPipelineConfig) (state : PipelinedWalk P N) (i : Option ℕ)
    (event : ScanEvent) : PipelinedWalk P N :=
  let queued := state.queue i event
  if event.forcesFlush || (queued.pipelines i).shouldFlush config then queued.flush i else queued

/-- The walk after the scan sent its first events. -/
def initial [DecidableEq P] (source : WalkSource P N) (volume : VolumeRecord) (root : Visit P)
    (name : String) : PipelinedWalk P N where
  walk := .initial (.initial (rootEvent source root.path name)) {} (rootTask root)
  pipelines := fun _ ↦ {}
  delivered := [.sessionStarted volume, (rootEvent source root.path name).toScanEvent,
    .progress ⟨1, 0, 0, 0⟩]

end PipelinedWalk

open PipelinedWalk in
/-- The steps of a walk with its pipelines, with the pipeline they can send. -/
inductive PipelinedStep {P N : Type*} [DecidableEq P] (source : WalkSource P N)
    (config : ScanPipelineConfig) (workerLimit : ℕ) :
    Option ℕ → PipelinedWalk P N → PipelinedWalk P N → Prop
  -- a step of the walk that emits nothing
  | quiet {i : Option ℕ} {state : PipelinedWalk P N}
      {walk : FallbackWalk FallbackShared (FallbackTotals N) (FallbackTask P) (DirectoryJob P N)}
      (hstep : FallbackStep (directoryProcessing source) workerLimit {} state.walk walk)
      (halone : walk.alone = state.walk.alone)
      (hevents : walk.shared.events = state.walk.shared.events) :
      PipelinedStep source config workerLimit i state { state with walk := walk }
  -- a record
  | record {state : PipelinedWalk P N} {i : ℕ} {totals : FallbackTotals N}
      {job job' : DirectoryJob P N} {shared : FallbackShared} {order : IterationOrder}
      {event : WalkEvent} (hphase : state.walk.workers[i]? = some ⟨totals, .processing job⟩)
      (hwork : stepDirectory source order state.walk.shared job = some (shared, job'))
      (hevents : shared.events = state.walk.shared.events ++ [event]) :
      PipelinedStep source config workerLimit (state.pipelineOf i) state
        (enqueue config
          { state with
            walk := { state.walk.put i ⟨totals, .processing job'⟩ with shared := shared } }
          (state.pipelineOf i) event.toScanEvent)
  -- an issue, or progress, between two accesses to the shared state
  | report {state : PipelinedWalk P N} {i : ℕ} {totals : FallbackTotals N} {job : DirectoryJob P N}
      {event : ScanEvent} (hphase : state.walk.workers[i]? = some ⟨totals, .processing job⟩)
      (hreport : event.isReport = true) :
      PipelinedStep source config workerLimit (state.pipelineOf i) state
        (enqueue config state (state.pipelineOf i) event)
  -- the scan thread sends its events before there are other workers
  | share {state : PipelinedWalk P N}
      {walk : FallbackWalk FallbackShared (FallbackTotals N) (FallbackTask P) (DirectoryJob P N)}
      (hstep : FallbackStep (directoryProcessing source) workerLimit {} state.walk walk)
      (halone : state.walk.alone = true) (hshared : walk.alone = false)
      (hevents : walk.shared.events = state.walk.shared.events) :
      PipelinedStep source config workerLimit none state (flush { state with walk := walk } none)
  -- the last events of a worker
  | leave {state : PipelinedWalk P N} {i : ℕ} {totals : FallbackTotals N}
      (hphase : state.walk.workers[i]? = some ⟨totals, .done⟩) :
      PipelinedStep source config workerLimit (state.pipelineOf i) state
        (state.flush (state.pipelineOf i))

/-! ## Schedules -/

deriving instance DecidableEq for WalkEvent

section Schedules

variable {P N : Type*} [DecidableEq P] (source : WalkSource P N) (config : ScanPipelineConfig)
  (workerLimit : ℕ) (order : IterationOrder)

namespace FallbackWalk

variable (walk : FallbackWalk FallbackShared (FallbackTotals N) (FallbackTask P) (DirectoryJob P N))

/-- The next step of worker `i` between two directories, where it has one. -/
def advance (i : ℕ) :
    Option (FallbackWalk FallbackShared (FallbackTotals N) (FallbackTask P) (DirectoryJob P N)) :=
  match walk.workers[i]? with
  | some ⟨totals, .checking⟩ =>
      match walk.queue.tasks with
      | [] => some (walk.put i ⟨totals, .done⟩)
      | [task] => some { walk.put i ⟨totals, .received task⟩ with
          queue := { walk.queue with tasks := [] }
          popped := walk.popped ++ [task] }
      | _ => some { walk.put i ⟨{}, .loopTop⟩ with alone := false, workersStarted := 1 }
  | some ⟨totals, .received task⟩ =>
      some (walk.put i ⟨totals, .processing (startDirectory source walk.shared totals task)⟩)
  | some ⟨totals, .finishing newTasks⟩ =>
      if walk.alone then
        some { walk.put i ⟨totals, .checking⟩ with
          queue :=
            { tasks := walk.queue.tasks ++ newTasks
              outstanding := (walk.queue.tasks ++ newTasks).length }
          enqueued := walk.enqueued ++ newTasks }
      else if walk.holder = none then
        some { walk.put i ⟨totals, .settling newTasks⟩ with holder := some i }
      else none
  | some ⟨totals, .settling newTasks⟩ => some (walk.settle i totals newTasks)
  | some ⟨totals, .loopTop⟩ =>
      if walk.holder = none then
        some (walk.put i ⟨totals, .sized (workerCountForWork workerLimit walk.queue.outstanding)⟩)
      else none
  | some ⟨totals, .sized desired⟩ =>
      some (walk.put i ⟨totals, .starting desired walk.workersStarted⟩)
  | some ⟨totals, .starting desired started⟩ =>
      if desired ≤ started then some (walk.put i ⟨totals, .taking⟩)
      else if started = walk.workersStarted then
        some { walk with
          workersStarted := walk.workersStarted + 1
          workers := walk.workers.set i ⟨totals, .starting desired (walk.workersStarted + 1)⟩ ++
            [⟨{}, .loopTop⟩] }
      else some (walk.put i ⟨totals, .starting desired walk.workersStarted⟩)
  | some ⟨totals, .taking⟩ =>
      if walk.holder = none then
        some { walk.put i ⟨totals, .selecting⟩ with holder := some i }
      else none
  | some ⟨totals, .selecting⟩ =>
      match walk.queue.tasks.getLast? with
      | some task => some { walk.put i ⟨totals, .received task⟩ with
          queue := { walk.queue with tasks := walk.queue.tasks.dropLast }
          holder := none
          popped := walk.popped ++ [task] }
      | none =>
          if walk.queue.outstanding = 0 then
            some { walk.put i ⟨totals, .done⟩ with holder := none }
          else some { walk.put i ⟨totals, .waiting⟩ with holder := none }
  | _ => none

variable {source workerLimit walk}

theorem advance_step {i : ℕ}
    {next : FallbackWalk FallbackShared (FallbackTotals N) (FallbackTask P) (DirectoryJob P N)}
    (h : walk.advance source workerLimit i = some next) :
    FallbackStep (directoryProcessing source) workerLimit {} walk next ∧
      next.shared = walk.shared := by
  unfold advance at h
  split at h
  · rename_i totals hphase
    split at h
    · rename_i htasks
      cases h
      exact ⟨.returnAlone hphase htasks, rfl⟩
    · rename_i task htasks
      cases h
      exact ⟨.popAlone hphase htasks, rfl⟩
    · rename_i hnil hone
      cases h
      refine ⟨.share hphase ?_, rfl⟩
      cases htasks : walk.queue.tasks with
      | nil => exact (hnil htasks).elim
      | cons task rest =>
          cases rest with
          | nil => exact (hone task htasks).elim
          | cons other rest => simp
  · rename_i totals task hphase
    cases h
    exact ⟨.start hphase ⟨rfl, rfl⟩, rfl⟩
  · rename_i totals newTasks hphase
    split at h
    · rename_i halone
      cases h
      exact ⟨.extendAlone halone hphase, rfl⟩
    · rename_i halone
      split at h
      · rename_i hfree
        cases h
        exact ⟨.lockFinished (Bool.eq_false_iff.mpr halone) hphase hfree, rfl⟩
      · cases h
  · rename_i totals newTasks hphase
    cases h
    refine ⟨.settle hphase, ?_⟩
    unfold settle
    simp only [put]
    split <;> rfl
  · rename_i totals hphase
    split at h
    · rename_i hfree
      cases h
      exact ⟨.size hphase hfree, rfl⟩
    · cases h
  · rename_i totals desired hphase
    cases h
    exact ⟨.load hphase, rfl⟩
  · rename_i totals desired started hphase
    split at h
    · rename_i hle
      cases h
      exact ⟨.enough hphase hle, rfl⟩
    · rename_i hlt
      split at h
      · rename_i hsame
        cases h
        subst hsame
        exact ⟨.startWorker hphase (Nat.lt_of_not_le hlt), rfl⟩
      · cases h
        exact ⟨.exchangeFails hphase (Nat.lt_of_not_le hlt), rfl⟩
  · rename_i totals hphase
    split at h
    · rename_i hfree
      cases h
      exact ⟨.lock hphase hfree, rfl⟩
    · cases h
  · rename_i totals hphase
    split at h
    · rename_i task hlast
      cases h
      refine ⟨.pop hphase ?_, rfl⟩
      obtain ⟨front, hfront⟩ := List.getLast?_eq_some_iff.mp hlast
      rw [hfront, List.dropLast_concat]
    · rename_i hlast
      have hnone := List.getLast?_eq_none_iff.mp hlast
      split at h
      · rename_i hzero
        cases h
        exact ⟨.leave hphase hnone hzero, rfl⟩
      · rename_i hsome
        cases h
        exact ⟨.wait hphase hnone hsome, rfl⟩
  · cases h

end FallbackWalk

namespace PipelinedWalk

/-- The next step of worker `i`, which reports nothing. -/
def advance (state : PipelinedWalk P N) (i : ℕ) : Option (PipelinedWalk P N) :=
  match state.walk.workers[i]? with
  | some ⟨_, .done⟩ => some (state.flush (state.pipelineOf i))
  | some ⟨totals, .processing job⟩ =>
      if job.todo.isEmpty && job.entries.isNone then
        some { state with walk := state.walk.put i ⟨job.totals, .finishing job.newTasks⟩ }
      else
        match stepDirectory source order state.walk.shared job with
        | none => none
        | some (shared, job') =>
            let worked := { state with
              walk := { state.walk.put i ⟨totals, .processing job'⟩ with shared := shared } }
            if shared.events = state.walk.shared.events then some worked
            else
              match shared.events.getLast? with
              | none => none
              | some event =>
                  if shared.events = state.walk.shared.events ++ [event] then
                    some (enqueue config worked (state.pipelineOf i) event.toScanEvent)
                  else none
  | _ =>
      match state.walk.advance source workerLimit i with
      | none => none
      | some walk =>
          if walk.alone = state.walk.alone then some { state with walk := walk }
          else if state.walk.alone && !walk.alone then some (flush { state with walk := walk } none)
          else none

/-- The states of a schedule, which names the worker of each step. -/
def runSchedule (state : PipelinedWalk P N) :
    List ℕ → Option (List (Option ℕ × PipelinedWalk P N))
  | [] => some []
  | i :: rest =>
      match state.advance source config workerLimit order i with
      | none => none
      | some next => (runSchedule next rest).map ((state.pipelineOf i, next) :: ·)

variable {source config workerLimit order}

theorem advance_step {state next : PipelinedWalk P N} {i : ℕ}
    (h : state.advance source config workerLimit order i = some next) :
    PipelinedStep source config workerLimit (state.pipelineOf i) state next := by
  unfold advance at h
  split at h
  · rename_i totals hphase
    cases h
    exact .leave hphase
  · rename_i totals job hphase
    split at h
    · rename_i hend
      rw [Bool.and_eq_true, List.isEmpty_iff, Option.isNone_iff_eq_none] at hend
      cases h
      exact .quiet (.finish hphase ⟨hend.1, hend.2, rfl, rfl⟩) rfl rfl
    · split at h
      · cases h
      · rename_i shared job' hwork
        dsimp only at h
        split at h
        · rename_i hsame
          cases h
          exact .quiet (.process hphase ⟨order, hwork⟩) rfl hsame
        · split at h
          · cases h
          · rename_i event hlast
            split at h
            · rename_i hevents
              cases h
              exact .record hphase hwork hevents
            · cases h
  · split at h
    · cases h
    · rename_i walk hwalk
      obtain ⟨hstep, hshared⟩ := FallbackWalk.advance_step hwalk
      have hevents : walk.shared.events = state.walk.shared.events := by rw [hshared]
      split at h
      · rename_i halone
        cases h
        exact .quiet hstep halone hevents
      · split at h
        · rename_i hsplit
          rw [Bool.and_eq_true, Bool.not_eq_true'] at hsplit
          have hpipeline : state.pipelineOf i = none := if_pos hsplit.1
          cases h
          rw [hpipeline]
          exact .share hstep hsplit.1 hsplit.2 hevents
        · cases h

/-- A run: each state follows from the one before it by a step. -/
def IsRun (source : WalkSource P N) (config : ScanPipelineConfig) (workerLimit : ℕ)
    (start : PipelinedWalk P N) (steps : List (Option ℕ × PipelinedWalk P N)) : Prop :=
  List.IsChain (fun before after ↦
    PipelinedStep source config workerLimit after.1 before.2 after.2) ((none, start) :: steps)

theorem isRun_runSchedule {state : PipelinedWalk P N} {schedule : List ℕ}
    {steps : List (Option ℕ × PipelinedWalk P N)}
    (h : state.runSchedule source config workerLimit order schedule = some steps) :
    IsRun source config workerLimit state steps := by
  induction schedule generalizing state steps with
  | nil =>
      cases h
      exact List.isChain_singleton _
  | cons i rest ih =>
      unfold runSchedule at h
      split at h
      · cases h
      · rename_i next hnext
        obtain ⟨later, hlater, rfl⟩ := Option.map_eq_some_iff.mp h
        have hrest := ih hlater
        cases later with
        | nil => exact .cons_cons (advance_step hnext) (List.isChain_singleton _)
        | cons step later =>
            obtain ⟨hstep, htail⟩ := List.isChain_cons_cons.mp hrest
            exact .cons_cons (advance_step hnext) (.cons_cons hstep htail)

end PipelinedWalk

end Schedules

end WinBlaze
