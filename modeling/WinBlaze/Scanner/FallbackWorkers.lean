import Mathlib.Data.List.Perm.Basic
import Mathlib.Logic.Relation

/-!
# The workers of the fallback walk

Workers share a queue of tasks behind a lock. `outstanding` counts the tasks
that are queued or in flight. A worker takes the last task, processes it without
the lock, and adds the tasks that came out of it. With no task to take it waits
for a notification, and leaves when nothing is outstanding. The scan thread
works alone until there are two tasks at once, and workers start workers.

What a worker does with a task is a parameter here.
-/

namespace WinBlaze

/-- What is done with tasks `T`: on a state `S` that all workers share, with the
totals `L` of a worker, in steps of a job `J` that ends in new tasks. -/
structure TaskProcessing (S L T J : Type*) where
  Start : S → L → T → S → J → Prop
  Step : S → J → S → J → Prop
  Result : J → L → List T → Prop
  /-- What else happens to the shared state. -/
  Other : S → S → Prop

structure FallbackQueue (T : Type*) where
  tasks : List T
  outstanding : ℕ

/-- Where a worker is in `run_fallback_worker`. The scan thread alone is in the
loop of `run_fallback_scan_parallel` before that. -/
inductive WorkerPhase (T J : Type*)
  | checking
  | loopTop
  | sized (desired : ℕ)
  | starting (desired started : ℕ)
  | taking
  | selecting
  | waiting
  | received (task : T)
  | processing (job : J)
  | finishing (newTasks : List T)
  | settling (newTasks : List T)
  | done

namespace WorkerPhase

variable {T J : Type*}

/-- A task is in flight. -/
def inFlight : WorkerPhase T J → Bool
  | received _ => true
  | processing _ => true
  | finishing _ => true
  | settling _ => true
  | _ => false

/-- The worker holds the lock of the queue. -/
def holdsLock : WorkerPhase T J → Bool
  | selecting => true
  | settling _ => true
  | _ => false

/-- The phases of the scan thread while it is alone. -/
def isAlone : WorkerPhase T J → Bool
  | checking => true
  | received _ => true
  | processing _ => true
  | finishing _ => true
  | done => true
  | _ => false

/-- `notify_all` for one worker. -/
def notify : WorkerPhase T J → WorkerPhase T J
  | waiting => taking
  | phase => phase

end WorkerPhase

structure FallbackWorker (L T J : Type*) where
  totals : L
  phase : WorkerPhase T J

/-- The walk. `enqueued` and `popped` record all tasks that were added to the
queue and taken from it. -/
structure FallbackWalk (S L T J : Type*) where
  shared : S
  queue : FallbackQueue T
  holder : Option ℕ
  alone : Bool
  workersStarted : ℕ
  workers : List (FallbackWorker L T J)
  enqueued : List T
  popped : List T

/-- `worker_count_for_work`. -/
def workerCountForWork (workerLimit available : ℕ) : ℕ := min (max workerLimit 1) (max available 1)

variable {S L T J : Type*}

/-- The scan thread with the root as its only task. -/
def FallbackWalk.initial (shared : S) (totals : L) (root : T) : FallbackWalk S L T J where
  shared := shared
  queue := { tasks := [root], outstanding := 1 }
  holder := none
  alone := true
  workersStarted := 1
  workers := [{ totals := totals, phase := .checking }]
  enqueued := [root]
  popped := []

/-- A worker with its new phase. -/
def FallbackWalk.put (walk : FallbackWalk S L T J) (i : ℕ) (worker : FallbackWorker L T J) :
    FallbackWalk S L T J :=
  { walk with workers := walk.workers.set i worker }

/-- Wake the workers that wait. -/
def FallbackWalk.notifyAll (walk : FallbackWalk S L T J) : FallbackWalk S L T J :=
  { walk with
    workers := walk.workers.map (fun worker ↦ { worker with phase := worker.phase.notify }) }

/-- The second critical section, with the lock held: add the new tasks, count
them and the finished one, wake the others, and give the lock back. -/
def FallbackWalk.settle (walk : FallbackWalk S L T J) (i : ℕ) (totals : L) (newTasks : List T) :
    FallbackWalk S L T J :=
  let outstanding := walk.queue.outstanding + newTasks.length - 1
  let settled : FallbackWalk S L T J :=
    { walk with
      queue := { tasks := walk.queue.tasks ++ newTasks, outstanding := outstanding }
      enqueued := walk.enqueued ++ newTasks }
  let notified := if outstanding = 0 ∨ newTasks ≠ [] then settled.notifyAll else settled
  { notified.put i { totals := totals, phase := .loopTop } with holder := none }

/-- The steps of a walk with this limit of workers; `default` are the totals of
a new worker. -/
inductive FallbackStep (processing : TaskProcessing S L T J) (workerLimit : ℕ) (default : L) :
    FallbackWalk S L T J → FallbackWalk S L T J → Prop
  | other {walk : FallbackWalk S L T J} {shared : S} (h : processing.Other walk.shared shared) :
      FallbackStep processing workerLimit default walk { walk with shared := shared }
  -- the loop of the scan thread alone
  | popAlone {walk : FallbackWalk S L T J} {i : ℕ} {totals : L} {task : T}
      (hphase : walk.workers[i]? = some ⟨totals, .checking⟩) (htasks : walk.queue.tasks = [task]) :
      FallbackStep processing workerLimit default walk
        { walk.put i ⟨totals, .received task⟩ with
          queue := { walk.queue with tasks := [] }
          popped := walk.popped ++ [task] }
  | extendAlone {walk : FallbackWalk S L T J} {i : ℕ} {totals : L} {newTasks : List T}
      (halone : walk.alone = true) (hphase : walk.workers[i]? = some ⟨totals, .finishing newTasks⟩) :
      FallbackStep processing workerLimit default walk
        { walk.put i ⟨totals, .checking⟩ with
          queue :=
            { tasks := walk.queue.tasks ++ newTasks
              outstanding := (walk.queue.tasks ++ newTasks).length }
          enqueued := walk.enqueued ++ newTasks }
  | returnAlone {walk : FallbackWalk S L T J} {i : ℕ} {totals : L}
      (hphase : walk.workers[i]? = some ⟨totals, .checking⟩) (htasks : walk.queue.tasks = []) :
      FallbackStep processing workerLimit default walk (walk.put i ⟨totals, .done⟩)
  -- the first worker has totals of its own
  | share {walk : FallbackWalk S L T J} {i : ℕ} {totals : L}
      (hphase : walk.workers[i]? = some ⟨totals, .checking⟩) (htasks : 1 < walk.queue.tasks.length) :
      FallbackStep processing workerLimit default walk
        { walk.put i ⟨default, .loopTop⟩ with alone := false, workersStarted := 1 }
  -- a task
  | start {walk : FallbackWalk S L T J} {i : ℕ} {totals : L} {task : T} {shared : S} {job : J}
      (hphase : walk.workers[i]? = some ⟨totals, .received task⟩)
      (hstart : processing.Start walk.shared totals task shared job) :
      FallbackStep processing workerLimit default walk
        { walk.put i ⟨totals, .processing job⟩ with shared := shared }
  | process {walk : FallbackWalk S L T J} {i : ℕ} {totals : L} {job job' : J} {shared : S}
      (hphase : walk.workers[i]? = some ⟨totals, .processing job⟩)
      (hstep : processing.Step walk.shared job shared job') :
      FallbackStep processing workerLimit default walk
        { walk.put i ⟨totals, .processing job'⟩ with shared := shared }
  | finish {walk : FallbackWalk S L T J} {i : ℕ} {totals totals' : L} {job : J} {newTasks : List T}
      (hphase : walk.workers[i]? = some ⟨totals, .processing job⟩)
      (hresult : processing.Result job totals' newTasks) :
      FallbackStep processing workerLimit default walk (walk.put i ⟨totals', .finishing newTasks⟩)
  | lockFinished {walk : FallbackWalk S L T J} {i : ℕ} {totals : L} {newTasks : List T}
      (halone : walk.alone = false) (hphase : walk.workers[i]? = some ⟨totals, .finishing newTasks⟩)
      (hfree : walk.holder = none) :
      FallbackStep processing workerLimit default walk
        { walk.put i ⟨totals, .settling newTasks⟩ with holder := some i }
  | settle {walk : FallbackWalk S L T J} {i : ℕ} {totals : L} {newTasks : List T}
      (hphase : walk.workers[i]? = some ⟨totals, .settling newTasks⟩) :
      FallbackStep processing workerLimit default walk (walk.settle i totals newTasks)
  -- the workers that are started
  | size {walk : FallbackWalk S L T J} {i : ℕ} {totals : L}
      (hphase : walk.workers[i]? = some ⟨totals, .loopTop⟩) (hfree : walk.holder = none) :
      FallbackStep processing workerLimit default walk
        (walk.put i ⟨totals, .sized (workerCountForWork workerLimit walk.queue.outstanding)⟩)
  | load {walk : FallbackWalk S L T J} {i desired : ℕ} {totals : L}
      (hphase : walk.workers[i]? = some ⟨totals, .sized desired⟩) :
      FallbackStep processing workerLimit default walk
        (walk.put i ⟨totals, .starting desired walk.workersStarted⟩)
  | startWorker {walk : FallbackWalk S L T J} {i desired : ℕ} {totals : L}
      (hphase : walk.workers[i]? = some ⟨totals, .starting desired walk.workersStarted⟩)
      (hlt : walk.workersStarted < desired) :
      FallbackStep processing workerLimit default walk
        { walk with
          workersStarted := walk.workersStarted + 1
          workers := walk.workers.set i ⟨totals, .starting desired (walk.workersStarted + 1)⟩ ++
            [⟨default, .loopTop⟩] }
  -- another worker was first, or the weak exchange failed
  | exchangeFails {walk : FallbackWalk S L T J} {i desired started : ℕ} {totals : L}
      (hphase : walk.workers[i]? = some ⟨totals, .starting desired started⟩)
      (hlt : started < desired) :
      FallbackStep processing workerLimit default walk
        (walk.put i ⟨totals, .starting desired walk.workersStarted⟩)
  | enough {walk : FallbackWalk S L T J} {i desired started : ℕ} {totals : L}
      (hphase : walk.workers[i]? = some ⟨totals, .starting desired started⟩)
      (hle : desired ≤ started) :
      FallbackStep processing workerLimit default walk (walk.put i ⟨totals, .taking⟩)
  -- the next task
  | lock {walk : FallbackWalk S L T J} {i : ℕ} {totals : L}
      (hphase : walk.workers[i]? = some ⟨totals, .taking⟩) (hfree : walk.holder = none) :
      FallbackStep processing workerLimit default walk
        { walk.put i ⟨totals, .selecting⟩ with holder := some i }
  | pop {walk : FallbackWalk S L T J} {i : ℕ} {totals : L} {rest : List T} {task : T}
      (hphase : walk.workers[i]? = some ⟨totals, .selecting⟩)
      (htasks : walk.queue.tasks = rest ++ [task]) :
      FallbackStep processing workerLimit default walk
        { walk.put i ⟨totals, .received task⟩ with
          queue := { walk.queue with tasks := rest }
          holder := none
          popped := walk.popped ++ [task] }
  | leave {walk : FallbackWalk S L T J} {i : ℕ} {totals : L}
      (hphase : walk.workers[i]? = some ⟨totals, .selecting⟩) (htasks : walk.queue.tasks = [])
      (hnone : walk.queue.outstanding = 0) :
      FallbackStep processing workerLimit default walk
        { walk.put i ⟨totals, .done⟩ with holder := none }
  | wait {walk : FallbackWalk S L T J} {i : ℕ} {totals : L}
      (hphase : walk.workers[i]? = some ⟨totals, .selecting⟩) (htasks : walk.queue.tasks = [])
      (hsome : walk.queue.outstanding ≠ 0) :
      FallbackStep processing workerLimit default walk
        { walk.put i ⟨totals, .waiting⟩ with holder := none }
  | spuriousWake {walk : FallbackWalk S L T J} {i : ℕ} {totals : L}
      (hphase : walk.workers[i]? = some ⟨totals, .waiting⟩) :
      FallbackStep processing workerLimit default walk (walk.put i ⟨totals, .taking⟩)

end WinBlaze
