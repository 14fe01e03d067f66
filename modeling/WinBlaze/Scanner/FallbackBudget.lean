import WinBlaze.Scanner.FallbackAccounting

/-!
# A walk takes finitely many tasks

Every task costs at least one and pays for the tasks that come out of it. So the
first task pays for all that are ever taken, whatever the workers do.
-/

namespace WinBlaze

variable {S L T J : Type*}

/-- Costs of tasks and jobs. A task that is started costs one more than its job,
and a job no less than the tasks it ends in. -/
structure TaskCosts (processing : TaskProcessing S L T J) where
  task : T → ℕ
  job : J → ℕ
  positive : ∀ item, 0 < task item
  start : ∀ {shared shared' : S} {totals : L} {item : T} {work : J},
    processing.Start shared totals item shared' work → job work < task item
  step : ∀ {shared shared' : S} {work work' : J},
    processing.Step shared work shared' work' → job work' ≤ job work
  result : ∀ {work : J} {totals : L} {newTasks : List T},
    processing.Result work totals newTasks → (newTasks.map task).sum ≤ job work

namespace TaskCosts

variable {processing : TaskProcessing S L T J} (costs : TaskCosts processing)

/-- What a worker may still spend. A task that was taken is paid for. -/
def phase : WorkerPhase T J → ℕ
  | .received task => costs.task task - 1
  | .processing job => costs.job job
  | .finishing newTasks => (newTasks.map costs.task).sum
  | .settling newTasks => (newTasks.map costs.task).sum
  | _ => 0

/-- The tasks that were taken, and what is left for others. -/
def spent (walk : FallbackWalk S L T J) : ℕ :=
  walk.popped.length + (walk.queue.tasks.map costs.task).sum +
    (walk.workers.map (fun worker ↦ costs.phase worker.phase)).sum

variable {costs} {walk next : FallbackWalk S L T J} {worker new : FallbackWorker L T J} {i : ℕ}
  {workerLimit : ℕ} {default : L}

/-- A step of one worker. -/
theorem spent_le (hi : walk.workers[i]? = some worker)
    (hworkers : next.workers = walk.workers.set i new)
    (hle : next.popped.length + (next.queue.tasks.map costs.task).sum + costs.phase new.phase ≤
      walk.popped.length + (walk.queue.tasks.map costs.task).sum + costs.phase worker.phase) :
    costs.spent next ≤ costs.spent walk := by
  obtain ⟨others, hall, hset⟩ := exists_sum_set (fun worker ↦ costs.phase worker.phase) hi
  simp only [spent, hworkers, hset, hall]
  omega

theorem spent_notifyAll : costs.spent walk.notifyAll = costs.spent walk := by
  simp only [spent, FallbackWalk.notifyAll, List.map_map]
  congr 2
  refine List.map_congr_left fun worker _ ↦ ?_
  cases hphase : worker.phase <;> simp [hphase, WorkerPhase.notify, phase]

theorem spent_settle {totals : L} {newTasks : List T}
    (hi : walk.workers[i]? = some ⟨totals, .settling newTasks⟩) :
    costs.spent (walk.settle i totals newTasks) ≤ costs.spent walk := by
  have hsum : ((walk.queue.tasks ++ newTasks).map costs.task).sum =
      (walk.queue.tasks.map costs.task).sum + (newTasks.map costs.task).sum := by
    simp
  unfold FallbackWalk.settle
  dsimp only
  split
  · have hi' : walk.notifyAll.workers[i]? = some ⟨totals, .settling newTasks⟩ := by
      simp [FallbackWalk.notifyAll, hi, WorkerPhase.notify]
    refine le_trans (spent_le hi' rfl ?_) (Nat.le_of_eq spent_notifyAll)
    simp only [FallbackWalk.put, FallbackWalk.notifyAll, hsum, phase]
    omega
  · refine spent_le hi rfl ?_
    simp only [FallbackWalk.put, hsum, phase]
    omega

/-- No step spends more than there was. -/
theorem spent_step (hstep : FallbackStep processing workerLimit default walk next) :
    costs.spent next ≤ costs.spent walk := by
  cases hstep with
  | other hother => exact le_refl _
  | @popAlone i totals task hphase htasks =>
      have hpos := costs.positive task
      refine spent_le hphase rfl ?_
      simp only [htasks, phase, List.length_append, List.length_singleton,
        List.map_cons, List.map_nil, List.sum_cons, List.sum_nil]
      omega
  | @extendAlone i totals newTasks halone hphase =>
      refine spent_le hphase rfl ?_
      simp only [FallbackWalk.put, phase, List.map_append, List.sum_append]
      omega
  | @start i totals task shared job hphase hstart =>
      have hlt := costs.start hstart
      refine spent_le hphase rfl ?_
      simp only [FallbackWalk.put, phase]
      omega
  | @process i totals job job' shared hphase hwork =>
      have hle := costs.step hwork
      refine spent_le hphase rfl ?_
      simp only [FallbackWalk.put, phase]
      omega
  | @finish i totals totals' job newTasks hphase hresult =>
      have hle := costs.result hresult
      refine spent_le hphase rfl ?_
      simp only [FallbackWalk.put, phase]
      omega
  | settle hphase => exact spent_settle hphase
  | @startWorker i desired totals hphase hlt =>
      have hmoved : costs.spent (walk.put i ⟨totals, .starting desired (walk.workersStarted + 1)⟩) ≤
          costs.spent walk := spent_le hphase rfl (le_refl _)
      have hnew : costs.phase (.loopTop : WorkerPhase T J) = 0 := rfl
      simpa only [spent, FallbackWalk.put, List.map_append, List.sum_append, List.map_cons,
        List.map_nil, List.sum_cons, List.sum_nil, hnew, Nat.add_zero] using hmoved
  | @pop i totals rest task hphase htasks =>
      have hpos := costs.positive task
      refine spent_le hphase rfl ?_
      simp only [htasks, phase, List.length_append, List.length_singleton,
        List.map_append, List.map_cons, List.map_nil, List.sum_append, List.sum_cons, List.sum_nil]
      omega
  | returnAlone hphase => exact spent_le hphase rfl (le_refl _)
  | share hphase => exact spent_le hphase rfl (le_refl _)
  | lockFinished halone hphase => exact spent_le hphase rfl (le_refl _)
  | size hphase => exact spent_le hphase rfl (le_refl _)
  | load hphase => exact spent_le hphase rfl (le_refl _)
  | exchangeFails hphase => exact spent_le hphase rfl (le_refl _)
  | enough hphase => exact spent_le hphase rfl (le_refl _)
  | lock hphase => exact spent_le hphase rfl (le_refl _)
  | leave hphase => exact spent_le hphase rfl (le_refl _)
  | wait hphase => exact spent_le hphase rfl (le_refl _)
  | spuriousWake hphase => exact spent_le hphase rfl (le_refl _)

variable (costs) in
/-- No more tasks than the root pays for are ever in the queue. -/
theorem length_enqueued_le {shared : S} {root : T}
    (h : FallbackWalk.Reachable processing workerLimit default shared root walk) :
    walk.enqueued.length ≤ costs.task root := by
  have hspent : costs.spent walk ≤ costs.task root := by
    induction h with
    | refl => simp [spent, FallbackWalk.initial, phase]
    | tail _ hstep ih => exact (spent_step hstep).trans ih
  have hqueue : walk.queue.tasks.length ≤ (walk.queue.tasks.map costs.task).sum := by
    induction walk.queue.tasks with
    | nil => exact le_refl _
    | cons task tasks ih =>
        have hpos := costs.positive task
        simp only [List.length_cons, List.map_cons, List.sum_cons]
        omega
  have hhistory := h.consistent.history.length_eq
  simp only [List.length_append] at hhistory
  unfold spent at hspent
  omega

end TaskCosts

end WinBlaze
