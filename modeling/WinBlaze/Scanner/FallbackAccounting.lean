import Mathlib.Algebra.BigOperators.Group.List.Basic
import Mathlib.Algebra.GroupWithZero.Nat
import WinBlaze.Scanner.FallbackWorkerRuns

/-!
# Accounts over all workers

Every task and every job holds something of a kind that can be added up: work to
be done, ids that are in use. A relation between the shared state and the sum of
all that is held is kept by the whole walk when each step of one worker keeps
it, whatever the others hold.
-/

namespace WinBlaze

variable {S L T J : Type*}

/-- What tasks and jobs hold, and a relation of the shared state to the sum that
each step of a worker keeps. The totals of a worker between two tasks are idle,
and its job is valid. -/
structure Account (processing : TaskProcessing S L T J) (M : Type*) [AddCommMonoid M] where
  task : T → M
  job : J → M
  Idle : L → Prop
  Valid : J → Prop
  Keeps : S → M → Prop
  start : ∀ {shared shared' : S} {totals : L} {item : T} {work : J} {others : M}, Idle totals →
    processing.Start shared totals item shared' work → Keeps shared (task item + others) →
      Valid work ∧ Keeps shared' (job work + others)
  step : ∀ {shared shared' : S} {work work' : J} {others : M}, Valid work →
    processing.Step shared work shared' work' → Keeps shared (job work + others) →
      Valid work' ∧ Keeps shared' (job work' + others)
  result : ∀ {shared : S} {work : J} {totals : L} {newTasks : List T} {others : M}, Valid work →
    processing.Result work totals newTasks → Keeps shared (job work + others) →
      Idle totals ∧ Keeps shared ((newTasks.map task).sum + others)
  other : ∀ {shared shared' : S} {all : M},
    processing.Other shared shared' → Keeps shared all → Keeps shared' all

/-- A sum over a list, as one element changes. -/
theorem exists_sum_set {α M : Type*} [AddCommMonoid M] (value : α → M) {items : List α} {item : α}
    {i : ℕ} (hi : items[i]? = some item) :
    ∃ others : M, (items.map value).sum = value item + others ∧
      ∀ new, ((items.set i new).map value).sum = value new + others := by
  obtain ⟨hlt, rfl⟩ := List.getElem?_eq_some_iff.mp hi
  have hsplit : items = items.take i ++ items[i] :: items.drop (i + 1) := by
    rw [← List.drop_eq_getElem_cons hlt, List.take_append_drop]
  refine ⟨((items.take i).map value).sum + ((items.drop (i + 1)).map value).sum, ?_, fun new ↦ ?_⟩
  · conv_lhs => rw [hsplit]
    simp only [List.map_append, List.sum_append, List.map_cons, List.sum_cons]
    exact add_left_comm _ _ _
  · rw [List.set_eq_take_append_cons_drop, if_pos hlt]
    simp only [List.map_append, List.sum_append, List.map_cons, List.sum_cons]
    exact add_left_comm _ _ _

namespace Account

variable {M : Type*} [AddCommMonoid M] {processing : TaskProcessing S L T J}
  (account : Account processing M)

/-- What a worker holds. -/
def phase : WorkerPhase T J → M
  | .received task => account.task task
  | .processing job => account.job job
  | .finishing newTasks => (newTasks.map account.task).sum
  | .settling newTasks => (newTasks.map account.task).sum
  | _ => 0

def workers (workers : List (FallbackWorker L T J)) : M :=
  (workers.map (fun worker ↦ account.phase worker.phase)).sum

/-- All that is held in a walk. -/
def total (walk : FallbackWalk S L T J) : M :=
  (walk.queue.tasks.map account.task).sum + account.workers walk.workers

/-- A worker at a task has a valid job, another one is idle. -/
def Sound (worker : FallbackWorker L T J) : Prop :=
  match worker.phase with
  | .processing job => account.Valid job
  | _ => account.Idle worker.totals

/-- The relation for a whole walk. -/
structure Holds (walk : FallbackWalk S L T J) : Prop where
  keeps : account.Keeps walk.shared (account.total walk)
  sound : ∀ worker ∈ walk.workers, account.Sound worker

variable {account} {walk next : FallbackWalk S L T J} {worker new : FallbackWorker L T J} {i : ℕ}
  {workerLimit : ℕ} {default : L}

variable (account) in
/-- What the other workers hold, as one changes. -/
theorem exists_others (hi : walk.workers[i]? = some worker) :
    ∃ others : M, account.workers walk.workers = account.phase worker.phase + others ∧
      ∀ new : FallbackWorker L T J,
        account.workers (walk.workers.set i new) = account.phase new.phase + others :=
  exists_sum_set (fun worker : FallbackWorker L T J ↦ account.phase worker.phase) hi

theorem sound_set (h : account.Holds walk) (hnew : account.Sound new) :
    ∀ other ∈ walk.workers.set i new, account.Sound other := by
  intro other hother
  rcases FallbackWalk.mem_set hother with rfl | hother
  · exact hnew
  · exact h.sound other hother

/-- A step that moves what a worker holds between it and the queue. -/
theorem Holds.move (h : account.Holds walk) (hi : walk.workers[i]? = some worker)
    (hshared : next.shared = walk.shared) (hworkers : next.workers = walk.workers.set i new)
    (hsound : account.Sound worker → account.Sound new)
    (hsum : (walk.queue.tasks.map account.task).sum + account.phase worker.phase =
      (next.queue.tasks.map account.task).sum + account.phase new.phase) : account.Holds next := by
  obtain ⟨others, hall, hset⟩ := exists_others account hi
  refine ⟨?_, hworkers ▸ sound_set h (hsound (h.sound worker (List.mem_of_getElem? hi)))⟩
  have htotal : account.total next = account.total walk := by
    rw [total, total, hworkers, hset, hall, ← add_assoc, ← add_assoc, hsum]
  rw [hshared, htotal]
  exact h.keeps

/-- A step of a worker at its task. -/
theorem Holds.work (h : account.Holds walk) (hi : walk.workers[i]? = some worker)
    (hqueue : next.queue = walk.queue) (hworkers : next.workers = walk.workers.set i new)
    (hstep : ∀ others, account.Keeps walk.shared (account.phase worker.phase + others) →
      account.Sound new ∧ account.Keeps next.shared (account.phase new.phase + others)) :
    account.Holds next := by
  obtain ⟨others, hall, hset⟩ := exists_others account hi
  have hkeeps := h.keeps
  rw [total, hall, add_left_comm] at hkeeps
  obtain ⟨hsound, hkeeps'⟩ := hstep _ hkeeps
  refine ⟨?_, hworkers ▸ sound_set h hsound⟩
  rw [total, hworkers, hset, hqueue, add_left_comm]
  exact hkeeps'

theorem workers_notifyAll : account.workers walk.notifyAll.workers = account.workers walk.workers := by
  simp only [workers, FallbackWalk.notifyAll, List.map_map]
  congr 1
  refine List.map_congr_left fun worker _ ↦ ?_
  cases hphase : worker.phase <;> simp [hphase, WorkerPhase.notify, phase]

theorem Holds.notifyAll (h : account.Holds walk) : account.Holds walk.notifyAll := by
  refine ⟨?_, fun other hother ↦ ?_⟩
  · rw [total, workers_notifyAll]
    exact h.keeps
  · obtain ⟨-, worker, hworker, rfl⟩ := FallbackWalk.mem_notifyAll hother
    have hsound := h.sound worker hworker
    unfold Sound at hsound ⊢
    cases hphase : worker.phase <;> simpa only [hphase, WorkerPhase.notify] using hsound

/-- The second critical section hands the new tasks to the queue. -/
theorem Holds.settle (h : account.Holds walk) {totals : L} {newTasks : List T}
    (hi : walk.workers[i]? = some ⟨totals, .settling newTasks⟩) :
    account.Holds (walk.settle i totals newTasks) := by
  have hsum : (walk.queue.tasks.map account.task).sum + (newTasks.map account.task).sum =
      ((walk.queue.tasks ++ newTasks).map account.task).sum + 0 := by
    rw [List.map_append, List.sum_append, add_zero]
  unfold FallbackWalk.settle
  by_cases hnotify : walk.queue.outstanding + newTasks.length - 1 = 0 ∨ newTasks ≠ []
  · have hi' : walk.notifyAll.workers[i]? = some ⟨totals, .settling newTasks⟩ := by
      simp [FallbackWalk.notifyAll, hi, WorkerPhase.notify]
    simp only [if_pos hnotify]
    exact h.notifyAll.move hi' rfl rfl id hsum
  · simp only [if_neg hnotify]
    exact h.move hi rfl rfl id hsum

theorem Holds.startWorker (h : account.Holds walk) (hdefault : account.Idle default) (started : ℕ) :
    account.Holds { walk with
      workersStarted := started
      workers := walk.workers ++ [⟨default, .loopTop⟩] } := by
  refine ⟨?_, fun other hother ↦ ?_⟩
  · have hzero : account.workers (walk.workers ++ [⟨default, .loopTop⟩]) =
        account.workers walk.workers := by
      simp [workers, phase]
    simp only [total, hzero]
    exact h.keeps
  · rcases List.mem_append.mp hother with hother | hother
    · exact h.sound other hother
    · obtain rfl := List.mem_singleton.mp hother
      exact hdefault

theorem Holds.step (h : account.Holds walk) (hdefault : account.Idle default)
    (hstep : FallbackStep processing workerLimit default walk next) : account.Holds next := by
  cases hstep with
  | other hother => exact ⟨account.other hother h.keeps, h.sound⟩
  | popAlone hphase htasks =>
      refine h.move hphase rfl rfl id ?_
      simp [htasks, phase]
  | @extendAlone i totals newTasks halone hphase =>
      refine h.move hphase rfl rfl id ?_
      simp [phase, List.sum_append]
  | returnAlone hphase htasks =>
      exact h.move hphase rfl rfl id rfl
  | share hphase htasks => exact h.move hphase rfl rfl (fun _ ↦ hdefault) rfl
  | start hphase hstart =>
      have hidle := h.sound _ (List.mem_of_getElem? hphase)
      exact h.work hphase rfl rfl fun others hkeeps ↦ account.start hidle hstart hkeeps
  | process hphase hwork =>
      have hvalid := h.sound _ (List.mem_of_getElem? hphase)
      exact h.work hphase rfl rfl fun others hkeeps ↦ account.step hvalid hwork hkeeps
  | finish hphase hresult =>
      have hvalid := h.sound _ (List.mem_of_getElem? hphase)
      exact h.work hphase rfl rfl fun others hkeeps ↦ account.result hvalid hresult hkeeps
  | lockFinished halone hphase hfree =>
      exact h.move hphase rfl rfl id rfl
  | settle hphase => exact h.settle hphase
  | size hphase hfree => exact h.move hphase rfl rfl id rfl
  | load hphase => exact h.move hphase rfl rfl id rfl
  | @startWorker i desired totals hphase hlt =>
      have hmoved : account.Holds
          (walk.put i ⟨totals, .starting desired (walk.workersStarted + 1)⟩) :=
        h.move hphase rfl rfl id rfl
      exact hmoved.startWorker hdefault (walk.workersStarted + 1)
  | exchangeFails hphase hlt =>
      exact h.move hphase rfl rfl id rfl
  | enough hphase hle => exact h.move hphase rfl rfl id rfl
  | lock hphase hfree => exact h.move hphase rfl rfl id rfl
  | pop hphase htasks =>
      refine h.move hphase rfl rfl id ?_
      simp [htasks, phase]
  | leave hphase htasks hnone =>
      exact h.move hphase rfl rfl id rfl
  | wait hphase htasks hsome =>
      exact h.move hphase rfl rfl id rfl
  | spuriousWake hphase =>
      exact h.move hphase rfl rfl id rfl

/-- The relation in every state of a walk. -/
theorem holds_of_reachable {shared : S} {root : T} (hdefault : account.Idle default)
    (hroot : account.Keeps shared (account.task root))
    (h : FallbackWalk.Reachable processing workerLimit default shared root walk) :
    account.Holds walk := by
  induction h with
  | refl =>
      refine ⟨?_, fun worker hworker ↦ ?_⟩
      · simpa [total, FallbackWalk.initial, workers, phase] using hroot
      · obtain rfl := List.mem_singleton.mp hworker
        exact hdefault
  | tail _ hstep ih => exact ih.step hdefault hstep

/-- In the end nothing is held. -/
theorem Holds.total_eq_zero (htasks : walk.queue.tasks = [])
    (hdone : ∀ worker ∈ walk.workers, worker.phase = .done) : account.total walk = 0 := by
  have hworkers : account.workers walk.workers = 0 := by
    refine List.sum_eq_zero fun value hvalue ↦ ?_
    obtain ⟨worker, hworker, rfl⟩ := List.mem_map.mp hvalue
    rw [hdone worker hworker]
    rfl
  simp [total, htasks, hworkers]

end Account

end WinBlaze
