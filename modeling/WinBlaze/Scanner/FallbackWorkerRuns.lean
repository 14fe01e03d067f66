import Mathlib.Tactic.Linarith
import WinBlaze.Scanner.FallbackWorkers

/-!
# No task is lost and no worker sleeps on

What holds in every state of a walk, whatever the workers do with their tasks.
-/

namespace WinBlaze

variable {S L T J : Type*}

/-- The tasks in flight. -/
def inFlight (workers : List (FallbackWorker L T J)) : ℕ :=
  workers.countP (fun worker ↦ worker.phase.inFlight)

namespace FallbackWalk

/-- The counter is right, the lock is held by the worker in a critical section,
no worker waits when there is something to do or nothing more to come, a worker
leaves when nothing is outstanding, and the tasks of the queue are those that
were added to it and not taken. -/
structure Consistent (walk : FallbackWalk S L T J) : Prop where
  outstanding : walk.queue.outstanding = walk.queue.tasks.length + inFlight walk.workers
  holder : ∀ i, walk.holder = some i ↔
    ∃ worker, walk.workers[i]? = some worker ∧ worker.phase.holdsLock = true
  waiting : ∀ worker ∈ walk.workers, worker.phase = .waiting →
    walk.queue.tasks = [] ∧ walk.queue.outstanding ≠ 0
  done : ∀ worker ∈ walk.workers, worker.phase = .done → walk.queue.outstanding = 0
  alone : walk.alone = true → ∃ worker, walk.workers = [worker] ∧ worker.phase.isAlone = true
  checking : ∀ worker ∈ walk.workers, worker.phase = .checking → walk.alone = true
  history : walk.enqueued.Perm (walk.popped ++ walk.queue.tasks)
  nonempty : walk.workers ≠ []

theorem consistent_initial (shared : S) (totals : L) (root : T) :
    (initial shared totals root : FallbackWalk S L T J).Consistent where
  outstanding := rfl
  holder := by
    intro i
    constructor
    · exact fun h ↦ nomatch h
    · rintro ⟨worker, hworker, hholds⟩
      obtain ⟨hi, rfl⟩ := List.getElem?_eq_some_iff.mp hworker
      simp [initial, WorkerPhase.holdsLock] at hholds
  waiting := by simp [initial]
  done := by simp [initial]
  alone := fun _ ↦ ⟨_, rfl, rfl⟩
  checking := fun _ _ _ ↦ rfl
  history := List.Perm.refl _
  nonempty := nofun

/-! ## One worker with a new phase -/

section Workers

variable {workers : List (FallbackWorker L T J)} {worker other new : FallbackWorker L T J} {i j : ℕ}

/-- The count of tasks in flight, as one worker changes. -/
theorem inFlight_set (new : FallbackWorker L T J) (hi : workers[i]? = some worker) :
    inFlight (workers.set i new) + (if worker.phase.inFlight then 1 else 0) =
      inFlight workers + (if new.phase.inFlight then 1 else 0) := by
  obtain ⟨hlt, rfl⟩ := List.getElem?_eq_some_iff.mp hi
  have hle : (if workers[i].phase.inFlight then 1 else 0) ≤ inFlight workers := by
    split
    case isTrue h => exact List.countP_pos_iff.mpr ⟨_, List.getElem_mem hlt, h⟩
    case isFalse => exact Nat.zero_le _
  unfold inFlight at hle ⊢
  rw [List.countP_set hlt]
  omega

theorem mem_set (h : other ∈ workers.set i new) : other = new ∨ other ∈ workers :=
  (List.mem_or_eq_of_mem_set h).symm

theorem getElem?_set_iff (hi : workers[i]? = some worker) :
    (workers.set i new)[j]? = some other ↔
      j = i ∧ other = new ∨ j ≠ i ∧ workers[j]? = some other := by
  obtain ⟨hlt, -⟩ := List.getElem?_eq_some_iff.mp hi
  by_cases hj : j = i
  · subst hj
    simp [hlt, eq_comm]
  · simp [List.getElem?_set_ne (Ne.symm hj), hj]

end Workers

variable {processing : TaskProcessing S L T J} {workerLimit : ℕ} {default : L}
  {walk next : FallbackWalk S L T J} {worker new : FallbackWorker L T J} {i : ℕ}

theorem Consistent.isAlone (h : walk.Consistent) (hi : walk.workers[i]? = some worker)
    (halone : walk.alone = true) : worker.phase.isAlone = true := by
  obtain ⟨other, hworkers, hphase⟩ := h.alone halone
  have hmem := List.mem_of_getElem? hi
  rw [hworkers] at hmem
  exact List.mem_singleton.mp hmem ▸ hphase

/-- The lock after one worker took it, gave it back or did neither. -/
theorem Consistent.holder_set (h : walk.Consistent) (new : FallbackWorker L T J)
    (hi : walk.workers[i]? = some worker)
    (hfree : new.phase.holdsLock = true → worker.phase.holdsLock = false → walk.holder = none)
    (j : ℕ) :
    (if new.phase.holdsLock then some i else if worker.phase.holdsLock then none else walk.holder) =
        some j ↔
      ∃ other, (walk.workers.set i new)[j]? = some other ∧ other.phase.holdsLock = true := by
  simp only [getElem?_set_iff hi]
  by_cases hj : j = i
  · subst hj
    have hheld : walk.holder = some j ↔ worker.phase.holdsLock = true := by
      rw [h.holder j, hi]
      simp
    cases hnew : new.phase.holdsLock <;> cases hold : worker.phase.holdsLock <;> simp_all
  · have hother : ∀ other, (j = i ∧ other = new ∨ j ≠ i ∧ walk.workers[j]? = some other) ↔
        walk.workers[j]? = some other := by simp [hj]
    simp only [hother, ← h.holder j]
    cases hnew : new.phase.holdsLock with
    | true =>
        have hnone : walk.holder ≠ some j := by
          intro hheld
          cases hold : worker.phase.holdsLock with
          | true =>
              have hself := (h.holder i).mpr ⟨worker, hi, hold⟩
              exact hj (Option.some.inj (hheld.symm.trans hself))
          | false => simp [hfree hnew hold] at hheld
        simp [hnone, Ne.symm hj]
    | false =>
        cases hold : worker.phase.holdsLock with
        | true =>
            have hself := (h.holder i).mpr ⟨worker, hi, hold⟩
            simp [hself, Ne.symm hj]
        | false => simp

/-- A step of one worker. -/
theorem Consistent.update (h : walk.Consistent) (hi : walk.workers[i]? = some worker)
    (hworkers : next.workers = walk.workers.set i new) (halone : next.alone = walk.alone)
    (hcount : next.queue.outstanding + (if worker.phase.inFlight then 1 else 0) +
        walk.queue.tasks.length =
      walk.queue.outstanding + next.queue.tasks.length + (if new.phase.inFlight then 1 else 0))
    (hholder : next.holder = if new.phase.holdsLock then some i
      else if worker.phase.holdsLock then none else walk.holder)
    (hfree : new.phase.holdsLock = true → worker.phase.holdsLock = false → walk.holder = none)
    (hwaiting : ∀ other, other = new ∨ other ∈ walk.workers → other.phase = .waiting →
      next.queue.tasks = [] ∧ next.queue.outstanding ≠ 0)
    (hdone : ∀ other, other = new ∨ other ∈ walk.workers → other.phase = .done →
      next.queue.outstanding = 0)
    (hphase : walk.alone = true → worker.phase.isAlone = true → new.phase.isAlone = true)
    (hchecking : new.phase = .checking → walk.alone = true)
    (hhistory : next.enqueued.Perm (next.popped ++ next.queue.tasks)) : next.Consistent where
  outstanding := by
    have hset := inFlight_set new hi
    have hold := h.outstanding
    rw [hworkers]
    omega
  holder := by
    intro j
    rw [hholder, hworkers]
    exact h.holder_set new hi hfree j
  waiting := fun other hother ↦ hwaiting other (mem_set (hworkers ▸ hother))
  done := fun other hother ↦ hdone other (mem_set (hworkers ▸ hother))
  alone := by
    intro htrue
    rw [halone] at htrue
    obtain ⟨only, honly, -⟩ := h.alone htrue
    have hnew := hphase htrue (h.isAlone hi htrue)
    obtain ⟨hlt, -⟩ := List.getElem?_eq_some_iff.mp hi
    have hzero : i = 0 := by
      rw [honly, List.length_singleton] at hlt
      exact Nat.lt_one_iff.mp hlt
    exact ⟨new, by rw [hworkers, honly, hzero]; rfl, hnew⟩
  checking := by
    intro other hother hcheck
    rw [halone]
    rcases mem_set (hworkers ▸ hother) with rfl | hother
    · exact hchecking hcheck
    · exact h.checking other hother hcheck
  history := hhistory
  nonempty := by
    rw [hworkers]
    exact (List.set_eq_nil_iff i new).not.mpr h.nonempty

/-- A step of one worker that leaves the queue as it is. -/
theorem Consistent.relock (h : walk.Consistent) (hi : walk.workers[i]? = some worker)
    (hworkers : next.workers = walk.workers.set i new) (halone : next.alone = walk.alone)
    (hqueue : next.queue = walk.queue)
    (hhistory : next.enqueued = walk.enqueued ∧ next.popped = walk.popped)
    (hflight : new.phase.inFlight = worker.phase.inFlight)
    (hholder : next.holder = if new.phase.holdsLock then some i
      else if worker.phase.holdsLock then none else walk.holder)
    (hfree : new.phase.holdsLock = true → worker.phase.holdsLock = false → walk.holder = none)
    (hwaiting : new.phase = .waiting → walk.queue.tasks = [] ∧ walk.queue.outstanding ≠ 0)
    (hdone : new.phase = .done → walk.queue.outstanding = 0)
    (hphase : walk.alone = true → worker.phase.isAlone = true → new.phase.isAlone = true)
    (hchecking : new.phase ≠ .checking) : next.Consistent := by
  refine h.update hi hworkers halone ?_ hholder hfree ?_ ?_ hphase (fun h ↦ absurd h hchecking) ?_
  · rw [hqueue, hflight]
    omega
  · rw [hqueue]
    rintro other (rfl | hother) hwait
    · exact hwaiting hwait
    · exact h.waiting other hother hwait
  · rw [hqueue]
    rintro other (rfl | hother) hend
    · exact hdone hend
    · exact h.done other hother hend
  · rw [hqueue, hhistory.1, hhistory.2]
    exact h.history

/-- A step of one worker away from the queue and the lock. -/
theorem Consistent.move (h : walk.Consistent) (hi : walk.workers[i]? = some worker) (shared : S)
    (hflight : new.phase.inFlight = worker.phase.inFlight)
    (hlock : worker.phase.holdsLock = false ∧ new.phase.holdsLock = false)
    (hwaiting : new.phase ≠ .waiting) (hdone : new.phase ≠ .done) (hchecking : new.phase ≠ .checking)
    (hphase : worker.phase.isAlone = true → new.phase.isAlone = true) :
    { walk.put i new with shared := shared }.Consistent :=
  h.relock hi rfl rfl rfl ⟨rfl, rfl⟩ hflight (by simp [put, hlock]) (by simp [hlock])
    (fun hwait ↦ absurd hwait hwaiting) (fun hend ↦ absurd hend hdone) (fun _ ↦ hphase) hchecking

/-! ## Notification and new workers -/

theorem Consistent.outstanding_pos (h : walk.Consistent) (hi : walk.workers[i]? = some worker)
    (hflight : worker.phase.inFlight = true) : 0 < walk.queue.outstanding := by
  have hpos : 0 < inFlight walk.workers :=
    List.countP_pos_iff.mpr ⟨worker, List.mem_of_getElem? hi, hflight⟩
  have hcount := h.outstanding
  omega

theorem inFlight_notify (phase : WorkerPhase T J) : phase.notify.inFlight = phase.inFlight := by
  cases phase <;> rfl

theorem holdsLock_notify (phase : WorkerPhase T J) : phase.notify.holdsLock = phase.holdsLock := by
  cases phase <;> rfl

theorem notify_ne_waiting (phase : WorkerPhase T J) : phase.notify ≠ .waiting := by
  cases phase <;> nofun

theorem mem_notifyAll {other : FallbackWorker L T J} (h : other ∈ walk.notifyAll.workers) :
    other.phase ≠ .waiting ∧
      ∃ worker ∈ walk.workers, other = { worker with phase := worker.phase.notify } := by
  obtain ⟨worker, hworker, rfl⟩ := List.mem_map.mp h
  exact ⟨notify_ne_waiting worker.phase, worker, hworker, rfl⟩

theorem Consistent.notifyAll (h : walk.Consistent) : walk.notifyAll.Consistent where
  outstanding := by
    have hsame : inFlight walk.notifyAll.workers = inFlight walk.workers := by
      simp [inFlight, FallbackWalk.notifyAll, List.countP_map, Function.comp_def,
        inFlight_notify]
    rw [hsame]
    exact h.outstanding
  holder := by
    intro j
    simp only [FallbackWalk.notifyAll, List.getElem?_map, Option.map_eq_some_iff]
    rw [h.holder j]
    constructor
    · rintro ⟨worker, hworker, hholds⟩
      exact ⟨_, ⟨worker, hworker, rfl⟩, (holdsLock_notify worker.phase).trans hholds⟩
    · rintro ⟨-, ⟨worker, hworker, rfl⟩, hholds⟩
      exact ⟨worker, hworker, (holdsLock_notify worker.phase).symm.trans hholds⟩
  waiting := fun other hother hwait ↦ absurd hwait (mem_notifyAll hother).1
  done := by
    intro other hother hdone
    obtain ⟨-, worker, hworker, rfl⟩ := mem_notifyAll hother
    refine h.done worker hworker ?_
    cases hphase : worker.phase <;> simp_all [WorkerPhase.notify]
  alone := by
    intro halone
    obtain ⟨worker, hworkers, hphase⟩ := h.alone halone
    refine ⟨{ worker with phase := worker.phase.notify }, by simp [FallbackWalk.notifyAll, hworkers], ?_⟩
    cases hcases : worker.phase <;> simp_all [WorkerPhase.notify, WorkerPhase.isAlone]
  checking := by
    intro other hother hcheck
    obtain ⟨-, worker, hworker, rfl⟩ := mem_notifyAll hother
    refine h.checking worker hworker ?_
    cases hphase : worker.phase <;> simp_all [WorkerPhase.notify]
  history := h.history
  nonempty := List.map_eq_nil_iff.not.mpr h.nonempty

/-- A worker that is started. -/
theorem Consistent.startWorker (h : walk.Consistent) (halone : walk.alone = false) (totals : L)
    (started : ℕ) :
    Consistent { walk with
      workersStarted := started
      workers := walk.workers ++ [⟨totals, .loopTop⟩] } where
  outstanding := by
    have hsame : inFlight (walk.workers ++ [⟨totals, .loopTop⟩]) =
        inFlight walk.workers := by
      simp [inFlight, WorkerPhase.inFlight]
    simp only [hsame]
    exact h.outstanding
  holder := by
    intro j
    rw [h.holder j]
    refine exists_congr fun worker ↦ and_congr_left fun hholds ↦ ?_
    simp only [List.getElem?_append]
    split
    · rfl
    · have hnone : walk.workers[j]? = none := List.getElem?_eq_none (by omega)
      rw [hnone]
      constructor
      · exact fun hcontra ↦ nomatch hcontra
      · intro hlast
        have hmem := List.mem_of_getElem? hlast
        obtain rfl := List.mem_singleton.mp hmem
        cases hholds
  waiting := by
    intro other hother hwait
    rcases List.mem_append.mp hother with hother | hother
    · exact h.waiting other hother hwait
    · obtain rfl := List.mem_singleton.mp hother
      cases hwait
  done := by
    intro other hother hdone
    rcases List.mem_append.mp hother with hother | hother
    · exact h.done other hother hdone
    · obtain rfl := List.mem_singleton.mp hother
      cases hdone
  alone := fun htrue ↦ absurd (halone.symm.trans htrue) Bool.false_ne_true
  checking := by
    intro other hother hcheck
    rcases List.mem_append.mp hother with hother | hother
    · exact h.checking other hother hcheck
    · obtain rfl := List.mem_singleton.mp hother
      cases hcheck
  history := h.history
  nonempty := List.append_ne_nil_of_right_ne_nil _ nofun

/-- The second critical section. -/
theorem Consistent.settle (h : walk.Consistent) {totals : L} {newTasks : List T}
    (hi : walk.workers[i]? = some ⟨totals, .settling newTasks⟩) :
    (walk.settle i totals newTasks).Consistent := by
  have hpos := h.outstanding_pos hi rfl
  have hhistory : (walk.enqueued ++ newTasks).Perm
      (walk.popped ++ (walk.queue.tasks ++ newTasks)) := by
    rw [← List.append_assoc]
    exact h.history.append_right newTasks
  have hleft : ∀ other ∈ walk.workers, other.phase ≠ .done := by
    intro other hother hend
    have hzero := h.done other hother hend
    omega
  unfold FallbackWalk.settle
  by_cases hnotify : walk.queue.outstanding + newTasks.length - 1 = 0 ∨ newTasks ≠ []
  · have hi' : walk.notifyAll.workers[i]? = some ⟨totals, .settling newTasks⟩ := by
      simp [FallbackWalk.notifyAll, hi, WorkerPhase.notify]
    simp only [if_pos hnotify]
    refine h.notifyAll.update hi' rfl rfl ?_ rfl nofun ?_ ?_ (fun _ ↦ nofun) nofun hhistory
    · simp only [put, FallbackWalk.notifyAll, List.length_append, WorkerPhase.inFlight]
      simp
      omega
    · rintro other (rfl | hother) hwait
      · cases hwait
      · exact absurd hwait (mem_notifyAll hother).1
    · rintro other (rfl | hother) hend
      · cases hend
      · obtain ⟨-, worker, hworker, rfl⟩ := mem_notifyAll hother
        refine absurd ?_ (hleft worker hworker)
        cases hphase : worker.phase <;> simp_all [WorkerPhase.notify]
  · simp only [if_neg hnotify]
    obtain ⟨hsome, hnone⟩ := not_or.mp hnotify
    obtain rfl := not_not.mp hnone
    refine h.update hi rfl rfl ?_ rfl nofun ?_ ?_ (fun _ ↦ nofun) nofun hhistory
    · simp only [put, List.length_append, WorkerPhase.inFlight]
      simp
      omega
    · rintro other (rfl | hother) hwait
      · cases hwait
      · obtain ⟨hempty, -⟩ := h.waiting other hother hwait
        exact ⟨by simp [put, hempty], hsome⟩
    · rintro other (rfl | hother) hend
      · cases hend
      · exact absurd hend (hleft other hother)

/-! ## Steps -/

/-- The end of the scan thread's loop alone. -/
theorem Consistent.share (h : walk.Consistent) {totals : L}
    (hi : walk.workers[i]? = some ⟨totals, .checking⟩) (started : ℕ) :
    Consistent { walk.put i ⟨default, .loopTop⟩ with alone := false, workersStarted := started } := by
  obtain ⟨only, honly, -⟩ := h.alone (h.checking _ (List.mem_of_getElem? hi) rfl)
  have hworkers : walk.workers.set i ⟨default, .loopTop⟩ = [⟨default, .loopTop⟩] := by
    obtain ⟨hlt, -⟩ := List.getElem?_eq_some_iff.mp hi
    rw [honly, List.length_singleton, Nat.lt_one_iff] at hlt
    rw [honly, hlt]
    rfl
  have hset := inFlight_set ⟨default, .loopTop⟩ hi
  have hphase : ∀ other ∈ walk.workers.set i ⟨default, .loopTop⟩, other.phase = .loopTop := by
    intro other hother
    rw [hworkers] at hother
    exact List.mem_singleton.mp hother ▸ rfl
  refine ⟨?_, fun j ↦ ?_, fun other hother hwait ↦ ?_, fun other hother hend ↦ ?_, nofun,
    fun other hother hcheck ↦ ?_, h.history,
    (List.set_eq_nil_iff i _).not.mpr h.nonempty⟩
  · have hcount := h.outstanding
    simp only [WorkerPhase.inFlight, Bool.false_eq_true, if_false, Nat.add_zero] at hset
    simp only [put, hset]
    exact hcount
  · exact h.holder_set ⟨default, .loopTop⟩ hi nofun j
  · exact nomatch (hphase other hother).symm.trans hwait
  · exact nomatch (hphase other hother).symm.trans hend
  · exact nomatch (hphase other hother).symm.trans hcheck

/-- The scan thread is the only worker as long as it is alone. -/
theorem Consistent.eq_of_alone (h : walk.Consistent) (halone : walk.alone = true)
    (hi : walk.workers[i]? = some worker) : walk.workers = [worker] := by
  obtain ⟨only, honly, -⟩ := h.alone halone
  have hself := List.mem_of_getElem? hi
  rw [honly] at hself
  rw [honly, ← List.mem_singleton.mp hself]

/-- The scan thread alone takes its only task. -/
theorem Consistent.popAlone (h : walk.Consistent) {totals : L} {task : T}
    (hi : walk.workers[i]? = some ⟨totals, .checking⟩) (htasks : walk.queue.tasks = [task]) :
    Consistent { walk.put i ⟨totals, .received task⟩ with
      queue := { walk.queue with tasks := [] }
      popped := walk.popped ++ [task] } := by
  refine h.update hi rfl rfl ?_ rfl nofun ?_ ?_ (fun _ _ ↦ rfl) nofun ?_
  · simp [htasks, WorkerPhase.inFlight]
  · rintro other (rfl | hother) hwait
    · cases hwait
    · rw [(h.waiting other hother hwait).1] at htasks
      cases htasks
  · rintro other (rfl | hother) hend
    · cases hend
    · exact h.done other hother hend
  · have hhistory := h.history
    rw [htasks] at hhistory
    simpa [put] using hhistory

/-- It adds the tasks that it has found. -/
theorem Consistent.extendAlone (h : walk.Consistent) {totals : L} {newTasks : List T}
    (halone : walk.alone = true) (hi : walk.workers[i]? = some ⟨totals, .finishing newTasks⟩) :
    Consistent { walk.put i ⟨totals, .checking⟩ with
      queue :=
        { tasks := walk.queue.tasks ++ newTasks
          outstanding := (walk.queue.tasks ++ newTasks).length }
      enqueued := walk.enqueued ++ newTasks } := by
  have honly := h.eq_of_alone halone hi
  have hworker : ∀ other ∈ walk.workers, other = ⟨totals, .finishing newTasks⟩ := by
    intro other hother
    rw [honly] at hother
    exact List.mem_singleton.mp hother
  have hone : inFlight walk.workers = 1 := by
    rw [honly]
    rfl
  refine h.update hi rfl rfl ?_ rfl nofun ?_ ?_ (fun _ _ ↦ rfl) (fun _ ↦ halone) ?_
  · have hcount := h.outstanding
    simp [WorkerPhase.inFlight]
    omega
  · rintro other (rfl | hother) hwait
    · cases hwait
    · rw [hworker other hother] at hwait
      cases hwait
  · rintro other (rfl | hother) hend
    · cases hend
    · rw [hworker other hother] at hend
      cases hend
  · simp only [put]
    rw [← List.append_assoc]
    exact h.history.append_right newTasks

/-- It ends when no task is left. -/
theorem Consistent.returnAlone (h : walk.Consistent) {totals : L}
    (hi : walk.workers[i]? = some ⟨totals, .checking⟩) (htasks : walk.queue.tasks = []) :
    (walk.put i ⟨totals, .done⟩).Consistent := by
  have hzero : walk.queue.outstanding = 0 := by
    rw [h.outstanding, htasks, h.eq_of_alone (h.checking _ (List.mem_of_getElem? hi) rfl) hi]
    rfl
  exact h.relock hi rfl rfl rfl ⟨rfl, rfl⟩ rfl rfl nofun nofun (fun _ ↦ hzero) (fun _ _ ↦ rfl) nofun

/-- A worker takes the last task and gives the lock back. -/
theorem Consistent.pop (h : walk.Consistent) {totals : L} {rest : List T} {task : T}
    (hi : walk.workers[i]? = some ⟨totals, .selecting⟩) (htasks : walk.queue.tasks = rest ++ [task]) :
    Consistent { walk.put i ⟨totals, .received task⟩ with
      queue := { walk.queue with tasks := rest }
      holder := none
      popped := walk.popped ++ [task] } := by
  refine h.update hi rfl rfl ?_ rfl nofun ?_ ?_ (fun _ ↦ nofun) nofun ?_
  · simp [htasks, WorkerPhase.inFlight]
    omega
  · rintro other (rfl | hother) hwait
    · cases hwait
    · rw [(h.waiting other hother hwait).1] at htasks
      simp at htasks
  · rintro other (rfl | hother) hend
    · cases hend
    · exact h.done other hother hend
  · have hhistory := h.history
    rw [htasks] at hhistory
    refine hhistory.trans ?_
    simp only [List.append_assoc]
    exact List.perm_append_comm.append_left walk.popped

theorem Consistent.step (h : walk.Consistent)
    (hstep : FallbackStep processing workerLimit default walk next) : next.Consistent := by
  cases hstep with
  | other => exact ⟨h.outstanding, h.holder, h.waiting, h.done, h.alone, h.checking, h.history, h.nonempty⟩
  | popAlone hphase htasks => exact h.popAlone hphase htasks
  | extendAlone halone hphase => exact h.extendAlone halone hphase
  | returnAlone hphase htasks => exact h.returnAlone hphase htasks
  | share hphase htasks => exact h.share hphase 1
  | start hphase hstart => exact h.move hphase _ rfl ⟨rfl, rfl⟩ nofun nofun nofun fun _ ↦ rfl
  | process hphase hstep => exact h.move hphase _ rfl ⟨rfl, rfl⟩ nofun nofun nofun fun _ ↦ rfl
  | finish hphase hresult =>
      exact h.move hphase walk.shared rfl ⟨rfl, rfl⟩ nofun nofun nofun fun _ ↦ rfl
  | lockFinished halone hphase hfree =>
      refine h.relock hphase rfl rfl rfl ⟨rfl, rfl⟩ rfl rfl (fun _ _ ↦ hfree) nofun nofun ?_ nofun
      exact fun htrue ↦ absurd (halone.symm.trans htrue) Bool.false_ne_true
  | settle hphase => exact h.settle hphase
  | size hphase hfree => exact h.move hphase walk.shared rfl ⟨rfl, rfl⟩ nofun nofun nofun nofun
  | load hphase => exact h.move hphase walk.shared rfl ⟨rfl, rfl⟩ nofun nofun nofun nofun
  | @startWorker i desired totals hphase hlt =>
      have halone : walk.alone = false := by
        cases hcases : walk.alone with
        | false => rfl
        | true => exact nomatch h.isAlone hphase hcases
      have hmoved : (walk.put i ⟨totals, .starting desired (walk.workersStarted + 1)⟩).Consistent :=
        h.move hphase walk.shared rfl ⟨rfl, rfl⟩ nofun nofun nofun nofun
      exact hmoved.startWorker halone default (walk.workersStarted + 1)
  | exchangeFails hphase hlt => exact h.move hphase walk.shared rfl ⟨rfl, rfl⟩ nofun nofun nofun nofun
  | enough hphase hle => exact h.move hphase walk.shared rfl ⟨rfl, rfl⟩ nofun nofun nofun nofun
  | lock hphase hfree =>
      exact h.relock hphase rfl rfl rfl ⟨rfl, rfl⟩ rfl rfl (fun _ _ ↦ hfree) nofun nofun
        (fun _ ↦ nofun) nofun
  | pop hphase htasks => exact h.pop hphase htasks
  | leave hphase htasks hnone =>
      exact h.relock hphase rfl rfl rfl ⟨rfl, rfl⟩ rfl rfl nofun nofun (fun _ ↦ hnone)
        (fun _ ↦ nofun) nofun
  | wait hphase htasks hsome =>
      exact h.relock hphase rfl rfl rfl ⟨rfl, rfl⟩ rfl rfl nofun (fun _ ↦ ⟨htasks, hsome⟩) nofun
        (fun _ ↦ nofun) nofun
  | spuriousWake hphase => exact h.move hphase walk.shared rfl ⟨rfl, rfl⟩ nofun nofun nofun nofun

/-- The states that a walk of a root can reach. -/
def Reachable (processing : TaskProcessing S L T J) (workerLimit : ℕ) (default : L) (shared : S)
    (root : T) (walk : FallbackWalk S L T J) : Prop :=
  Relation.ReflTransGen (FallbackStep processing workerLimit default) (initial shared default root) walk

theorem Reachable.consistent {shared : S} {root : T}
    (h : Reachable processing workerLimit default shared root walk) : walk.Consistent := by
  induction h with
  | refl => exact consistent_initial shared default root
  | tail _ hstep ih => exact ih.step hstep

end FallbackWalk

/-- Whatever the workers do with their tasks and in whatever order: the counter
is the number of tasks queued or in flight and can be decreased when it is, the
tasks taken are those added that are not queued, in the end all of them, a worker
that has left its loop leaves nothing outstanding, and no worker waits for a
notification when there is a task or nothing is outstanding. -/
theorem fallback_workers_safe (processing : TaskProcessing S L T J) (workerLimit : ℕ) (default : L)
    (shared : S) (root : T) (walk : FallbackWalk S L T J)
    (hreach : FallbackWalk.Reachable processing workerLimit default shared root walk) :
    walk.queue.outstanding = walk.queue.tasks.length + inFlight walk.workers ∧
    (∀ worker ∈ walk.workers, worker.phase.inFlight = true → 0 < walk.queue.outstanding) ∧
    walk.enqueued.Perm (walk.popped ++ walk.queue.tasks) ∧
    ((∀ worker ∈ walk.workers, worker.phase = .done) → walk.enqueued.Perm walk.popped) ∧
    (∀ worker ∈ walk.workers, worker.phase = .done → walk.queue.outstanding = 0) ∧
    ∀ worker ∈ walk.workers, worker.phase = .waiting →
      ¬(walk.queue.tasks ≠ [] ∨ walk.queue.outstanding = 0) := by
  have h := hreach.consistent
  refine ⟨h.outstanding, fun worker hworker hflight ↦ ?_, h.history, fun hdone ↦ ?_, h.done,
    fun worker hworker hwait ↦ ?_⟩
  · obtain ⟨i, hi⟩ := List.getElem?_of_mem hworker
    exact h.outstanding_pos hi hflight
  · have hzero : walk.queue.tasks.length = 0 := by
      obtain ⟨worker, hworker⟩ := List.exists_mem_of_ne_nil _ h.nonempty
      have hcount := h.outstanding
      have hnone := h.done worker hworker (hdone worker hworker)
      omega
    have hhistory := h.history
    rwa [List.length_eq_zero_iff.mp hzero, List.append_nil] at hhistory
  · obtain ⟨hempty, hsome⟩ := h.waiting worker hworker hwait
    exact not_or.mpr ⟨not_not.mpr hempty, hsome⟩

/-- A task `n + 1` brings two tasks `n`. -/
def halvingTasks : TaskProcessing Unit Unit ℕ (List ℕ) where
  Start shared _ task shared' job :=
    shared' = shared ∧ job = if task = 0 then [] else [task - 1, task - 1]
  Step _ _ _ _ := False
  Result job totals newTasks := totals = () ∧ newTasks = job
  Other _ _ := False

/-- The root brings two tasks, and the first worker starts a second one. -/
theorem halving_reachable : ∃ walk : FallbackWalk Unit Unit ℕ (List ℕ),
    FallbackWalk.Reachable halvingTasks 4 () () 1 walk ∧ walk.workers.length = 2 ∧
      walk.queue.outstanding = 2 ∧ walk.popped = [1] ∧ walk.enqueued = [1, 0, 0] := by
  refine ⟨_, .tail (.tail (.tail (.tail (.tail (.tail (.tail (.tail .refl
    (.popAlone (i := 0) rfl rfl)) (.start (i := 0) rfl ⟨rfl, rfl⟩)) (.finish (i := 0) rfl ⟨rfl, rfl⟩))
    (.extendAlone (i := 0) rfl rfl)) (.share (i := 0) rfl Nat.one_lt_two)) (.size (i := 0) rfl rfl))
    (.load (i := 0) rfl)) (.startWorker (i := 0) rfl Nat.one_lt_two), rfl, rfl, rfl, rfl⟩

theorem fallback_workers_safe_halving : ∃ walk : FallbackWalk Unit Unit ℕ (List ℕ),
    FallbackWalk.Reachable halvingTasks 4 () () 1 walk ∧ walk.workers.length = 2 ∧
      2 = walk.queue.tasks.length + inFlight walk.workers ∧
      [1, 0, 0].Perm ([1] ++ walk.queue.tasks) := by
  obtain ⟨walk, hreach, hworkers, hcount, hpopped, henqueued⟩ := halving_reachable
  obtain ⟨houtstanding, -, hhistory, -⟩ := fallback_workers_safe halvingTasks 4 () () 1 walk hreach
  rw [hcount] at houtstanding
  rw [hpopped, henqueued] at hhistory
  exact ⟨walk, hreach, hworkers, houtstanding, hhistory⟩

end WinBlaze
