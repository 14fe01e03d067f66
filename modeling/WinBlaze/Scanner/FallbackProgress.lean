import Mathlib.Order.WellFounded
import WinBlaze.Scanner.FallbackAccounting

/-!
# A walk can end

Work that becomes less with each step of a job, the workers that may still be
started and the way of each worker to its next task: as long as a worker is left,
some worker can go on and make one of these less.
-/

namespace WinBlaze

variable {S L T J : Type*}

/-- Weights of tasks and jobs that become less with each step, and a live state
in which every task can be started and every job goes on or has a result. -/
structure Progress {processing : TaskProcessing S L T J} {M : Type*} [AddCommMonoid M]
    (account : Account processing M) where
  Live : S → Prop
  task : T → ℕ
  job : J → ℕ
  start : ∀ {shared : S} {totals : L} {item : T} {others : M}, Live shared → account.Idle totals →
    account.Keeps shared (account.task item + others) →
      ∃ shared' work, processing.Start shared totals item shared' work ∧ Live shared' ∧
        job work < task item
  step : ∀ {shared : S} {work : J} {others : M}, Live shared → account.Valid work →
    account.Keeps shared (account.job work + others) →
      (∃ shared' work', processing.Step shared work shared' work' ∧ Live shared' ∧
        job work' < job work) ∨
      ∃ totals newTasks, processing.Result work totals newTasks ∧
        (newTasks.map task).sum + 1 < job work

namespace FallbackWalk

/-- The way to the next task. -/
def rank (workersStarted : ℕ) : WorkerPhase T J → ℕ
  | .finishing _ => 10
  | .settling _ => 9
  | .checking => 9
  | .loopTop => 8
  | .sized _ => 7
  | .starting _ started => if started = workersStarted then 5 else 6
  | .taking => 4
  | .selecting => 3
  | _ => 0

def ranks (walk : FallbackWalk S L T J) : ℕ :=
  (walk.workers.map (fun worker ↦ rank walk.workersStarted worker.phase)).sum

/-- The workers that may still be started. -/
def spare (workerLimit : ℕ) (walk : FallbackWalk S L T J) : ℕ :=
  if walk.alone then max workerLimit 1 + 1 else max workerLimit 1 - walk.workersStarted

/-- No worker wants more workers than the limit. -/
def Sized (workerLimit : ℕ) (walk : FallbackWalk S L T J) : Prop :=
  ∀ worker ∈ walk.workers, ∀ desired,
    worker.phase = .sized desired ∨ (∃ started, worker.phase = .starting desired started) →
      desired ≤ max workerLimit 1

variable {processing : TaskProcessing S L T J} {workerLimit : ℕ} {default : L}
  {walk next : FallbackWalk S L T J} {worker new : FallbackWorker L T J} {i : ℕ}

theorem Sized.set (h : walk.Sized workerLimit)
    (hworkers : next.workers = walk.workers.set i new)
    (hnew : ∀ desired, new.phase = .sized desired ∨
      (∃ started, new.phase = .starting desired started) → desired ≤ max workerLimit 1) :
    next.Sized workerLimit := by
  intro other hother
  rcases mem_set (hworkers ▸ hother) with rfl | hother
  · exact hnew
  · exact h other hother

theorem Sized.notifyAll (h : walk.Sized workerLimit) : walk.notifyAll.Sized workerLimit := by
  intro other hother desired hdesired
  obtain ⟨-, worker, hworker, rfl⟩ := mem_notifyAll hother
  refine h worker hworker desired ?_
  cases hphase : worker.phase <;> simp_all [WorkerPhase.notify]

theorem Sized.step (h : walk.Sized workerLimit)
    (hstep : FallbackStep processing workerLimit default walk next) : next.Sized workerLimit := by
  cases hstep with
  | other => exact h
  | @settle i totals newTasks hphase =>
      unfold FallbackWalk.settle
      dsimp only
      split
      · exact h.notifyAll.set rfl nofun
      · exact h.set rfl nofun
  | size hphase hfree =>
      refine h.set rfl fun desired hdesired ↦ ?_
      obtain rfl : workerCountForWork workerLimit walk.queue.outstanding = desired := by
        simpa using hdesired
      exact min_le_left _ _
  | @load i wanted totals hphase =>
      refine h.set rfl fun desired hdesired ↦ ?_
      obtain rfl : wanted = desired := by simpa using hdesired
      exact h _ (List.mem_of_getElem? hphase) _ (Or.inl rfl)
  | @startWorker i wanted totals hphase hlt =>
      have hwanted := h _ (List.mem_of_getElem? hphase) _ (Or.inr ⟨_, rfl⟩)
      intro other hother desired hdesired
      rcases List.mem_append.mp hother with hother | hother
      · rcases mem_set hother with rfl | hother
        · obtain rfl : wanted = desired := by simpa using hdesired
          exact hwanted
        · exact h other hother desired hdesired
      · obtain rfl := List.mem_singleton.mp hother
        simp at hdesired
  | @exchangeFails i wanted started totals hphase hlt =>
      refine h.set rfl fun desired hdesired ↦ ?_
      obtain rfl : wanted = desired := by simpa using hdesired
      exact h _ (List.mem_of_getElem? hphase) _ (Or.inr ⟨_, rfl⟩)
  | _ => exact h.set rfl nofun

theorem Reachable.sized {shared : S} {root : T}
    (h : Reachable processing workerLimit default shared root walk) : walk.Sized workerLimit := by
  induction h with
  | refl =>
      intro other hother desired hdesired
      obtain rfl := List.mem_singleton.mp hother
      simp at hdesired
  | tail _ hstep ih => exact ih.step hstep

/-! ## A step that brings the end closer -/

section Steps

variable {M : Type*} [AddCommMonoid M] {account : Account processing M}
  (progress : Progress account)

/-- The weight of what a worker does. -/
def phaseWeight : WorkerPhase T J → ℕ
  | .received task => progress.task task
  | .processing job => progress.job job
  | .finishing newTasks => (newTasks.map progress.task).sum + 1
  | .settling newTasks => (newTasks.map progress.task).sum + 1
  | _ => 0

/-- All work that is left. -/
def weight (walk : FallbackWalk S L T J) : ℕ :=
  (walk.queue.tasks.map progress.task).sum +
    (walk.workers.map (fun worker ↦ phaseWeight progress worker.phase)).sum

/-- The work, the spare workers and the ranks, the first counting most. -/
def distance (workerLimit : ℕ) (walk : FallbackWalk S L T J) : ℕ × ℕ × ℕ :=
  (walk.weight progress, walk.spare workerLimit, walk.ranks)

def Closer (workerLimit : ℕ) (next walk : FallbackWalk S L T J) : Prop :=
  Prod.Lex (· < ·) (Prod.Lex (· < ·) (· < ·)) (next.distance progress workerLimit)
    (walk.distance progress workerLimit)

theorem wellFounded_closer (workerLimit : ℕ) :
    WellFounded (Closer progress workerLimit : FallbackWalk S L T J → _) :=
  InvImage.wf _ (WellFounded.prod_lex Nat.lt_wfRel.wf
    (WellFounded.prod_lex Nat.lt_wfRel.wf Nat.lt_wfRel.wf))

variable {progress}

theorem closer_of_weight (h : next.weight progress < walk.weight progress) :
    Closer progress workerLimit next walk :=
  Prod.Lex.left _ _ h

theorem closer_of_spare (hweight : next.weight progress = walk.weight progress)
    (h : next.spare workerLimit < walk.spare workerLimit) :
    Closer progress workerLimit next walk := by
  unfold Closer distance
  rw [hweight]
  exact Prod.Lex.right _ (Prod.Lex.left _ _ h)

/-- One worker goes on its way. -/
theorem closer_of_rank (hi : walk.workers[i]? = some worker)
    (hworkers : next.workers = walk.workers.set i new)
    (hcount : next.workersStarted = walk.workersStarted) (halone : next.alone = walk.alone)
    (hweight : (next.queue.tasks.map progress.task).sum + phaseWeight progress new.phase =
      (walk.queue.tasks.map progress.task).sum + phaseWeight progress worker.phase)
    (hrank : rank walk.workersStarted new.phase < rank walk.workersStarted worker.phase) :
    Closer progress workerLimit next walk := by
  obtain ⟨others, hall, hset⟩ :=
    exists_sum_set (fun worker ↦ phaseWeight progress worker.phase) hi
  obtain ⟨ranks, hranks, hsetRanks⟩ :=
    exists_sum_set (fun worker ↦ rank walk.workersStarted worker.phase) hi
  have hsame : next.weight progress = walk.weight progress := by
    simp only [weight, hworkers, hset, hall]
    omega
  have hspare : next.spare workerLimit = walk.spare workerLimit := by
    simp only [spare, halone, hcount]
  unfold Closer distance
  rw [hsame, hspare]
  refine Prod.Lex.right _ (Prod.Lex.right _ ?_)
  simp only [FallbackWalk.ranks, hworkers, hcount, hsetRanks, hranks]
  omega

/-- One worker does some work. -/
theorem closer_of_work (hi : walk.workers[i]? = some worker)
    (hworkers : next.workers = walk.workers.set i new)
    (hweight : (next.queue.tasks.map progress.task).sum + phaseWeight progress new.phase <
      (walk.queue.tasks.map progress.task).sum + phaseWeight progress worker.phase) :
    Closer progress workerLimit next walk := by
  obtain ⟨others, hall, hset⟩ :=
    exists_sum_set (fun worker ↦ phaseWeight progress worker.phase) hi
  refine closer_of_weight ?_
  simp only [weight, hworkers, hset, hall]
  omega

end Steps

section Exists

variable {M : Type*} [AddCommMonoid M] {account : Account processing M}
  {progress : Progress account}

/-- A worker that is not kept from going on. -/
theorem Consistent.exists_ready (h : walk.Consistent)
    (hleft : ∃ worker ∈ walk.workers, worker.phase ≠ .done) :
    ∃ (i : ℕ) (worker : FallbackWorker L T J), walk.workers[i]? = some worker ∧
      worker.phase ≠ .done ∧ worker.phase ≠ .waiting ∧
      (worker.phase.holdsLock = false → walk.holder = none) := by
  cases hholder : walk.holder with
  | some i =>
      obtain ⟨worker, hi, hlock⟩ := (h.holder i).mp hholder
      refine ⟨i, worker, hi, ?_, ?_, fun hfree ↦ absurd (hfree.symm.trans hlock) Bool.false_ne_true⟩
      · intro hdone
        rw [hdone] at hlock
        cases hlock
      · intro hwait
        rw [hwait] at hlock
        cases hlock
  | none =>
      obtain ⟨worker, hworker, hdone⟩ := hleft
      by_cases hwait : worker.phase = .waiting
      · -- a task is in flight, and its worker goes on
        obtain ⟨htasks, hsome⟩ := h.waiting worker hworker hwait
        have hcount := h.outstanding
        rw [htasks, List.length_nil, Nat.zero_add] at hcount
        obtain ⟨other, hother, hflight⟩ := List.countP_pos_iff.mp
          (Nat.pos_of_ne_zero (hcount ▸ hsome) : 0 < inFlight walk.workers)
        obtain ⟨i, hi⟩ := List.getElem?_of_mem hother
        refine ⟨i, other, hi, ?_, ?_, fun _ ↦ rfl⟩
        · intro hend
          rw [hend] at hflight
          cases hflight
        · intro hend
          rw [hend] at hflight
          cases hflight
      · obtain ⟨i, hi⟩ := List.getElem?_of_mem hworker
        exact ⟨i, worker, hi, hdone, hwait, fun _ ↦ rfl⟩

/-- The relation, for one worker and what the others hold. -/
theorem exists_frame (h : account.Holds walk) (hi : walk.workers[i]? = some worker) :
    ∃ others, account.Keeps walk.shared (account.phase worker.phase + others) := by
  obtain ⟨others, hall, -⟩ := account.exists_others hi
  have hkeeps := h.keeps
  rw [Account.total, hall, add_left_comm] at hkeeps
  exact ⟨_, hkeeps⟩

theorem shared_settle (walk : FallbackWalk S L T J) (i : ℕ) (totals : L) (newTasks : List T) :
    (walk.settle i totals newTasks).shared = walk.shared := by
  unfold settle
  dsimp only
  split <;> rfl

theorem weight_notifyAll (walk : FallbackWalk S L T J) :
    walk.notifyAll.weight progress = walk.weight progress := by
  simp only [weight, notifyAll, List.map_map]
  congr 2
  refine List.map_congr_left fun worker _ ↦ ?_
  cases hphase : worker.phase <;> simp [hphase, WorkerPhase.notify, phaseWeight]

theorem weight_settle {totals : L} {newTasks : List T}
    (hi : walk.workers[i]? = some ⟨totals, .settling newTasks⟩) :
    (walk.settle i totals newTasks).weight progress < walk.weight progress := by
  -- with the lock given back, by one who has notified the others or not
  have hsettle : ∀ before : FallbackWalk S L T J,
      before.workers[i]? = some ⟨totals, .settling newTasks⟩ → ∀ outstanding,
      weight progress { before.put i ⟨totals, .loopTop⟩ with
        queue := { tasks := before.queue.tasks ++ newTasks, outstanding := outstanding } } <
          before.weight progress := by
    intro before hbefore outstanding
    obtain ⟨others, hall, hset⟩ :=
      exists_sum_set (fun worker ↦ phaseWeight progress worker.phase) hbefore
    simp only [weight, put, hset, hall, List.map_append, List.sum_append]
    simp only [phaseWeight]
    omega
  unfold settle
  dsimp only
  split
  · rw [← weight_notifyAll walk]
    refine hsettle walk.notifyAll ?_ _
    simp [notifyAll, hi, WorkerPhase.notify]
  · exact hsettle walk hi _

/-- As long as a worker is left, some worker can bring the end closer. -/
theorem exists_closer (hconsistent : walk.Consistent) (hholds : account.Holds walk)
    (hsized : walk.Sized workerLimit) (hlive : progress.Live walk.shared)
    (hleft : ∃ worker ∈ walk.workers, worker.phase ≠ .done) :
    ∃ next, FallbackStep processing workerLimit default walk next ∧ progress.Live next.shared ∧
      Closer progress workerLimit next walk := by
  obtain ⟨i, ⟨totals, phase⟩, hi, hdone, hwait, hfree⟩ := hconsistent.exists_ready hleft
  have hsound := hholds.sound _ (List.mem_of_getElem? hi)
  cases phase with
  | done => exact absurd rfl hdone
  | waiting => exact absurd rfl hwait
  | checking =>
      cases htasks : walk.queue.tasks with
      | nil =>
          refine ⟨_, .returnAlone hi htasks, hlive, closer_of_rank hi rfl rfl rfl rfl ?_⟩
          simp [rank]
      | cons task rest =>
          cases rest with
          | nil =>
              refine ⟨_, .popAlone hi htasks, hlive, closer_of_rank hi rfl rfl rfl ?_ ?_⟩
              · simp [htasks, phaseWeight]
              · simp [rank]
          | cons second rest =>
              have htwo : 1 < walk.queue.tasks.length := by simp [htasks]
              have halone := hconsistent.checking _ (List.mem_of_getElem? hi) rfl
              obtain ⟨others, hall, hset⟩ :=
                exists_sum_set (fun worker ↦ phaseWeight progress worker.phase) hi
              refine ⟨_, .share hi htwo, hlive, closer_of_spare ?_ ?_⟩
              · simp only [weight, put, hset, hall]
                rfl
              · simp only [spare, halone, Bool.false_eq_true, if_false, if_true]
                omega
  | loopTop =>
      refine ⟨_, .size hi (hfree rfl), hlive, closer_of_rank hi rfl rfl rfl rfl ?_⟩
      simp [rank]
  | sized desired =>
      refine ⟨_, .load hi, hlive, closer_of_rank hi rfl rfl rfl rfl ?_⟩
      simp [rank]
  | starting desired started =>
      by_cases hlt : started < desired
      · by_cases hfresh : started = walk.workersStarted
        · subst hfresh
          have halone : walk.alone = false := by
            cases hcases : walk.alone with
            | false => rfl
            | true => cases hconsistent.isAlone hi hcases
          have hle := hsized _ (List.mem_of_getElem? hi) desired (Or.inr ⟨_, rfl⟩)
          obtain ⟨others, hall, hset⟩ :=
            exists_sum_set (fun worker ↦ phaseWeight progress worker.phase) hi
          refine ⟨_, .startWorker hi hlt, hlive, closer_of_spare ?_ ?_⟩
          · simp only [weight, List.map_append, List.sum_append, hset, hall]
            rfl
          · simp only [spare, halone, Bool.false_eq_true, if_false]
            omega
        · refine ⟨_, .exchangeFails hi hlt, hlive, closer_of_rank hi rfl rfl rfl rfl ?_⟩
          simp [rank, hfresh]
      · refine ⟨_, .enough hi (Nat.le_of_not_lt hlt), hlive, closer_of_rank hi rfl rfl rfl rfl ?_⟩
        simp only [rank]
        split <;> omega
  | taking =>
      refine ⟨_, .lock hi (hfree rfl), hlive, closer_of_rank hi rfl rfl rfl rfl ?_⟩
      simp [rank]
  | selecting =>
      rcases List.eq_nil_or_concat walk.queue.tasks with htasks | ⟨rest, task, htasks⟩
      · by_cases hnone : walk.queue.outstanding = 0
        · refine ⟨_, .leave hi htasks hnone, hlive, closer_of_rank hi rfl rfl rfl rfl ?_⟩
          simp [rank]
        · refine ⟨_, .wait hi htasks hnone, hlive, closer_of_rank hi rfl rfl rfl rfl ?_⟩
          simp [rank]
      · refine ⟨_, .pop hi (htasks.trans (List.concat_eq_append)), hlive,
          closer_of_rank hi rfl rfl rfl ?_ ?_⟩
        · simp [htasks, phaseWeight]
        · simp [rank]
  | received task =>
      obtain ⟨others, hkeeps⟩ := exists_frame hholds hi
      obtain ⟨shared', work, hstart, hlive', hlt⟩ := progress.start hlive hsound hkeeps
      exact ⟨_, .start hi hstart, hlive', closer_of_work hi rfl (Nat.add_lt_add_left hlt _)⟩
  | processing work =>
      obtain ⟨others, hkeeps⟩ := exists_frame hholds hi
      rcases progress.step hlive hsound hkeeps with
        ⟨shared', work', hstep, hlive', hlt⟩ | ⟨totals', newTasks, hresult, hlt⟩
      · exact ⟨_, .process hi hstep, hlive', closer_of_work hi rfl (Nat.add_lt_add_left hlt _)⟩
      · exact ⟨_, .finish hi hresult, hlive, closer_of_work hi rfl (Nat.add_lt_add_left hlt _)⟩
  | finishing newTasks =>
      cases halone : walk.alone with
      | true =>
          refine ⟨_, .extendAlone halone hi, hlive, closer_of_work hi rfl ?_⟩
          simp [phaseWeight]
      | false =>
          refine ⟨_, .lockFinished halone hi (hfree rfl), hlive, closer_of_rank hi rfl rfl rfl rfl ?_⟩
          simp [rank]
  | settling newTasks =>
      refine ⟨_, .settle hi, ?_, closer_of_weight (weight_settle hi)⟩
      rw [shared_settle]
      exact hlive

/-- From every live state of a walk it can come to its end. -/
theorem Reachable.exists_finished (progress : Progress account) {shared : S} {root : T}
    (hdefault : account.Idle default)
    (hroot : account.Keeps shared (account.task root))
    (hreach : Reachable processing workerLimit default shared root walk)
    (hlive : progress.Live walk.shared) :
    ∃ final, Relation.ReflTransGen (FallbackStep processing workerLimit default) walk final ∧
      progress.Live final.shared ∧ ∀ worker ∈ final.workers, worker.phase = .done := by
  induction walk using (wellFounded_closer progress workerLimit).induction with
  | _ walk ih =>
      by_cases hleft : ∃ worker ∈ walk.workers, worker.phase ≠ .done
      · obtain ⟨next, hstep, hlive', hcloser⟩ := exists_closer hreach.consistent
          (Account.holds_of_reachable hdefault hroot hreach) hreach.sized hlive hleft
        obtain ⟨final, hrun, hend⟩ := ih next hcloser (hreach.tail hstep) hlive'
        exact ⟨final, .head hstep hrun, hend⟩
      · refine ⟨walk, .refl, hlive, fun worker hworker ↦ ?_⟩
        by_contra hdone
        exact hleft ⟨worker, hworker, hdone⟩

end Exists

end FallbackWalk

end WinBlaze
