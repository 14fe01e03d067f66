import Mathlib.Data.List.Range
import Mathlib.Logic.Relation
import Mathlib.Tactic.Common

/-!
# Background work with an owner

Jobs run on threads of their own, and the owner drains them before it releases what they use.
Any thread may start a job, and jobs may start others, also while the owner drains. When a
drain has returned, everything has ended and nothing can begin.
-/

namespace WinBlaze

/-- Where a job is. It no longer touches its group when it has finished. -/
inductive JobState
  | running
  | leaving
  | finished
  deriving DecidableEq, Repr

/-- Where the drain is that holds the drain mutex. -/
inductive DrainState
  | joining (batch : List ℕ)
  | leaving
  deriving DecidableEq, Repr

/-- The group, its jobs in the order in which they were accepted, and what has happened so
far: the threads that were joined, the exceptions of the jobs and what drains ended with. -/
structure OwnedBackgroundWork (ε : Type*) where
  accepting : Bool := true
  threads : List ℕ := []
  error : Option ε := none
  jobs : List JobState := []
  drain : Option DrainState := none
  joined : List ℕ := []
  failures : List ε := []
  returned : List (Option ε) := []
  deriving DecidableEq, Repr

namespace OwnedBackgroundWork

variable {ε : Type*} (group : OwnedBackgroundWork ε)

/-- The flag of a job. -/
def finished (job : ℕ) : Bool := group.jobs[job]? = some .finished

def reapLocked : OwnedBackgroundWork ε :=
  { group with
    threads := group.threads.filter fun job ↦ !group.finished job
    joined := group.joined ++ group.threads.filter group.finished }

/-- A job of the group is running on the caller's thread. -/
def owns (caller : Option ℕ) : Bool := caller.any fun job ↦ group.jobs[job]? = some .running

def run (caller : Option ℕ) : OwnedBackgroundWork ε :=
  if group.accepting = false ∧ group.owns caller = false then group
  else
    let reaped := group.reapLocked
    { reaped with
      threads := reaped.threads ++ [reaped.jobs.length]
      jobs := reaped.jobs ++ [.running] }

/-- What the drain has still to join. -/
def batch : List ℕ :=
  match group.drain with
  | some (.joining batch) => batch
  | _ => []

/-- One step of any of the threads. Each of them is done under the mutex, or touches no more
than one flag. -/
inductive Step : OwnedBackgroundWork ε → OwnedBackgroundWork ε → Prop
  | run (group : OwnedBackgroundWork ε) (caller : Option ℕ) : Step group (group.run caller)
  | reapCompleted (group : OwnedBackgroundWork ε) : Step group group.reapLocked
  | fail {group : OwnedBackgroundWork ε} {job : ℕ} (hjob : group.jobs[job]? = some .running) (error : ε) :
      Step group { group with
        jobs := group.jobs.set job .leaving
        error := group.error <|> some error
        failures := group.failures ++ [error] }
  | succeed {group : OwnedBackgroundWork ε} {job : ℕ} (hjob : group.jobs[job]? = some .running) :
      Step group { group with jobs := group.jobs.set job .leaving }
  | finish {group : OwnedBackgroundWork ε} {job : ℕ} (hjob : group.jobs[job]? = some .leaving) :
      Step group { group with jobs := group.jobs.set job .finished }
  | closeAndDrain {group : OwnedBackgroundWork ε} (hdrain : group.drain = none) :
      Step group { group with drain := some (.joining []) }
  | swap {group : OwnedBackgroundWork ε} (hdrain : group.drain = some (.joining [])) :
      Step group { group with
        accepting := false
        threads := []
        drain := some (if group.threads = [] then .leaving else .joining group.threads) }
  | join {group : OwnedBackgroundWork ε} {job : ℕ} {rest : List ℕ}
      (hdrain : group.drain = some (.joining (job :: rest))) (hjob : group.finished job = true) :
      Step group { group with drain := some (.joining rest), joined := group.joined ++ [job] }
  | endDrain {group : OwnedBackgroundWork ε} (hdrain : group.drain = some .leaving) :
      Step group { group with
        error := none
        drain := none
        returned := group.returned ++ [group.error] }

/-- The groups that the threads can reach. -/
def Reachable (group : OwnedBackgroundWork ε) : Prop := Relation.ReflTransGen Step {} group

/-! ## What holds in every state -/

variable {group}

/-- A drain has collected all there is, or one did before. -/
def Drained (group : OwnedBackgroundWork ε) : Prop :=
  group.drain = some .leaving ∨ group.returned ≠ []

/-- Every job has its thread in one place, and it is joined only after it has finished. A group
that was drained is empty and takes no jobs, and the first exception is what the drain ends with. -/
structure Sound (group : OwnedBackgroundWork ε) : Prop where
  places : (group.threads ++ group.batch ++ group.joined).Perm (List.range group.jobs.length)
  joined : ∀ job ∈ group.joined, group.finished job = true
  closed : group.Drained → group.accepting = false ∧ group.threads = [] ∧ group.batch = []
  fresh : group.returned = [] → group.error = group.failures.head?
  spent : ∀ result rest, group.returned = result :: rest →
    result = group.failures.head? ∧ (∀ later ∈ rest, later = none) ∧ group.error = none

theorem finished_iff {job : ℕ} : group.finished job = true ↔ group.jobs[job]? = some .finished := by
  simp [finished]

/-- A job that is not changed by a step, or has finished by it, stays as it is. -/
theorem finished_set {job other : ℕ} {state : JobState} (h : group.finished other = true)
    (hstate : group.jobs[job]? ≠ some .finished) :
    (group.jobs.set job state)[other]? = some .finished := by
  rw [finished_iff] at h
  rw [List.getElem?_set_ne, h]
  rintro rfl
  exact hstate h

namespace Sound

theorem initial : Sound ({} : OwnedBackgroundWork ε) where
  places := List.Perm.refl _
  joined := by simp
  closed := by simp [Drained]
  fresh := by simp
  spent := by simp

/-- In a group that was drained nothing runs. -/
theorem finished_of_drained (h : Sound group) (hdrained : group.Drained) {job : ℕ}
    (hjob : job < group.jobs.length) : group.finished job = true := by
  obtain ⟨-, hthreads, hbatch⟩ := h.closed hdrained
  have hplaces : job ∈ group.threads ++ group.batch ++ group.joined :=
    h.places.mem_iff.mpr (List.mem_range.mpr hjob)
  exact h.joined job (by simpa [hthreads, hbatch] using hplaces)

theorem not_drained (h : Sound group) {job : ℕ} {state : JobState} (hjob : group.jobs[job]? = some state)
    (hstate : state ≠ .finished) : ¬group.Drained := by
  intro hdrained
  obtain ⟨hlt, -⟩ := List.getElem?_eq_some_iff.mp hjob
  have hfinished := finished_iff.mp (h.finished_of_drained hdrained hlt)
  exact hstate (Option.some.inj (hjob.symm.trans hfinished))

theorem reapLocked (h : Sound group) : Sound group.reapLocked where
  places := by
    refine List.Perm.trans ?_ h.places
    have hsplit := List.filter_append_perm group.finished group.threads
    refine List.Perm.trans ?_ ((hsplit.append_right group.batch).append_right group.joined)
    refine List.Perm.trans (List.Perm.of_eq (List.append_assoc _ _ _).symm) ?_
    refine List.perm_append_comm.trans ?_
    simp [batch, OwnedBackgroundWork.reapLocked]
  joined := by
    intro job hjob
    rcases List.mem_append.mp hjob with hbefore | hnow
    · exact h.joined job hbefore
    · exact (List.mem_filter.mp hnow).2
  closed := by
    intro hdrained
    obtain ⟨haccepting, hthreads, hbatch⟩ := h.closed hdrained
    exact ⟨haccepting, by simp [OwnedBackgroundWork.reapLocked, hthreads], hbatch⟩
  fresh := h.fresh
  spent := h.spent

theorem run (h : Sound group) (caller : Option ℕ) : Sound (group.run caller) := by
  unfold OwnedBackgroundWork.run
  split_ifs with hrefused
  · exact h
  have hreaped := h.reapLocked
  have hnot : ¬group.Drained := by
    intro hdrained
    have hclosed := (h.closed hdrained).1
    cases caller with
    | none => exact hrefused ⟨hclosed, rfl⟩
    | some job =>
        refine hrefused ⟨hclosed, decide_eq_false fun hjob ↦ ?_⟩
        exact h.not_drained hjob (by decide) hdrained
  have hfinished : ∀ job, group.reapLocked.finished job = true →
      (group.jobs ++ [.running])[job]? = some .finished := by
    intro job hjob
    have hjob' := finished_iff.mp hjob
    exact (List.getElem?_append_left (List.getElem?_eq_some_iff.mp hjob').1).trans hjob'
  refine ⟨?_, fun job hjob ↦ finished_iff.mpr (hfinished job (hreaped.joined job hjob)),
    fun hdrained ↦ absurd hdrained hnot, hreaped.fresh, hreaped.spent⟩
  have hplaces := (hreaped.places.append_right [group.jobs.length]).trans
    (List.Perm.of_eq List.range_succ.symm)
  refine List.Perm.trans ?_ (hplaces.trans (List.Perm.of_eq (by simp)))
  simp only [batch, List.append_assoc]
  exact (List.perm_append_comm.trans (List.Perm.of_eq (List.append_assoc _ _ _))).append_left _

/-- A step of a job leaves everything of the group but its exceptions. -/
theorem set (h : Sound group) {job : ℕ} {before : JobState} (hjob : group.jobs[job]? = some before)
    (hbefore : before ≠ .finished) (after : JobState) :
    Sound { group with jobs := group.jobs.set job after } where
  places := by simpa [batch] using h.places
  joined := by
    intro other hother
    refine finished_iff.mpr (finished_set (h.joined other hother) ?_)
    rw [hjob]
    simpa using hbefore
  closed := fun hdrained ↦ absurd hdrained (h.not_drained hjob hbefore)
  fresh := h.fresh
  spent := h.spent

theorem fail (h : Sound group) (hnot : ¬group.Drained) (error : ε) :
    Sound { group with error := group.error <|> some error, failures := group.failures ++ [error] } where
  places := h.places
  joined := h.joined
  closed := fun hdrained ↦ absurd hdrained hnot
  fresh := by
    intro hreturned
    rw [h.fresh hreturned]
    cases group.failures <;> simp
  spent := by
    intro result rest hreturned
    change group.returned = result :: rest at hreturned
    exact absurd (Or.inr (by simp [hreturned])) hnot

theorem swap (h : Sound group) (hdrain : group.drain = some (.joining [])) :
    Sound { group with
      accepting := false
      threads := []
      drain := some (if group.threads = [] then .leaving else .joining group.threads) } where
  places := by
    refine List.Perm.trans (List.Perm.of_eq ?_) h.places
    by_cases hthreads : group.threads = []
    · simp [batch, hdrain, hthreads]
    · simp [batch, hdrain, hthreads]
  joined := h.joined
  closed := by
    intro hdrained
    refine ⟨rfl, rfl, ?_⟩
    by_cases hthreads : group.threads = []
    · simp [batch, hthreads]
    · have hreturned : group.returned ≠ [] := by simpa [Drained, hthreads] using hdrained
      exact absurd (h.closed (Or.inr hreturned)).2.1 hthreads
  fresh := h.fresh
  spent := h.spent

theorem join (h : Sound group) {job : ℕ} {rest : List ℕ}
    (hdrain : group.drain = some (.joining (job :: rest))) (hjob : group.finished job = true) :
    Sound { group with drain := some (.joining rest), joined := group.joined ++ [job] } where
  places := by
    refine List.Perm.trans ?_ h.places
    simp only [batch, hdrain, List.append_assoc]
    refine List.Perm.append_left group.threads ?_
    exact (List.Perm.of_eq (List.append_assoc _ _ _).symm).trans
      (List.perm_append_singleton job (rest ++ group.joined))
  joined := by
    intro other hother
    rcases List.mem_append.mp hother with hbefore | hnow
    · exact h.joined other hbefore
    · rw [List.mem_singleton.mp hnow]
      exact hjob
  closed := by
    intro hdrained
    have hreturned : group.returned ≠ [] := by simpa [Drained] using hdrained
    have hbatch := (h.closed (Or.inr hreturned)).2.2
    simp [batch, hdrain] at hbatch
  fresh := h.fresh
  spent := h.spent

theorem endDrain (h : Sound group) (hdrain : group.drain = some .leaving) :
    Sound { group with error := none, drain := none, returned := group.returned ++ [group.error] } where
  places := by simpa [batch, hdrain] using h.places
  joined := h.joined
  closed := fun _ ↦ ⟨(h.closed (Or.inl hdrain)).1, (h.closed (Or.inl hdrain)).2.1, rfl⟩
  fresh := by simp
  spent := by
    intro result rest hreturned
    cases hbefore : group.returned with
    | nil =>
        simp only [hbefore, List.nil_append, List.cons.injEq, List.nil_eq] at hreturned
        obtain ⟨rfl, rfl⟩ := hreturned
        exact ⟨h.fresh hbefore, by simp, rfl⟩
    | cons first others =>
        obtain ⟨hfirst, hothers, herror⟩ := h.spent first others hbefore
        simp only [hbefore, List.cons_append, List.cons.injEq] at hreturned
        obtain ⟨rfl, rfl⟩ := hreturned
        refine ⟨hfirst, fun later hlater ↦ ?_, rfl⟩
        rcases List.mem_append.mp hlater with hold | hnew
        · exact hothers later hold
        · exact (List.mem_singleton.mp hnew).trans herror

theorem step (h : Sound group) {next : OwnedBackgroundWork ε} (hstep : Step group next) : Sound next := by
  cases hstep with
  | run caller => exact h.run caller
  | reapCompleted => exact h.reapLocked
  | fail hjob error =>
      have hnot := h.not_drained hjob (by decide)
      exact (h.fail hnot error).set hjob (by decide) .leaving
  | succeed hjob => exact h.set hjob (by decide) .leaving
  | finish hjob => exact h.set hjob (by decide) .finished
  | closeAndDrain hdrain =>
      exact ⟨by simpa [batch, hdrain] using h.places, h.joined,
        fun hdrained ↦ by simpa [batch, hdrain] using h.closed (by simpa [Drained, hdrain] using hdrained),
        h.fresh, h.spent⟩
  | swap hdrain => exact h.swap hdrain
  | join hdrain hjob => exact h.join hdrain hjob
  | endDrain hdrain => exact h.endDrain hdrain

end Sound

theorem Reachable.sound (h : Reachable group) : Sound group := by
  induction h with
  | refl => exact Sound.initial
  | tail _ hstep ih => exact ih.step hstep

/-! ## After a drain -/

theorem Sound.run_of_drained (h : Sound group) (hdrained : group.Drained) (caller : Option ℕ) :
    group.run caller = group := by
  refine if_pos ⟨(h.closed hdrained).1, ?_⟩
  cases caller with
  | none => rfl
  | some job => exact decide_eq_false fun hjob ↦ h.not_drained hjob (by decide) hdrained

theorem Sound.step_of_drained (h : Sound group) (hdrained : group.Drained) {next : OwnedBackgroundWork ε}
    (hstep : Step group next) :
    next.Drained ∧ next.jobs = group.jobs ∧ next.failures = group.failures := by
  cases hstep with
  | run caller => simpa [h.run_of_drained hdrained caller] using hdrained
  | reapCompleted => exact ⟨hdrained, rfl, rfl⟩
  | fail hjob => exact absurd hdrained (h.not_drained hjob (by decide))
  | succeed hjob => exact absurd hdrained (h.not_drained hjob (by decide))
  | finish hjob => exact absurd hdrained (h.not_drained hjob (by decide))
  | closeAndDrain hdrain => exact ⟨Or.inr (by simpa [Drained, hdrain] using hdrained), rfl, rfl⟩
  | swap hdrain => exact ⟨Or.inr (by simpa [Drained, hdrain] using hdrained), rfl, rfl⟩
  | join hdrain => exact ⟨Or.inr (by simpa [Drained, hdrain] using hdrained), rfl, rfl⟩
  | endDrain => exact ⟨Or.inr (by simp), rfl, rfl⟩

theorem Sound.run_after_drain (h : Sound group) (hdrained : group.Drained) {last : OwnedBackgroundWork ε}
    (hrun : Relation.ReflTransGen Step group last) :
    last.jobs = group.jobs ∧ last.failures = group.failures := by
  suffices hlast : Sound last ∧ last.Drained ∧ last.jobs = group.jobs ∧ last.failures = group.failures from
    hlast.2.2
  induction hrun with
  | refl => exact ⟨h, hdrained, rfl, rfl⟩
  | tail _ hstep ih =>
      obtain ⟨hsound, hdrained', hjobs, hfailures⟩ := ih
      obtain ⟨hnext, hjobs', hfailures'⟩ := hsound.step_of_drained hdrained' hstep
      exact ⟨hsound.step hstep, hnext, hjobs'.trans hjobs, hfailures'.trans hfailures⟩

/-! ## A drain can return -/

/-- All jobs before one can end on their own. -/
theorem exists_finished (group : OwnedBackgroundWork ε) {bound : ℕ} (hbound : bound ≤ group.jobs.length) :
    ∃ jobs : List JobState, jobs.length = group.jobs.length ∧
      (∀ job < bound, jobs[job]? = some .finished) ∧
      Relation.ReflTransGen Step group { group with jobs := jobs } := by
  induction bound with
  | zero => exact ⟨group.jobs, rfl, by simp, .refl⟩
  | succ bound ih =>
      obtain ⟨jobs, hlength, hjobs, hrun⟩ := ih (by omega)
      obtain ⟨state, hstate⟩ : ∃ state, jobs[bound]? = some state := ⟨jobs[bound], by simp⟩
      have hlast : ∀ state', (jobs.set bound state')[bound]? = some state' := by
        intro state'
        exact List.getElem?_set_self (by omega)
      have hbefore : ∀ state', ∀ job < bound, (jobs.set bound state')[job]? = some .finished := by
        intro state' job hjob
        rw [List.getElem?_set_ne (by omega)]
        exact hjobs job hjob
      have hends : ∀ jobs' : List JobState, jobs'.length = group.jobs.length →
          (∀ job < bound, jobs'[job]? = some .finished) → jobs'[bound]? = some .finished →
          ∀ job < bound + 1, jobs'[job]? = some .finished := by
        intro jobs' _ hfirst hthis job hjob
        rcases Nat.lt_succ_iff_lt_or_eq.mp hjob with hlt | rfl
        · exact hfirst job hlt
        · exact hthis
      cases state with
      | finished => exact ⟨jobs, hlength, hends jobs hlength hjobs hstate, hrun⟩
      | leaving =>
          refine ⟨jobs.set bound .finished, by simpa, hends _ (by simpa) (hbefore _) (hlast _), ?_⟩
          exact hrun.tail (.finish hstate)
      | running =>
          refine ⟨(jobs.set bound .leaving).set bound .finished, by simpa, ?_, ?_⟩
          · rw [List.set_set]
            exact hends _ (by simpa) (hbefore _) (hlast _)
          · exact (hrun.tail (.succeed hstate)).tail (.finish (hlast .leaving))

/-- A drain joins what has finished. -/
theorem join_all (batch : List ℕ) (group : OwnedBackgroundWork ε)
    (hdrain : group.drain = some (.joining batch)) (hbatch : ∀ job ∈ batch, group.finished job = true) :
    Relation.ReflTransGen Step group
      { group with drain := some (.joining []), joined := group.joined ++ batch } := by
  induction batch generalizing group with
  | nil =>
      rw [List.append_nil, ← hdrain]
  | cons job rest ih =>
      obtain ⟨hjob, hrest⟩ := List.forall_mem_cons.mp hbatch
      refine Relation.ReflTransGen.head (.join hdrain hjob) ?_
      simpa using ih { group with drain := some (.joining rest), joined := group.joined ++ [job] } rfl hrest

/-- The drain returns without another job. -/
def CanReturn (group : OwnedBackgroundWork ε) : Prop :=
  ∃ last, Relation.ReflTransGen Step group last ∧ last.jobs.length = group.jobs.length ∧
    last.drain = none ∧ last.returned ≠ []

theorem CanReturn.after {next : OwnedBackgroundWork ε} (h : next.CanReturn)
    (hrun : Relation.ReflTransGen Step group next) (hjobs : next.jobs.length = group.jobs.length) :
    group.CanReturn := by
  obtain ⟨last, hlast, hlength, hdrain, hreturned⟩ := h
  exact ⟨last, hrun.trans hlast, hlength.trans hjobs, hdrain, hreturned⟩

theorem canReturn_of_leaving (hdrain : group.drain = some .leaving) : group.CanReturn :=
  ⟨_, .single (.endDrain hdrain), rfl, rfl, by simp⟩

theorem canReturn_of_empty (hdrain : group.drain = some (.joining [])) (hthreads : group.threads = []) :
    group.CanReturn := by
  refine CanReturn.after ?_ (.single (.swap hdrain)) rfl
  exact canReturn_of_leaving (by simp [hthreads])

theorem canReturn_of_finished (hdrain : group.drain = some (.joining []))
    (hthreads : ∀ job ∈ group.threads, group.finished job = true) : group.CanReturn := by
  by_cases hempty : group.threads = []
  · exact canReturn_of_empty hdrain hempty
  · refine CanReturn.after ?_ (.single (.swap hdrain)) rfl
    refine CanReturn.after ?_ (join_all group.threads _ (by simp [hempty]) hthreads) rfl
    exact canReturn_of_empty rfl rfl

theorem Sound.canReturn (h : Sound group) {state : DrainState} (hdrain : group.drain = some state) :
    group.CanReturn := by
  obtain ⟨jobs, hlength, hjobs, hrun⟩ := exists_finished group le_rfl
  have hall : ∀ job ∈ group.threads ++ group.batch, jobs[job]? = some .finished := by
    intro job hjob
    have hmem := h.places.mem_iff.mp (List.mem_append_left group.joined hjob)
    exact hjobs job (List.mem_range.mp hmem)
  refine CanReturn.after ?_ hrun hlength
  cases state with
  | leaving => exact canReturn_of_leaving hdrain
  | joining batch =>
      have hbatch : group.batch = batch := by simp [OwnedBackgroundWork.batch, hdrain]
      have hfinished : ∀ job ∈ group.threads ++ batch, { group with jobs := jobs }.finished job = true :=
        fun job hjob ↦ finished_iff.mpr (hall job (by rwa [hbatch]))
      refine CanReturn.after ?_ (join_all batch _ hdrain fun job hjob ↦
        hfinished job (List.mem_append_right _ hjob)) rfl
      exact canReturn_of_finished rfl fun job hjob ↦ hfinished job (List.mem_append_left _ hjob)

/-- In every order of steps every job has its thread in one place, is never lost, and is joined
once and after it has finished. When a drain has returned, all jobs are joined and none can
begin; the first drain ends with the first exception of a job, and no later drain ends with
any. No drain has to wait for anything but the jobs. -/
theorem Reachable.drains (h : Reachable group) :
    (group.threads ++ group.batch ++ group.joined).Perm (List.range group.jobs.length) ∧
    (∀ job ∈ group.joined, group.finished job = true) ∧
    (∀ result rest, group.returned = result :: rest →
      group.joined.Perm (List.range group.jobs.length) ∧
      result = group.failures.head? ∧ (∀ later ∈ rest, later = none) ∧
      ∀ last, Relation.ReflTransGen Step group last →
        last.jobs = group.jobs ∧ last.failures = group.failures) ∧
    ∀ state, group.drain = some state → group.CanReturn := by
  have hsound := h.sound
  refine ⟨hsound.places, hsound.joined, fun result rest hreturned ↦ ?_,
    fun state hdrain ↦ hsound.canReturn hdrain⟩
  have hdrained : group.Drained := Or.inr (by simp [hreturned])
  obtain ⟨-, hthreads, hbatch⟩ := hsound.closed hdrained
  obtain ⟨hresult, hrest, -⟩ := hsound.spent result rest hreturned
  refine ⟨by simpa [hthreads, hbatch] using hsound.places, hresult, hrest, fun last hrun ↦ ?_⟩
  exact hsound.run_after_drain hdrained hrun

/-- A job starts another one while the drain waits for it, and both fail. -/
def nested : OwnedBackgroundWork ℕ where
  accepting := false
  jobs := [.finished, .finished]
  joined := [0, 1]
  failures := [8, 9]
  returned := [some 8]

theorem reachable_nested : nested.Reachable := by
  have hrun : Reachable (({} : OwnedBackgroundWork ℕ).run none) := .single (.run _ none)
  have hrun := (hrun.tail (.closeAndDrain rfl)).tail (.swap rfl)
  have hrun := (hrun.tail (.run _ (some 0))).tail (@Step.fail _ _ 0 rfl 8)
  have hrun := (hrun.tail (@Step.finish _ _ 0 rfl)).tail (.join rfl rfl)
  have hrun := (hrun.tail (.swap rfl)).tail (@Step.fail _ _ 1 rfl 9)
  have hrun := (hrun.tail (@Step.finish _ _ 1 rfl)).tail (.join rfl rfl)
  exact (hrun.tail (.swap rfl)).tail (.endDrain rfl)

theorem drains_nested : nested.joined.Perm (List.range nested.jobs.length) ∧
    ∀ last, Relation.ReflTransGen Step nested last → last.jobs = [.finished, .finished] :=
  have hdrained := reachable_nested.drains.2.2.1 (some 8) [] rfl
  ⟨hdrained.1, fun last hrun ↦ (hdrained.2.2.2 last hrun).1⟩

end OwnedBackgroundWork

end WinBlaze
