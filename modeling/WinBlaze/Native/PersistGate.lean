import WinBlaze.Native.ConcurrentSessions

/-!
# The gate between scan sessions

When every session delivers the end of its scan with the gate in hand or with
nothing left to save, sessions that overlap save and open as if each had
returned before the next one started.
-/

namespace WinBlaze

open Storage BufferedIndexTransaction

/-! ## The loop on a changed storage directory -/

namespace ForwardState

variable (mode : ScanPersistenceMode) (s : ForwardState)
  (disk : StorageFiles BufferedIndexTransaction)

theorem publishModel_withStorage (event : ScanEvent) :
    (s.withStorage disk).publishModel mode event = (s.publishModel mode event).withStorage disk := by
  unfold publishModel
  by_cases hends : (!s.modelPublished && event.isTerminal) = true
  · have hends' : (!(s.withStorage disk).modelPublished && event.isTerminal) = true := hends
    rw [if_pos hends, if_pos hends']
    cases mode with
    | replaceSnapshot => rfl
    | incrementalRescan =>
        by_cases hclean : (s.flushed && !s.recordsDirty) = true
        · have hclean' : ((s.withStorage disk).flushed && !(s.withStorage disk).recordsDirty) =
            true := hclean
          simp only [if_pos hclean, if_pos hclean']
          rfl
        · have hclean' : ¬((s.withStorage disk).flushed && !(s.withStorage disk).recordsDirty) =
            true := hclean
          simp only [if_neg hclean, if_neg hclean']
  · have hends' : ¬(!(s.withStorage disk).modelPublished && event.isTerminal) = true := hends
    rw [if_neg hends, if_neg hends']

theorem storage_publishModel (event : ScanEvent) :
    (s.publishModel mode event).repository.storage = s.repository.storage := by
  have h := congrArg (fun t ↦ t.repository.storage)
    (publishModel_withStorage mode s s.repository.storage event)
  exact h

@[simp] theorem beforeFlush_withStorage (event : ScanEvent) :
    (s.withStorage disk).beforeFlush mode event = (s.beforeFlush mode event).withStorage disk := by
  have h := publishModel_withStorage mode
    { s with scanCompleted := s.scanCompleted || event = ScanEvent.completed } disk event
  unfold withStorage at h
  unfold beforeFlush withStorage
  simp only [h]

@[simp] theorem flushes_withStorage (event : ScanEvent) :
    (s.withStorage disk).flushes mode event = s.flushes mode event := by
  simp only [flushes, beforeFlush_withStorage]
  rfl

@[simp] theorem storage_beforeFlush (event : ScanEvent) :
    (s.beforeFlush mode event).repository.storage = s.repository.storage :=
  storage_publishModel mode _ event

@[simp] theorem savedState_withStorage :
    (s.withStorage disk).savedState mode = s.savedState mode := by
  cases mode <;> rfl

@[simp] theorem settle_withStorage (saved : Bool × StorageFiles BufferedIndexTransaction) :
    (s.withStorage disk).settle mode saved = s.settle mode saved := by
  cases mode <;> rfl

@[simp] theorem lastSave_withStorage : (s.withStorage disk).lastSave mode = s.lastSave mode := by
  simp only [lastSave, savedState_withStorage]
  rfl

theorem storage_applyScanTransaction :
    (s.applyScanTransaction mode).2.repository.storage =
      (persistSnapshotWith (s.savedState mode) (s.saveOutcomes.headD []) s.repository.storage).2 := by
  rw [applyScanTransaction_eq]
  cases mode <;> rfl

theorem settle_withStorage_self (saved : Bool × StorageFiles BufferedIndexTransaction) :
    (s.settle mode saved).withStorage saved.2 = s.settle mode saved := by
  cases mode <;> rfl

theorem openForwardState_withStorage (saveOutcomes : List (List Bool)) :
    (openForwardState mode disk saveOutcomes).withStorage disk =
      openForwardState mode disk saveOutcomes := by
  cases mode <;> rfl

variable {mode s}

theorem storage_finish_of_lastSave_eq_none (hlast : s.lastSave mode = none) :
    (s.finish mode).repository.storage = s.repository.storage := by
  cases hdeferred : s.deferredPersist with
  | some model => simp [lastSave, hdeferred] at hlast
  | none =>
      cases hpublished : s.modelPublished with
      | true => rw [finish_of_published hdeferred hpublished]
      | false =>
          have hclean : s.clean = true := by simpa [lastSave, hdeferred, hpublished] using hlast
          exact storage_finish_of_clean hdeferred hclean

theorem storage_finish_of_lastSave {new : BufferedIndexTransaction}
    (hlast : s.lastSave mode = some new) :
    (s.finish mode).repository.storage =
      (persistSnapshotWith new (s.saveOutcomes.headD []) s.repository.storage).2 := by
  cases hdeferred : s.deferredPersist with
  | some model =>
      obtain rfl : model = new := by simpa [lastSave, hdeferred] using hlast
      simp only [finish, hdeferred]
      rfl
  | none =>
      obtain ⟨⟨hpublished, hclean⟩, rfl⟩ :
          (s.modelPublished = false ∧ s.clean = false) ∧ s.savedState mode = new := by
        simpa [lastSave, hdeferred] using hlast
      have hunsaved : (!s.flushed || s.recordsDirty) = true := by
        cases hflushed : s.flushed <;> cases hdirty : s.recordsDirty <;> simp_all [clean]
      have happlied := storage_applyScanTransaction mode s
      cases mode <;> simpa [finish, hdeferred, hpublished, hunsaved] using happlied

theorem savesLater_withStorage (mode : ScanPersistenceMode) (s : ForwardState)
    (disk : StorageFiles BufferedIndexTransaction) (rest : List ScanEvent) :
    (s.withStorage disk).savesLater mode rest = s.savesLater mode rest := by
  induction rest generalizing s with
  | nil => simp only [savesLater, lastSave_withStorage]
  | cons event rest ih =>
      simp only [savesLater, flushes_withStorage, beforeFlush_withStorage, ih]

/-- A session with nothing left to save leaves the storage as it is. -/
theorem storage_run_of_not_savesLater {rest : List ScanEvent}
    (hquiet : s.savesLater mode rest = false) :
    (s.run mode rest).repository.storage = s.repository.storage := by
  induction rest generalizing s with
  | nil => exact storage_finish_of_lastSave_eq_none (by simpa [savesLater] using hquiet)
  | cons event rest ih =>
      obtain ⟨hflushes, hrest⟩ := Bool.or_eq_false_iff.mp hquiet
      rw [run_cons, forwardEvent_of_not_flushes hflushes, ih hrest, storage_beforeFlush]

end ForwardState

namespace Session

/-! ## One step of a session -/

variable {gateFree : Bool} {disk disk' : StorageFiles BufferedIndexTransaction} {x x' : Session}
  {use : GateUse}

/-- A step of a session does what is left of it up to then. -/
theorem complete_step (hstep : x.step gateFree disk = some (x', disk', use)) :
    x'.complete disk' = x.complete disk := by
  obtain ⟨script, phase, loop, guard, delivered, openedOn⟩ := x
  cases phase with
  | opening =>
      simp only [step] at hstep
      split at hstep <;> cases hstep
      rfl
  | loading =>
      cases hstep
      simp only [complete, ForwardState.openForwardState_withStorage]
      rfl
  | receiving rest =>
      cases rest with
      | nil =>
          cases hlast : loop.lastSave script.mode with
          | some new =>
              simp only [step, hlast] at hstep
              cases hstep
              have hfinish := ForwardState.storage_finish_of_lastSave
                ((ForwardState.lastSave_withStorage script.mode loop disk).trans hlast)
              exact hfinish.symm
          | none =>
              simp only [step, hlast] at hstep
              cases hstep
              have hfinish := ForwardState.storage_finish_of_lastSave_eq_none
                ((ForwardState.lastSave_withStorage script.mode loop disk).trans hlast)
              exact hfinish.symm
      | cons event rest =>
          cases hstep
          cases hdefers : defers ⟨script, .receiving (event :: rest), loop, guard, delivered,
            openedOn⟩ event <;> simp [complete]
  | gating event rest =>
      simp only [step] at hstep
      split at hstep <;> cases hstep
      rfl
  | delivering event rest =>
      cases hstep
      rfl
  | handling event rest =>
      have hrun : complete ⟨script, .handling event rest, loop, guard, delivered, openedOn⟩ disk =
          (((loop.withStorage disk).forwardEvent script.mode event).run script.mode
            rest).repository.storage := rfl
      by_cases hflushes : loop.flushes script.mode event = true
      · simp only [step, if_pos hflushes] at hstep
        cases hstep
        rw [hrun, ForwardState.forwardEvent_eq_settle
          ((ForwardState.flushes_withStorage script.mode loop disk event).trans hflushes)]
        simp only [ForwardState.beforeFlush_withStorage, ForwardState.settle_withStorage,
          ForwardState.savedState_withStorage]
        rfl
      · simp only [step, if_neg hflushes] at hstep
        cases hstep
        rw [hrun, ForwardState.forwardEvent_of_not_flushes
          ((ForwardState.flushes_withStorage script.mode loop disk event).trans
            (Bool.eq_false_of_not_eq_true hflushes)), ForwardState.beforeFlush_withStorage]
        rfl
  | saving purpose new point outcomes =>
      cases outcomes with
      | nil =>
          cases purpose with
          | flush rest =>
              cases hstep
              simp only [complete]
              rw [ForwardState.settle_withStorage_self script.mode loop (_, disk)]
              rfl
          | final =>
              cases hstep
              rfl
      | cons succeeds outcomes =>
          cases purpose <;> cases hstep <;> rfl
  | returned => cases hstep

/-- Before it reads the storage directory a session has no guard and has
delivered nothing. -/
def Fresh (x : Session) : Prop :=
  (x.openedOn = none ↔ x.phase = .opening ∨ x.phase = .loading) ∧
    (x.openedOn = none → x.persistGuard = false ∧ x.delivered = false)

/-- What the step of a session can do to itself, the storage directory and the
gate. -/
structure StepEffect (gateFree : Bool) (disk : StorageFiles BufferedIndexTransaction) (x x' : Session)
    (disk' : StorageFiles BufferedIndexTransaction) (use : GateUse) : Prop where
  script_eq : x'.script = x.script
  quiet : x.pending = false → x'.pending = false
  idle : x.isSaving = false → disk' = disk
  kept : use = .kept → x'.holdsGate = x.holdsGate
  taken : use = .taken → gateFree = true ∧ x'.holdsGate = true
  released : use = .released → x.holdsGate = true ∧ x'.holdsGate = false
  guarded : x.persistGuard = true → x'.persistGuard = true ∨ x'.pending = false
  delivers : x'.delivered = true → x.delivered = true ∨
    ∃ event rest, x.phase = .delivering event rest ∧ event.endState.isNone = false ∧
      x'.persistGuard = x.persistGuard ∧ x'.pending = x.pending
  delivered_of : x.delivered = true → x'.delivered = true
  opens : x'.openedOn = x.openedOn ∨
    x.phase = .loading ∧ x.openedOn = none ∧ x'.openedOn = some disk ∧ disk' = disk
  acquires : x.phase = .opening → use = .taken
  fresh : x'.Fresh

theorem step_effect (hfresh : x.Fresh) (hstep : x.step gateFree disk = some (x', disk', use)) :
    StepEffect gateFree disk x x' disk' use := by
  obtain ⟨script, phase, loop, guard, delivered, openedOn⟩ := x
  obtain ⟨hopened, hguard⟩ := hfresh
  cases phase with
  | opening =>
      simp only [step] at hstep
      split at hstep <;> cases hstep
      obtain rfl : openedOn = none := hopened.mpr (Or.inl rfl)
      constructor <;> simp_all [pending, isSaving, holdsGate, Fresh]
  | loading =>
      cases hstep
      obtain rfl : openedOn = none := hopened.mpr (Or.inr rfl)
      constructor <;> simp_all [pending, isSaving, holdsGate, Fresh]
  | receiving rest =>
      cases rest with
      | nil =>
          cases hlast : loop.lastSave script.mode with
          | some new =>
              simp only [step, hlast] at hstep
              cases hstep
              constructor <;> simp_all [startSave, pending, isSaving, holdsGate, Fresh,
                ForwardState.savesLater]
          | none =>
              simp only [step, hlast] at hstep
              cases hstep
              cases guard <;> constructor <;> simp_all [leave, pending, isSaving, holdsGate, Fresh]
      | cons event rest =>
          cases hstep
          cases hdefers : defers ⟨script, .receiving (event :: rest), loop, guard, delivered,
            openedOn⟩ event <;> constructor <;> simp_all [pending, isSaving, holdsGate, Fresh]
  | gating event rest =>
      simp only [step] at hstep
      split at hstep <;> cases hstep
      constructor <;> simp_all [pending, isSaving, holdsGate, Fresh]
  | delivering event rest =>
      cases hstep
      constructor <;> simp_all [pending, isSaving, holdsGate, Fresh]
  | handling event rest =>
      by_cases hflushes : loop.flushes script.mode event = true
      · simp only [step, if_pos hflushes] at hstep
        cases hstep
        constructor <;> simp_all [startSave, pending, isSaving, holdsGate, Fresh,
          ForwardState.savesLater]
      · simp only [step, if_neg hflushes] at hstep
        cases hstep
        constructor <;> simp_all [pending, isSaving, holdsGate, Fresh, ForwardState.savesLater]
  | saving purpose new point outcomes =>
      cases outcomes with
      | nil =>
          cases purpose with
          | flush rest =>
              cases hstep
              constructor <;> simp_all [pending, isSaving, holdsGate, Fresh]
          | final =>
              cases hstep
              cases guard <;> constructor <;> simp_all [leave, pending, isSaving, holdsGate, Fresh]
      | cons succeeds outcomes =>
          cases hstep
          constructor <;> simp_all [pending, isSaving, holdsGate, Fresh]
  | returned => cases hstep

theorem holdsGate_of_persistGuard (hguard : x.persistGuard = true) : x.holdsGate = true := by
  unfold holdsGate
  split
  · rfl
  · exact hguard

theorem isSaving_of_not_pending (hquiet : x.pending = false) : x.isSaving = false := by
  unfold pending at hquiet
  unfold isSaving
  split <;> simp_all

/-- A session with nothing left to save leaves the storage directory alone. -/
theorem complete_of_not_pending (hquiet : x.pending = false) : x.complete disk = disk := by
  obtain ⟨script, phase, loop, guard, delivered, openedOn⟩ := x
  have hrun {rest : List ScanEvent} (hrest : loop.savesLater script.mode rest = false) :
      ((loop.withStorage disk).run script.mode rest).repository.storage = disk :=
    ForwardState.storage_run_of_not_savesLater
      ((ForwardState.savesLater_withStorage script.mode loop disk rest).trans hrest)
  cases phase with
  | opening | loading | saving => cases hquiet
  | receiving rest => exact hrun hquiet
  | gating event rest | delivering event rest | handling event rest => exact hrun hquiet
  | returned => rfl

end Session

/-! ## The final state of a full scan -/

namespace ForwardState

variable {mode : ScanPersistenceMode}

@[simp] theorem indexModel_applyScanTransaction (mode : ScanPersistenceMode) (s : ForwardState) :
    (s.applyScanTransaction mode).2.indexModel = s.indexModel := by
  obtain ⟨_, _, _, heq⟩ := applyScanTransaction_frame mode s
  rw [heq]

theorem exists_endState {event : ScanEvent} (h : event.isTerminal = true) :
    ∃ state, event.endState = some state := by
  cases event <;> first | exact ⟨_, rfl⟩ | cases h

/-- What a full scan has published before it returns: nothing, or at its first end
the model with the record of that end, which is saved after the loop. -/
structure Published (events : List ScanEvent) (s : ForwardState) : Prop where
  before : events.find? ScanEvent.isTerminal = none →
    s.modelPublished = false ∧ s.deferredPersist = none
  behind : ∀ {ended state}, events.find? ScanEvent.isTerminal = some ended →
    ended.endState = some state → s.modelPublished = true ∧
      ∃ records : BufferedIndexTransaction, s.indexModel = s.deferredPersist ∧
        s.deferredPersist = some (records.upsertSession (endedSession state))

theorem Published.of_same {events : List ScanEvent} {s t : ForwardState} (h : Published events s)
    (hpublished : t.modelPublished = s.modelPublished) (hdeferred : t.deferredPersist = s.deferredPersist)
    (hmodel : t.indexModel = s.indexModel) : Published events t := by
  refine ⟨fun hnone ↦ ?_, fun hended hstate ↦ ?_⟩
  · rw [hpublished, hdeferred]
    exact h.before hnone
  · rw [hpublished, hdeferred, hmodel]
    exact h.behind hended hstate

theorem Published.beforeFlush {events : List ScanEvent} {s : ForwardState} (h : Published events s)
    (event : ScanEvent) : Published (events ++ [event]) (s.beforeFlush .replaceSnapshot event) := by
  cases hfind : events.find? ScanEvent.isTerminal with
  | some ended =>
      have happend : (events ++ [event]).find? ScanEvent.isTerminal = some ended := by
        rw [List.find?_append, hfind, Option.some_or]
      obtain ⟨state, hstate⟩ := exists_endState (List.find?_some hfind)
      have hpublished := (h.behind hfind hstate).1
      have hkept : (!s.modelPublished && event.isTerminal) = false := by simp [hpublished]
      have hsame : Published (events ++ [event]) s := by
        refine ⟨fun hnone ↦ ?_, fun hended hstate' ↦ ?_⟩
        · rw [happend] at hnone
          cases hnone
        · rw [happend] at hended
          exact h.behind (hfind.trans hended) hstate'
      apply hsame.of_same <;> simp [ForwardState.beforeFlush, publishModel, hkept]
  | none =>
      obtain ⟨hpublished, hdeferred⟩ := h.before hfind
      have happend : (events ++ [event]).find? ScanEvent.isTerminal =
          if event.isTerminal = true then some event else none := by
        rw [List.find?_append, hfind, Option.none_or]
        cases hterminal : event.isTerminal <;> simp [hterminal]
      by_cases hterminal : event.isTerminal = true
      · have hends : (!s.modelPublished && event.isTerminal) = true := by simp [hpublished, hterminal]
        rw [if_pos hterminal] at happend
        refine ⟨fun hnone ↦ ?_, fun {ended state} hended hstate ↦ ?_⟩
        · rw [happend] at hnone
          cases hnone
        · obtain rfl := Option.some.inj (happend.symm.trans hended)
          simp only [ForwardState.beforeFlush, publishModel, hends, if_true, true_and]
          refine ⟨s.transaction, ?_⟩
          cases event with
          | completed => simp [← Option.some.inj hstate]
          | cancelled => simp [← Option.some.inj hstate]
          | _ => cases hterminal
      · rw [if_neg hterminal] at happend
        refine ⟨fun _ ↦ ?_, fun hended ↦ ?_⟩
        · simp [ForwardState.beforeFlush, publishModel, hterminal, hpublished, hdeferred]
        · rw [happend] at hended
          cases hended

theorem published_foldl (storage : StorageFiles BufferedIndexTransaction)
    (saveOutcomes : List (List Bool)) (events : List ScanEvent) :
    Published events (events.foldl (forwardEvent .replaceSnapshot)
      (openForwardState .replaceSnapshot storage saveOutcomes)) := by
  induction events using List.reverseRecOn with
  | nil => exact ⟨fun _ ↦ ⟨rfl, rfl⟩, fun h ↦ (nomatch h)⟩
  | append_singleton front event ih =>
      rw [List.foldl_append, List.foldl_cons, List.foldl_nil, forwardEvent_eq]
      have hbefore := ih.beforeFlush event
      split
      case isTrue => apply hbefore.of_same <;> simp
      case isFalse => exact hbefore

end ForwardState

namespace Session

variable {x : Session} {opened : StorageFiles BufferedIndexTransaction}

/-- What such a session leaves on disk is its final state. -/
theorem openState_finalStorage (h : x.savesFinal opened = true) :
    openState (x.finalStorage opened) = x.finalState opened := by
  unfold savesFinal at h
  simp only [Bool.and_eq_true, decide_eq_true_eq, Option.any_eq_true] at h
  obtain ⟨⟨hmode, ended, hended, hlast⟩, hsaved⟩ := h
  unfold finalStorage finalState forwardEvents
  rw [hmode] at hsaved ⊢
  have hpublished := ForwardState.published_foldl opened x.script.saveOutcomes x.script.events
  obtain ⟨state, hstate⟩ := ForwardState.exists_endState (List.find?_some hended)
  obtain ⟨-, records, hmodel, hdeferred⟩ := hpublished.behind hended hstate
  rw [hdeferred, Option.all_some] at hsaved
  rw [← hlast, hstate]
  simp only [ForwardState.finish, hdeferred, hmodel, Option.getD_some, Option.elim_some]
  refine (openState_of_recovers (recovers_of_persisted hsaved)).trans ?_
  unfold upsertSession
  rw [KeyedArena.insert_insert_self]

end Session

namespace SessionsState

/-! ## Runs that deliver every end saved -/

structure GateInvariant (σ : SessionsState) : Prop where
  fresh : ∀ {i : ℕ} {x : Session}, σ.sessions[i]? = some x → x.Fresh
  gate : ∀ {i : ℕ} {x : Session}, σ.sessions[i]? = some x → x.holdsGate = true → σ.gate = some i
  guarded : ∀ {i : ℕ} {x : Session}, σ.sessions[i]? = some x → x.delivered = true →
    x.pending = true → x.persistGuard = true
  order : ∀ {i j : ℕ} {x y : Session}, i < j → σ.sessions[i]? = some x → σ.sessions[j]? = some y →
    x.delivered = true
  settled : ∀ {i j : ℕ} {x y : Session}, i < j → σ.sessions[i]? = some x →
    σ.sessions[j]? = some y → y.phase ≠ .opening → x.pending = false
  /-- What the last session that opened its repository leaves on disk. -/
  content : ∀ {i : ℕ} {x : Session} {opened}, σ.sessions[i]? = some x → x.openedOn = some opened →
    (∀ (j : ℕ) (y : Session), i < j → σ.sessions[j]? = some y → y.openedOn = none) →
      x.complete σ.disk = x.finalStorage opened
  linked : ∀ {i : ℕ} {x y : Session} {disk}, σ.sessions[i]? = some x →
    σ.sessions[i + 1]? = some y → y.openedOn = some disk →
      ∃ opened, x.openedOn = some opened ∧ disk = x.finalStorage opened
  rescans : ∀ {i : ℕ} {x y : Session} {disk}, σ.sessions[i]? = some x →
    σ.sessions[i + 1]? = some y → y.script.mode = .incrementalRescan → y.openedOn = some disk →
      ∃ opened, x.openedOn = some opened ∧ x.savesFinal opened = true

variable {σ σ' : SessionsState}

theorem GateInvariant.sound (h : σ.GateInvariant) : σ.Sound where
  exclusive i j x y hx hy hsaving hsaving' := by
    have hpending {z : Session} (hz : z.isSaving = true) : z.pending = true := by
      by_contra hquiet
      rw [Session.isSaving_of_not_pending (Bool.eq_false_of_not_eq_true hquiet)] at hz
      cases hz
    have hopened {z : Session} (hz : z.isSaving = true) : z.phase ≠ .opening := by
      intro hphase
      simp [Session.isSaving, hphase] at hz
    rcases lt_trichotomy i j with hlt | heq | hlt
    · have hquiet := h.settled hlt hx hy (hopened hsaving')
      rw [hpending hsaving] at hquiet
      cases hquiet
    · exact heq
    · have hquiet := h.settled hlt hy hx (hopened hsaving)
      rw [hpending hsaving'] at hquiet
      cases hquiet
  complete i x y disk hx hy hmode hopened := by
    obtain ⟨opened, hopened', rfl⟩ := h.linked hx hy hopened
    obtain ⟨found, hfound, hsaves⟩ := h.rescans hx hy hmode hopened
    obtain rfl : opened = found := Option.some.inj (hopened'.symm.trans hfound)
    exact ⟨opened, hopened', Session.openState_finalStorage hsaves⟩

theorem gateInvariant_initial (disk : StorageFiles BufferedIndexTransaction) :
    (initial disk).GateInvariant := by
  constructor <;> simp [initial]

/-- The sessions after a start: the old ones, and the new one behind them. -/
theorem getElem?_start {sessions : List Session} {script : SessionScript} {i : ℕ} {x : Session}
    (hx : (sessions ++ [Session.start script])[i]? = some x) :
    sessions[i]? = some x ∨ i = sessions.length ∧ x = Session.start script := by
  rcases Nat.lt_or_ge i sessions.length with hlt | hge
  · rw [List.getElem?_append_left hlt] at hx
    exact Or.inl hx
  · rw [List.getElem?_append_right hge, List.getElem?_singleton] at hx
    split at hx
    · cases hx
      exact Or.inr ⟨by omega, rfl⟩
    · cases hx

theorem GateInvariant.start (h : σ.GateInvariant) {script : SessionScript}
    (hact : σ.act (.start script) = some σ') : σ'.GateInvariant := by
  obtain ⟨hlast, rfl⟩ : σ.sessions.getLast?.all Session.delivered = true ∧
      { σ with sessions := σ.sessions ++ [Session.start script] } = σ' := by
    simp only [act] at hact
    split at hact
    · exact ⟨‹_›, Option.some.inj hact⟩
    · cases hact
  have hdelivered {i : ℕ} {x : Session} (hx : σ.sessions[i]? = some x) : x.delivered = true := by
    obtain ⟨hi, _⟩ := List.getElem?_eq_some_iff.mp hx
    rcases Nat.lt_or_ge (i + 1) σ.sessions.length with hlt | hge
    · exact h.order (Nat.lt_succ_self i) hx (List.getElem?_eq_getElem hlt)
    · have hi' : i = σ.sessions.length - 1 := by omega
      rw [hi', ← List.getLast?_eq_getElem?] at hx
      simpa [hx] using hlast
  -- what stands before a session that was there was there as well
  have hbefore {i j : ℕ} {x y : Session} (hij : i < j)
      (hx : (σ.sessions ++ [Session.start script])[i]? = some x) (hy : σ.sessions[j]? = some y) :
      σ.sessions[i]? = some x := by
    obtain ⟨hj, _⟩ := List.getElem?_eq_some_iff.mp hy
    rwa [List.getElem?_append_left (hij.trans hj)] at hx
  constructor
  case fresh =>
    intro i x hx
    rcases getElem?_start hx with hx | ⟨_, rfl⟩
    · exact h.fresh hx
    · exact ⟨by simp [Session.start], fun _ ↦ ⟨rfl, rfl⟩⟩
  case gate =>
    intro i x hx hholds
    rcases getElem?_start hx with hx | ⟨_, rfl⟩
    · exact h.gate hx hholds
    · cases hholds
  case guarded =>
    intro i x hx hdelivered hpending
    rcases getElem?_start hx with hx | ⟨_, rfl⟩
    · exact h.guarded hx hdelivered hpending
    · cases hdelivered
  case order =>
    intro i j x y hij hx hy
    rcases getElem?_start hx with hx | ⟨hi, rfl⟩
    · exact hdelivered hx
    · obtain ⟨hj, _⟩ := List.getElem?_eq_some_iff.mp hy
      simp only [List.length_append, List.length_singleton] at hj
      omega
  case settled =>
    intro i j x y hij hx hy hopened
    rcases getElem?_start hy with hy | ⟨_, rfl⟩
    · exact h.settled hij (hbefore hij hx hy) hy hopened
    · exact (hopened rfl).elim
  case content =>
    intro i x opened hx hopened hlater
    rcases getElem?_start hx with hx | ⟨_, rfl⟩
    · refine h.content hx hopened fun j y hij hy ↦ hlater j y hij ?_
      obtain ⟨hj, _⟩ := List.getElem?_eq_some_iff.mp hy
      exact (List.getElem?_append_left hj).trans hy
    · cases hopened
  case linked =>
    intro i x y disk hx hy hopened
    rcases getElem?_start hy with hy | ⟨_, rfl⟩
    · exact h.linked (hbefore (Nat.lt_succ_self i) hx hy) hy hopened
    · cases hopened
  case rescans =>
    intro i x y disk hx hy hmode hopened
    rcases getElem?_start hy with hy | ⟨_, rfl⟩
    · exact h.rescans (hbefore (Nat.lt_succ_self i) hx hy) hy hmode hopened
    · cases hopened

/-- The sessions after a step of session `i`. -/
theorem getElem?_step {sessions : List Session} {i j : ℕ} {x' y : Session}
    (hy : (sessions.set i x')[j]? = some y) : j = i ∧ y = x' ∨ j ≠ i ∧ sessions[j]? = some y := by
  rw [List.getElem?_set] at hy
  split at hy
  case isTrue heq =>
    split at hy
    · cases hy
      exact Or.inl ⟨heq.symm, rfl⟩
    · cases hy
  case isFalse hne => exact Or.inr ⟨fun heq ↦ hne heq.symm, hy⟩

/-- A session takes its first step when every session before it has nothing
left to save. -/
theorem GateInvariant.quiet_of_gate_free (h : σ.GateInvariant) (hfree : σ.gate.isNone = true)
    {i j : ℕ} {x y : Session} (hij : i < j) (hx : σ.sessions[i]? = some x)
    (hy : σ.sessions[j]? = some y) : x.pending = false := by
  by_contra hpending
  have hguard := h.guarded hx (h.order hij hx hy) (Bool.eq_true_of_not_eq_false hpending)
  have hgate := h.gate hx (Session.holdsGate_of_persistGuard hguard)
  rw [hgate] at hfree
  cases hfree

section Step

variable {i : ℕ} {x x' : Session} {disk : StorageFiles BufferedIndexTransaction} {use : GateUse}

theorem GateInvariant.gate_step (h : σ.GateInvariant) (hx : σ.sessions[i]? = some x)
    (heffect : Session.StepEffect σ.gate.isNone σ.disk x x' disk use) {j : ℕ} {y : Session}
    (hy : (σ.sessions.set i x')[j]? = some y) (hholds : y.holdsGate = true) :
    useGate σ.gate i use = some j := by
  rcases getElem?_step hy with ⟨rfl, rfl⟩ | ⟨hne, hy⟩
  · cases use with
    | kept => exact h.gate hx (heffect.kept rfl ▸ hholds)
    | taken => rfl
    | released =>
        rw [(heffect.released rfl).2] at hholds
        cases hholds
  · have hgate := h.gate hy hholds
    cases use with
    | kept => exact hgate
    | taken =>
        have hfree := (heffect.taken rfl).1
        rw [hgate] at hfree
        cases hfree
    | released =>
        have hgate' := h.gate hx (heffect.released rfl).1
        rw [hgate] at hgate'
        exact (hne (Option.some.inj hgate')).elim

theorem GateInvariant.guarded_step (h : σ.GateInvariant) (hx : σ.sessions[i]? = some x)
    (heffect : Session.StepEffect σ.gate.isNone σ.disk x x' disk use)
    (hsaved : σ.endsSaved (.step i) = true) (hdelivered : x'.delivered = true)
    (hpending : x'.pending = true) : x'.persistGuard = true := by
  have hpending' : x.pending = true := by
    by_contra hquiet
    rw [heffect.quiet (Bool.eq_false_of_not_eq_true hquiet)] at hpending
    cases hpending
  rcases heffect.delivers hdelivered with hdelivered | ⟨event, rest, hphase, hends, hguard, _⟩
  · rcases heffect.guarded (h.guarded hx hdelivered hpending') with hguard | hquiet
    · exact hguard
    · rw [hquiet] at hpending
      cases hpending
  · simp only [endsSaved, hx, hphase, hends, hpending'] at hsaved
    simpa [hguard] using hsaved

theorem GateInvariant.order_step (h : σ.GateInvariant) (hx : σ.sessions[i]? = some x)
    (heffect : Session.StepEffect σ.gate.isNone σ.disk x x' disk use) {j k : ℕ} {y z : Session}
    (hjk : j < k) (hy : (σ.sessions.set i x')[j]? = some y)
    (hz : (σ.sessions.set i x')[k]? = some z) : y.delivered = true := by
  obtain ⟨z', hz'⟩ : ∃ z', σ.sessions[k]? = some z' := by
    rcases getElem?_step hz with ⟨rfl, _⟩ | ⟨_, hz⟩
    · exact ⟨x, hx⟩
    · exact ⟨z, hz⟩
  rcases getElem?_step hy with ⟨rfl, rfl⟩ | ⟨_, hy⟩
  · exact heffect.delivered_of (h.order hjk hx hz')
  · exact h.order hjk hy hz'

theorem GateInvariant.settled_step (h : σ.GateInvariant) (hx : σ.sessions[i]? = some x)
    (heffect : Session.StepEffect σ.gate.isNone σ.disk x x' disk use) {j k : ℕ} {y z : Session}
    (hjk : j < k) (hy : (σ.sessions.set i x')[j]? = some y)
    (hz : (σ.sessions.set i x')[k]? = some z) (hopened : z.phase ≠ .opening) :
    y.pending = false := by
  rcases getElem?_step hz with ⟨rfl, rfl⟩ | ⟨_, hz'⟩
  · rcases getElem?_step hy with ⟨rfl, _⟩ | ⟨_, hy⟩
    · omega
    · by_cases hphase : x.phase = .opening
      · exact h.quiet_of_gate_free (heffect.taken (heffect.acquires hphase)).1 hjk hy hx
      · exact h.settled hjk hy hx hphase
  · rcases getElem?_step hy with ⟨rfl, rfl⟩ | ⟨_, hy⟩
    · exact heffect.quiet (h.settled hjk hx hz' hopened)
    · exact h.settled hjk hy hz' hopened

theorem GateInvariant.content_step (h : σ.GateInvariant) (hx : σ.sessions[i]? = some x)
    (hstep : x.step σ.gate.isNone σ.disk = some (x', disk, use)) {j : ℕ} {y : Session}
    {opened : StorageFiles BufferedIndexTransaction}
    (hy : (σ.sessions.set i x')[j]? = some y) (hopened : y.openedOn = some opened)
    (hlater : ∀ (k : ℕ) (z : Session), j < k → (σ.sessions.set i x')[k]? = some z →
      z.openedOn = none) : y.complete disk = y.finalStorage opened := by
  have heffect := Session.step_effect (h.fresh hx) hstep
  have hkept {k : ℕ} {z : Session} (hne : k ≠ i) (hz : σ.sessions[k]? = some z) :
      (σ.sessions.set i x')[k]? = some z := (List.getElem?_set_ne hne.symm).trans hz
  have hself : (σ.sessions.set i x')[i]? = some x' := by
    obtain ⟨hi, _⟩ := List.getElem?_eq_some_iff.mp hx
    exact List.getElem?_set_self hi
  rcases getElem?_step hy with ⟨rfl, rfl⟩ | ⟨hne, hy⟩
  · rw [Session.complete_step hstep]
    unfold Session.finalStorage
    rw [heffect.script_eq]
    rcases heffect.opens with hsame | ⟨hphase, _, hopens, _⟩
    · refine h.content hx (hsame ▸ hopened) fun k z hjk hz ↦ hlater k z hjk (hkept ?_ hz)
      omega
    · obtain rfl : σ.disk = opened := Option.some.inj (hopens.symm.trans hopened)
      simp only [Session.complete, hphase]
  · have hopenedOn (hlt : j < i) : x.openedOn = none := by
      have hnone := hlater i x' hlt hself
      rcases heffect.opens with hsame | ⟨_, hnone', _⟩
      · exact hsame ▸ hnone
      · exact hnone'
    have hidle : x.isSaving = false := by
      rcases Nat.lt_or_ge j i with hlt | hge
      · rcases (h.fresh hx).1.mp (hopenedOn hlt) with hphase | hphase <;>
          simp [Session.isSaving, hphase]
      · have hphase : y.phase ≠ .opening := by
          intro hphase
          rw [(h.fresh hy).1.mpr (Or.inl hphase)] at hopened
          cases hopened
        exact Session.isSaving_of_not_pending (h.settled (by omega) hx hy hphase)
    rw [heffect.idle hidle]
    refine h.content hy hopened fun k z hjk hz ↦ ?_
    by_cases hk : k = i
    · obtain rfl : x = z := Option.some.inj (hx.symm.trans (hk ▸ hz))
      exact hopenedOn (hk ▸ hjk)
    · exact hlater k z hjk (hkept hk hz)

theorem GateInvariant.linked_step (h : σ.GateInvariant) (hx : σ.sessions[i]? = some x)
    (heffect : Session.StepEffect σ.gate.isNone σ.disk x x' disk use) {j : ℕ} {y z : Session}
    {found : StorageFiles BufferedIndexTransaction} (hy : (σ.sessions.set i x')[j]? = some y)
    (hz : (σ.sessions.set i x')[j + 1]? = some z) (hopened : z.openedOn = some found) :
    ∃ opened, y.openedOn = some opened ∧ found = y.finalStorage opened := by
  rcases getElem?_step hz with ⟨rfl, rfl⟩ | ⟨_, hz'⟩
  · rcases getElem?_step hy with ⟨hj, _⟩ | ⟨_, hy⟩
    · omega
    · rcases heffect.opens with hsame | ⟨hphase, hnone, hopens, _⟩
      · exact h.linked hy hx (hsame ▸ hopened)
      · obtain rfl : σ.disk = found := Option.some.inj (hopens.symm.trans hopened)
        have hlater : ∀ (k : ℕ) (w : Session), j < k → σ.sessions[k]? = some w →
            w.openedOn = none := by
          intro k w hjk hw
          rcases Nat.lt_or_ge (j + 1) k with hlt | hge
          · have hdelivered := h.order hlt hx hw
            rw [((h.fresh hx).2 hnone).2] at hdelivered
            cases hdelivered
          · obtain rfl : k = j + 1 := by omega
            obtain rfl : x = w := Option.some.inj (hx.symm.trans hw)
            exact hnone
        have hquiet := h.settled (Nat.lt_succ_self j) hy hx (by simp [hphase])
        cases hyOpened : y.openedOn with
        | none =>
            have hdelivered := h.order (Nat.lt_succ_self j) hy hx
            rw [((h.fresh hy).2 hyOpened).2] at hdelivered
            cases hdelivered
        | some opened =>
            refine ⟨opened, rfl, ?_⟩
            rw [← h.content hy hyOpened hlater, Session.complete_of_not_pending hquiet]
  · rcases getElem?_step hy with ⟨rfl, rfl⟩ | ⟨_, hy⟩
    · obtain ⟨opened, hxOpened, hfound⟩ := h.linked hx hz' hopened
      unfold Session.finalStorage at hfound ⊢
      rw [heffect.script_eq]
      rcases heffect.opens with hsame | ⟨_, hnone, _, _⟩
      · exact ⟨opened, hsame.trans hxOpened, hfound⟩
      · rw [hnone] at hxOpened
        cases hxOpened
    · exact h.linked hy hz' hopened

theorem GateInvariant.rescans_step (h : σ.GateInvariant) (hx : σ.sessions[i]? = some x)
    (heffect : Session.StepEffect σ.gate.isNone σ.disk x x' disk use)
    (hsaved : σ.endsSaved (.step i) = true) {j : ℕ} {y z : Session}
    {found : StorageFiles BufferedIndexTransaction} (hy : (σ.sessions.set i x')[j]? = some y)
    (hz : (σ.sessions.set i x')[j + 1]? = some z) (hmode : z.script.mode = .incrementalRescan)
    (hopened : z.openedOn = some found) :
    ∃ opened, y.openedOn = some opened ∧ y.savesFinal opened = true := by
  rcases getElem?_step hz with ⟨rfl, rfl⟩ | ⟨_, hz'⟩
  · rcases getElem?_step hy with ⟨hj, _⟩ | ⟨_, hy⟩
    · omega
    · rw [heffect.script_eq] at hmode
      rcases heffect.opens with hsame | ⟨hphase, _, _, _⟩
      · exact h.rescans hy hx hmode (hsame ▸ hopened)
      · simpa [endsSaved, hx, hphase, hmode, followsFinal, hy, Option.any_eq_true] using hsaved
  · rcases getElem?_step hy with ⟨rfl, rfl⟩ | ⟨_, hy⟩
    · obtain ⟨opened, hxOpened, hsaves⟩ := h.rescans hx hz' hmode hopened
      rcases heffect.opens with hsame | ⟨_, hnone, _, _⟩
      · refine ⟨opened, hsame.trans hxOpened, ?_⟩
        unfold Session.savesFinal at hsaves ⊢
        rwa [heffect.script_eq]
      · rw [hnone] at hxOpened
        cases hxOpened
    · exact h.rescans hy hz' hmode hopened

end Step

theorem GateInvariant.step (h : σ.GateInvariant) {i : ℕ} (hsaved : σ.endsSaved (.step i) = true)
    (hact : σ.act (.step i) = some σ') : σ'.GateInvariant := by
  cases hx : σ.sessions[i]? with
  | none => simp [act, hx] at hact
  | some x =>
  cases hstep : x.step σ.gate.isNone σ.disk with
  | none => simp [act, hx, hstep] at hact
  | some result =>
  obtain ⟨x', disk, use⟩ := result
  obtain rfl : (⟨disk, useGate σ.gate i use, σ.sessions.set i x'⟩ : SessionsState) = σ' := by
    simpa [act, hx, hstep] using hact
  have heffect := Session.step_effect (h.fresh hx) hstep
  constructor
  case fresh =>
    intro j y hy
    rcases getElem?_step hy with ⟨rfl, rfl⟩ | ⟨_, hy⟩
    · exact heffect.fresh
    · exact h.fresh hy
  case gate => exact fun hy hholds ↦ h.gate_step hx heffect hy hholds
  case guarded =>
    intro j y hy hdelivered hpending
    rcases getElem?_step hy with ⟨rfl, rfl⟩ | ⟨_, hy⟩
    · exact h.guarded_step hx heffect hsaved hdelivered hpending
    · exact h.guarded hy hdelivered hpending
  case order => exact fun hjk hy hz ↦ h.order_step hx heffect hjk hy hz
  case settled => exact fun hjk hy hz hopened ↦ h.settled_step hx heffect hjk hy hz hopened
  case content => exact fun hy hopened hlater ↦ h.content_step hx hstep hy hopened hlater
  case linked => exact fun hy hz hopened ↦ h.linked_step hx heffect hy hz hopened
  case rescans =>
    exact fun hy hz hmode hopened ↦ h.rescans_step hx heffect hsaved hy hz hmode hopened

theorem GateInvariant.run (h : σ.GateInvariant) {actions : List SessionAction}
    (hrun : σ.runSaved actions = some σ') : σ'.GateInvariant := by
  induction actions generalizing σ with
  | nil =>
      cases hrun
      exact h
  | cons action rest ih =>
      simp only [runSaved] at hrun
      split at hrun
      case isFalse => cases hrun
      case isTrue hsaved =>
        obtain ⟨middle, hact, hrest⟩ := Option.bind_eq_some_iff.mp hrun
        refine ih ?_ hrest
        cases action with
        | start script => exact h.start hact
        | step i => exact h.step hsaved hact

/-- In a run in which every session delivers the end of its scan with the gate
in hand or with nothing left to save, and every rescan follows a session that saves
its final state, no two sessions ever save at the same time and every rescan opens
the final state of the session before it. -/
theorem sound_of_runSaved (disk : StorageFiles BufferedIndexTransaction)
    (actions : List SessionAction) (hrun : (initial disk).runSaved actions = some σ) : σ.Sound :=
  ((gateInvariant_initial disk).run hrun).sound

def emptyDisk : StorageFiles BufferedIndexTransaction := ⟨none, none, none⟩

/-- A rescan starts between the end of a full scan and its deferred save. -/
def rescanAfterScan : List SessionAction :=
  [.start ⟨.replaceSnapshot, [.completed], []⟩] ++ List.replicate 5 (.step 0) ++
    [.start ⟨.incrementalRescan, [.cancelled], []⟩] ++ List.replicate 14 (.step 0) ++
      List.replicate 2 (.step 1)

theorem sound_of_runSaved_rescanAfterScan :
    ∃ σ, (initial emptyDisk).runSaved rescanAfterScan = some σ ∧ σ.Sound ∧ σ.sessions.length = 2 :=
  ⟨_, rfl, sound_of_runSaved emptyDisk rescanAfterScan rfl, rfl⟩

/-- A rescan starts between the end of a failed scan and its save. -/
def rescanAfterFailure : List SessionAction :=
  [.start ⟨.replaceSnapshot, [.failed "the volume was removed"], []⟩] ++
    List.replicate 4 (.step 0) ++
      [.start ⟨.incrementalRescan, [.summary ⟨0, 0, 0, 0⟩, .completed], []⟩] ++
        List.replicate 5 (.step 1) ++ [.step 0]

/-- A rescan that has come to its end, and the next one. -/
def rescanAfterRescan : List SessionAction :=
  [.start ⟨.incrementalRescan, shortRescan, []⟩] ++ List.replicate 27 (.step 0) ++
    [.start ⟨.incrementalRescan, [.cancelled], []⟩] ++ List.replicate 2 (.step 1)

/-- The rescan opens the storage without the failed scan, and both save at once.
A rescan that follows a rescan opens one that is still scanning. -/
theorem rescanAfterFailure_overlaps :
    (∃ σ x y, (initial emptyDisk).run rescanAfterFailure = some σ ∧ σ.sessions = [x, y] ∧
      x.isSaving = true ∧ y.isSaving = true ∧ y.openedOn = some emptyDisk ∧
        (openState emptyDisk).sessionState = none ∧
          (x.finalState emptyDisk).sessionState = some .failed) ∧
    ∃ σ x y found, (initial emptyDisk).run rescanAfterRescan = some σ ∧ σ.sessions = [x, y] ∧
      x.phase = .returned ∧ y.openedOn = some found ∧
        (openState found).sessionState = some .scanning ∧
          (x.finalState emptyDisk).sessionState = some .completed :=
  ⟨⟨_, _, _, rfl, rfl, rfl, rfl, rfl, rfl, rfl⟩, _, _, _, _, rfl, rfl, rfl, rfl, rfl, rfl⟩

end SessionsState

end WinBlaze
