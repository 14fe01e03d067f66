import WinBlaze.Index.Merge
import WinBlaze.Native.Bridge

/-!
# The session record a scan leaves on disk

A scan writes its session record as `Scanning` when it starts and with its
final state when it ends. Whether the final state reaches the disk depends on
the save that comes last: a rescan saves at its summary and again at the end
only if records arrived in between, and a failed full scan is saved only if
records arrived after the last volume.
-/

namespace WinBlaze

open Storage BufferedIndexTransaction

/-! ## The session record -/

/-- The state a terminal event gives the session. -/
def ScanEvent.endState : ScanEvent → Option ScanState
  | .completed => some .completed
  | .cancelled => some .cancelled
  | .failed _ => some .failed
  | _ => none

/-- The state an event gives the session, if it touches the session record. -/
def ScanEvent.sessionState : ScanEvent → Option ScanState
  | .sessionStarted _ | .volumeDiscovered _ => some .scanning
  | event => event.endState

theorem ScanEvent.sessionState_of_endState {event : ScanEvent} {state : ScanState}
    (h : event.endState = some state) : event.sessionState = some state := by
  cases event <;> first | exact h | cases h

namespace BufferedIndexTransaction

/-- The state in the record of the session, which always has id 1. -/
def sessionState (tx : BufferedIndexTransaction) : Option ScanState :=
  (tx.sessions.get? 1).map ScanSession.state

end BufferedIndexTransaction

theorem sessionState_upsertSession (tx : BufferedIndexTransaction) {session : ScanSession}
    (hid : session.sessionId = 1) : (tx.upsertSession session).sessionState = some session.state := by
  rw [BufferedIndexTransaction.sessionState, upsertSession, ← hid, KeyedArena.get?_insert_self]
  rfl

theorem sessionState_persistScanEvent (tx : BufferedIndexTransaction) (event : ScanEvent) :
    (persistScanEvent tx event).2.sessionState = event.sessionState.or tx.sessionState := by
  cases event with
  | sessionStarted volume | volumeDiscovered volume =>
      exact @sessionState_upsertSession tx ⟨1, volume.id, volume.mountPoint, .scanning, _⟩ rfl
  | completed => exact @sessionState_upsertSession tx (endedSession .completed) rfl
  | cancelled => exact @sessionState_upsertSession tx (endedSession .cancelled) rfl
  | failed => exact @sessionState_upsertSession tx (endedSession .failed) rfl
  | directoryFound | fileFound | progress | issue | summary => rfl

/-- The state a sequence of events leaves in the session record. -/
def lastSessionState (events : List ScanEvent) : Option ScanState :=
  events.reverse.findSome? ScanEvent.sessionState

theorem lastSessionState_concat (events : List ScanEvent) (event : ScanEvent) :
    lastSessionState (events ++ [event]) = event.sessionState.or (lastSessionState events) := by
  cases hevent : event.sessionState <;> simp [lastSessionState, hevent]

theorem sessionState_foldScanEvents (tx : BufferedIndexTransaction) (events : List ScanEvent) :
    (foldScanEvents tx events).sessionState = (lastSessionState events).or tx.sessionState := by
  induction events using List.reverseRecOn with
  | nil => rfl
  | append_singleton events event ih =>
      rw [foldScanEvents_append]
      change (persistScanEvent (foldScanEvents tx events) event).2.sessionState = _
      rw [sessionState_persistScanEvent, ih, lastSessionState_concat, Option.or_assoc]

/-- The snapshot on disk holds `state` in its session record, or no such record. -/
def OnDisk (storage : StorageFiles BufferedIndexTransaction) (state : Option ScanState) : Prop :=
  ∃ saved, Recovers storage saved ∧ saved.sessionState = state

theorem OnDisk.unique {storage : StorageFiles BufferedIndexTransaction} {a b : Option ScanState}
    (ha : OnDisk storage a) (hb : OnDisk storage b) : a = b := by
  obtain ⟨saved, hsaved, rfl⟩ := ha
  obtain ⟨saved', hsaved', rfl⟩ := hb
  rw [recovers_unique hsaved hsaved']

/-! ## The saves of a run -/

namespace ForwardState

variable (mode : ScanPersistenceMode)

/-- The loop body up to the decision whether to save. -/
def beforeFlush (s : ForwardState) (event : ScanEvent) : ForwardState :=
  let s := { s with scanCompleted := s.scanCompleted || event = ScanEvent.completed }
  let s := s.publishModel mode event
  let persisted := persistScanEvent s.transaction event
  { s with
    transaction := persisted.2
    recordsDirty := s.recordsDirty || persisted.1 }

/-- The loop body saves at this event. -/
def flushes (s : ForwardState) (event : ScanEvent) : Bool :=
  let s := s.beforeFlush mode event
  shouldFlushIndex mode event && (s.recordsDirty || !s.flushed) && !s.modelPublished

theorem forwardEvent_eq (s : ForwardState) (event : ScanEvent) :
    s.forwardEvent mode event =
      if s.flushes mode event then
        let applied := (s.beforeFlush mode event).applyScanTransaction mode
        { applied.2 with
          flushed := applied.1
          recordsDirty := if applied.1 then false else (s.beforeFlush mode event).recordsDirty }
      else s.beforeFlush mode event := rfl

/-- The save after the loop, if there is one, returns `Ok`. -/
def FinishSaved (s : ForwardState) : Prop :=
  match s.deferredPersist with
  | some model => (s.repository.persistTransaction (s.saveOutcomes.headD []) model).1 = true
  | none =>
      s.modelPublished = false → (!s.flushed || s.recordsDirty) = true →
        (s.applyScanTransaction mode).1 = true

/-- Every save of the rest of the session returns `Ok`. -/
def WritesSucceed : ForwardState → List ScanEvent → Prop
  | s, [] => s.FinishSaved mode
  | s, event :: rest =>
      (s.flushes mode event = true → ((s.beforeFlush mode event).applyScanTransaction mode).1 = true) ∧
        WritesSucceed (s.forwardEvent mode event) rest

end ForwardState

/-- The event carries a record of the catalog. -/
def ScanEvent.isCatalog : ScanEvent → Bool
  | .sessionStarted _ | .volumeDiscovered _ | .directoryFound _ | .fileFound _ => true
  | _ => false

theorem persistScanEvent_dirty (tx : BufferedIndexTransaction) (event : ScanEvent) :
    (persistScanEvent tx event).1 = event.isCatalog := by
  cases event <;> rfl

namespace ForwardState

/-- Whatever the transaction holds has been saved. -/
def clean (s : ForwardState) : Bool := s.flushed && !s.recordsDirty

theorem onDisk_applyScanTransaction (mode : ScanPersistenceMode) (s : ForwardState)
    (hok : (s.applyScanTransaction mode).1 = true) :
    OnDisk (s.applyScanTransaction mode).2.repository.storage s.transaction.sessionState := by
  cases mode with
  | replaceSnapshot => exact ⟨s.transaction, recovers_of_persisted hok, rfl⟩
  | incrementalRescan =>
      let remapped := s.repository.state.remapByPath s.transaction
      let merged := (s.repository.state.mergeIncremental remapped).2
      cases hsaved : (persistSnapshotWith merged (s.saveOutcomes.headD [])
          s.repository.storage).1 with
      | false =>
          change (if (persistSnapshotWith merged (s.saveOutcomes.headD [])
            s.repository.storage).1 = true then some _ else none).isSome = true at hok
          rw [hsaved] at hok
          cases hok
      | true =>
          refine ⟨merged, recovers_of_persisted hsaved, ?_⟩
          have hsessions : merged.sessions = s.transaction.sessions :=
            sessions_mergeIncremental s.repository.state remapped
          unfold BufferedIndexTransaction.sessionState
          rw [hsessions]

/-- A save touches the repository, the reported changes and the outcomes. -/
theorem applyScanTransaction_frame (mode : ScanPersistenceMode) (s : ForwardState) :
    ∃ repository changeSets saveOutcomes, (s.applyScanTransaction mode).2 = { s with
      repository := repository
      changeSets := changeSets
      saveOutcomes := saveOutcomes } := by
  cases mode <;> exact ⟨_, _, _, rfl⟩

@[simp] theorem transaction_applyScanTransaction (mode : ScanPersistenceMode) (s : ForwardState) :
    (s.applyScanTransaction mode).2.transaction = s.transaction := by
  obtain ⟨_, _, _, heq⟩ := applyScanTransaction_frame mode s
  rw [heq]

@[simp] theorem modelPublished_applyScanTransaction (mode : ScanPersistenceMode)
    (s : ForwardState) : (s.applyScanTransaction mode).2.modelPublished = s.modelPublished := by
  obtain ⟨_, _, _, heq⟩ := applyScanTransaction_frame mode s
  rw [heq]

@[simp] theorem deferredPersist_applyScanTransaction (mode : ScanPersistenceMode)
    (s : ForwardState) : (s.applyScanTransaction mode).2.deferredPersist = s.deferredPersist := by
  obtain ⟨_, _, _, heq⟩ := applyScanTransaction_frame mode s
  rw [heq]

/-! ## What one event does -/

/-- The state of the loop as far as the session record on disk depends on it. -/
structure Status (s : ForwardState) (clean published : Bool)
    (deferred : Option BufferedIndexTransaction) (transaction : BufferedIndexTransaction) : Prop where
  clean : s.clean = clean
  published : s.modelPublished = published
  deferred : s.deferredPersist = deferred
  transaction : s.transaction = transaction

/-- An event that saves. -/
theorem forwardEvent_of_flushes {mode : ScanPersistenceMode} {s : ForwardState} {event : ScanEvent}
    (hflushes : s.flushes mode event = true)
    (hsaved : ((s.beforeFlush mode event).applyScanTransaction mode).1 = true) :
    (s.forwardEvent mode event).Status true (s.beforeFlush mode event).modelPublished
        (s.beforeFlush mode event).deferredPersist (s.beforeFlush mode event).transaction ∧
      OnDisk (s.forwardEvent mode event).repository.storage
        (s.beforeFlush mode event).transaction.sessionState := by
  rw [forwardEvent_eq, if_pos hflushes]
  refine ⟨⟨?_, ?_, ?_, ?_⟩, onDisk_applyScanTransaction mode _ hsaved⟩ <;> simp [ForwardState.clean, hsaved]

/-- An event that saves nothing. -/
theorem forwardEvent_of_not_flushes {mode : ScanPersistenceMode} {s : ForwardState}
    {event : ScanEvent} (hflushes : s.flushes mode event = false) :
    s.forwardEvent mode event = s.beforeFlush mode event := by
  rw [forwardEvent_eq, hflushes]
  rfl

/-- What is left of the session. -/
def run (mode : ScanPersistenceMode) (s : ForwardState) (rest : List ScanEvent) : ForwardState :=
  (rest.foldl (forwardEvent mode) s).finish mode

theorem run_cons (mode : ScanPersistenceMode) (s : ForwardState) (event : ScanEvent)
    (rest : List ScanEvent) : s.run mode (event :: rest) = (s.forwardEvent mode event).run mode rest :=
  rfl

theorem finish_of_published {mode : ScanPersistenceMode} {s : ForwardState}
    (hdeferred : s.deferredPersist = none) (hpublished : s.modelPublished = true) :
    s.finish mode = s := by
  simp [finish, hdeferred, hpublished]

theorem storage_finish_of_clean {mode : ScanPersistenceMode} {s : ForwardState}
    (hdeferred : s.deferredPersist = none) (hclean : s.clean = true) :
    (s.finish mode).repository.storage = s.repository.storage := by
  obtain ⟨hflushed, hdirty⟩ : s.flushed = true ∧ s.recordsDirty = false := by
    simpa [clean] using hclean
  cases mode <;> cases hpublished : s.modelPublished <;>
    simp [finish, hdeferred, hpublished, hflushed, hdirty]

theorem onDisk_finish_of_not_clean {mode : ScanPersistenceMode} {s : ForwardState}
    (hdeferred : s.deferredPersist = none) (hpublished : s.modelPublished = false)
    (hclean : s.clean = false) (hsaved : s.FinishSaved mode) :
    OnDisk (s.finish mode).repository.storage s.transaction.sessionState := by
  have hunsaved : (!s.flushed || s.recordsDirty) = true := by
    cases hflushed : s.flushed <;> cases hdirty : s.recordsDirty <;>
      simp_all [clean]
  have hok : (s.applyScanTransaction mode).1 = true := by
    unfold FinishSaved at hsaved
    rw [hdeferred] at hsaved
    exact hsaved hpublished hunsaved
  have hdisk := onDisk_applyScanTransaction mode s hok
  cases mode <;> simpa [finish, hdeferred, hpublished, hunsaved] using hdisk

end ForwardState

/-! ## Rescans -/

/-- No record arrives before the scan ends. -/
def closes : List ScanEvent → Bool
  | [] => true
  | event :: rest => event.isTerminal || (!event.isCatalog && closes rest)

/-- The events before the first summary after which no record arrives before
the scan ends, if there is such a summary. -/
def savedPart : List ScanEvent → Option (List ScanEvent)
  | [] => none
  | event :: rest =>
      if event.isSummary && closes rest then some []
      else (savedPart rest).map (event :: ·)

namespace ForwardState

/-- A rescan publishes its read model at the end of the scan if everything is
saved by then. -/
theorem publishModel_rescan (s : ForwardState) (event : ScanEvent) :
    ∃ repository indexModel, repository.storage = s.repository.storage ∧
      s.publishModel .incrementalRescan event = { s with
        repository := repository
        indexModel := indexModel
        modelPublished := s.modelPublished || (event.isTerminal && s.clean) } := by
  have hunchanged (hends : (s.modelPublished || (event.isTerminal && s.clean)) = s.modelPublished)
      (heq : s.publishModel .incrementalRescan event = s) :
      ∃ repository indexModel, repository.storage = s.repository.storage ∧
        s.publishModel .incrementalRescan event = { s with
          repository := repository
          indexModel := indexModel
          modelPublished := s.modelPublished || (event.isTerminal && s.clean) } :=
    ⟨s.repository, s.indexModel, rfl, by rw [hends, heq]⟩
  by_cases hends : (!s.modelPublished && event.isTerminal) = true
  · by_cases hclean : (s.flushed && !s.recordsDirty) = true
    · refine ⟨{ s.repository with state := {} }, some s.repository.state, rfl, ?_⟩
      rw [publishModel, if_pos hends]
      simp only [hclean, if_true]
      simp_all [clean]
    · refine hunchanged ?_ ?_
      · simp [clean, hclean]
      · rw [publishModel, if_pos hends]
        simp only [hclean, if_false, Bool.false_eq_true]
  · refine hunchanged ?_ ?_
    · cases hpublished : s.modelPublished <;> simp_all
    · rw [publishModel, if_neg hends]

theorem beforeFlush_rescan (s : ForwardState) (event : ScanEvent) :
    (s.beforeFlush .incrementalRescan event).Status (s.clean && !event.isCatalog)
        (s.modelPublished || (event.isTerminal && s.clean)) s.deferredPersist
        (persistScanEvent s.transaction event).2 ∧
      (s.beforeFlush .incrementalRescan event).repository.storage = s.repository.storage := by
  obtain ⟨repository, indexModel, hstorage, heq⟩ := publishModel_rescan
    { s with scanCompleted := s.scanCompleted || event = ScanEvent.completed } event
  unfold beforeFlush
  simp only [heq, persistScanEvent_dirty]
  refine ⟨⟨?_, rfl, rfl, rfl⟩, hstorage⟩
  simp [clean, Bool.and_assoc]

theorem flushes_eq (mode : ScanPersistenceMode) (s : ForwardState) (event : ScanEvent) :
    s.flushes mode event = (shouldFlushIndex mode event && !(s.beforeFlush mode event).clean &&
      !(s.beforeFlush mode event).modelPublished) := by
  simp [flushes, clean, Bool.or_comm]

theorem flushes_rescan (s : ForwardState) (event : ScanEvent) :
    s.flushes .incrementalRescan event = (event.isSummary && !s.clean && !s.modelPublished) := by
  obtain ⟨⟨hclean, hpublished, _, _⟩, _⟩ := beforeFlush_rescan s event
  rw [flushes_eq, hclean, hpublished]
  cases event <;> simp [shouldFlushIndex, ScanEvent.isSummary, ScanEvent.isCatalog,
    ScanEvent.isTerminal]

/-- Once the read model is published, or everything is saved and no record
arrives, a rescan writes nothing more. -/
theorem storage_run_rescan (rest : List ScanEvent) (s : ForwardState)
    (hdeferred : s.deferredPersist = none)
    (hsettled : s.modelPublished = true ∨ (s.clean = true ∧ closes rest = true)) :
    (s.run .incrementalRescan rest).repository.storage = s.repository.storage := by
  induction rest generalizing s with
  | nil =>
      rcases hsettled with hpublished | ⟨hclean, _⟩
      · exact congrArg (fun t ↦ t.repository.storage) (finish_of_published hdeferred hpublished)
      · exact storage_finish_of_clean hdeferred hclean
  | cons event rest ih =>
      obtain ⟨⟨hclean', hpublished', hdeferred', _⟩, hstorage⟩ := beforeFlush_rescan s event
      have hflushes : s.flushes .incrementalRescan event = false := by
        rw [flushes_rescan]
        rcases hsettled with hpublished | ⟨hclean, _⟩
        · simp [hpublished]
        · simp [hclean]
      rw [← hstorage, ← forwardEvent_of_not_flushes hflushes]
      rw [← forwardEvent_of_not_flushes hflushes] at hclean' hpublished' hdeferred'
      refine ih _ (hdeferred'.trans hdeferred) ?_
      rcases hsettled with hpublished | ⟨hclean, hcloses⟩
      · exact Or.inl (by rw [hpublished', hpublished]; rfl)
      · cases hterminal : event.isTerminal with
        | true => exact Or.inl (by rw [hpublished', hterminal, hclean]; simp)
        | false =>
            obtain ⟨hcatalog, hrest⟩ : event.isCatalog = false ∧ closes rest = true := by
              simpa [closes, hterminal] using hcloses
            exact Or.inr ⟨by rw [hclean', hclean, hcatalog]; rfl, hrest⟩

theorem foldScanEvents_savedPart (tx : BufferedIndexTransaction) {event : ScanEvent}
    {rest : List ScanEvent} (hsaved : (event.isSummary && closes rest) = false) :
    foldScanEvents tx ((savedPart (event :: rest)).getD (event :: rest)) =
      foldScanEvents (persistScanEvent tx event).2 ((savedPart rest).getD rest) := by
  rw [savedPart, hsaved]
  cases savedPart rest <;> rfl

/-- Unless a rescan is settled, the snapshot it leaves holds the transaction as
of the last summary that saved it, or of the end. -/
theorem onDisk_run_rescan (rest : List ScanEvent) (s : ForwardState)
    (hdeferred : s.deferredPersist = none) (hpublished : s.modelPublished = false)
    (hopen : s.clean = true → closes rest = false)
    (hsaved : WritesSucceed .incrementalRescan s rest) :
    OnDisk (s.run .incrementalRescan rest).repository.storage
      (foldScanEvents s.transaction ((savedPart rest).getD rest)).sessionState := by
  induction rest generalizing s with
  | nil =>
      have hclean : s.clean = false := by
        by_contra hclean
        cases hopen (Bool.not_eq_false _ ▸ hclean)
      exact onDisk_finish_of_not_clean hdeferred hpublished hclean hsaved
  | cons event rest ih =>
      obtain ⟨hevent, hrest⟩ := hsaved
      obtain ⟨hbefore, hstorage⟩ := beforeFlush_rescan s event
      have hnotEnd : (event.isTerminal && s.clean) = false := by
        by_contra hends
        obtain ⟨hterminal, hclean⟩ : event.isTerminal = true ∧ s.clean = true := by
          simpa using hends
        have hcloses := hopen hclean
        simp [closes, hterminal] at hcloses
      have hopen' : (s.beforeFlush .incrementalRescan event).modelPublished = false := by
        rw [hbefore.published, hpublished, hnotEnd]
        rfl
      have hnone := hbefore.deferred.trans hdeferred
      by_cases hflushes : s.flushes .incrementalRescan event = true
      · obtain ⟨hafter, hdisk⟩ := forwardEvent_of_flushes hflushes (hevent hflushes)
        obtain ⟨hsummary, hclean⟩ : event.isSummary = true ∧ s.clean = false := by
          rw [flushes_rescan] at hflushes
          simp_all
        have hsame : (persistScanEvent s.transaction event).2 = s.transaction := by
          cases event <;> first | rfl | cases hsummary
        rw [hbefore.transaction, hsame] at hafter hdisk
        cases hcloses : closes rest with
        | true =>
            have hkept := storage_run_rescan rest (s.forwardEvent .incrementalRescan event)
              (hafter.deferred.trans hnone) (Or.inr ⟨hafter.clean, hcloses⟩)
            simp only [savedPart, hsummary, hcloses, Bool.and_self, if_true, Option.getD_some]
            exact hkept ▸ hdisk
        | false =>
            have hlater := ih (s.forwardEvent .incrementalRescan event)
              (hafter.deferred.trans hnone) (hafter.published.trans hopen') (fun _ ↦ hcloses) hrest
            rw [foldScanEvents_savedPart _ (by simp [hcloses]), hsame]
            exact hafter.transaction ▸ hlater
      · have hflushes := Bool.eq_false_of_not_eq_true hflushes
        have hunsaved : (event.isSummary && closes rest) = false := by
          rw [flushes_rescan, hpublished] at hflushes
          cases hsummary : event.isSummary with
          | false => rfl
          | true =>
              have hclean : s.clean = true := by simpa [hsummary] using hflushes
              have hcatalog : event.isCatalog = false ∧ event.isTerminal = false := by
                cases event <;> first | exact ⟨rfl, rfl⟩ | cases hsummary
              simpa [closes, hcatalog.1, hcatalog.2] using hopen hclean
        have hlater := ih (s.forwardEvent .incrementalRescan event)
        rw [forwardEvent_of_not_flushes hflushes] at hlater hrest
        rw [foldScanEvents_savedPart _ hunsaved, ← hbefore.transaction]
        rw [run_cons, forwardEvent_of_not_flushes hflushes]
        refine hlater hnone hopen' (fun hclean ↦ ?_) hrest
        obtain ⟨hclean, hcatalog⟩ : s.clean = true ∧ event.isCatalog = false := by
          rw [hbefore.clean] at hclean
          simpa using hclean
        have hcloses := hopen hclean
        simp only [closes, hcatalog, Bool.not_false, Bool.true_and, Bool.or_eq_false_iff] at hcloses
        exact hcloses.2

end ForwardState

/-! ## Full scans -/

/-- The event starts the session or names a volume. -/
def ScanEvent.isVolume : ScanEvent → Bool
  | .sessionStarted _ | .volumeDiscovered _ => true
  | _ => false

/-- The last catalog record is a volume. -/
def volumeIsLast : List ScanEvent → Bool
  | [] => false
  | event :: rest => if rest.any ScanEvent.isCatalog then volumeIsLast rest else event.isVolume

theorem ScanEvent.isCatalog_of_isVolume {event : ScanEvent} (h : event.isVolume = true) :
    event.isCatalog = true := by
  cases event <;> first | rfl | cases h

theorem volumeIsLast_of_quiet {events : List ScanEvent}
    (hquiet : events.any ScanEvent.isCatalog = false) : volumeIsLast events = false := by
  cases events with
  | nil => rfl
  | cons event rest =>
      obtain ⟨hcatalog, hrest⟩ : event.isCatalog = false ∧ rest.any ScanEvent.isCatalog = false := by
        rw [List.any_cons, Bool.or_eq_false_iff] at hquiet
        exact hquiet
      rw [volumeIsLast, hrest, if_neg Bool.false_ne_true]
      by_contra hvolume
      rw [ScanEvent.isCatalog_of_isVolume (Bool.eq_true_of_not_eq_false hvolume)] at hcatalog
      cases hcatalog

namespace ForwardState

/-- The end of a full scan publishes the transaction with the final state in
its session record, to be saved after the loop. -/
theorem beforeFlush_scan_of_end {s : ForwardState} {event : ScanEvent}
    (hpublished : s.modelPublished = false) (hterminal : event.isTerminal = true) :
    (s.beforeFlush .replaceSnapshot event).modelPublished = true ∧
      ∃ model, (s.beforeFlush .replaceSnapshot event).deferredPersist = some model ∧
        model.sessionState = event.endState := by
  have hends : (!s.modelPublished && event.isTerminal) = true := by simp [hpublished, hterminal]
  simp only [beforeFlush, publishModel, hends, if_true, true_and]
  refine ⟨_, rfl, ?_⟩
  cases event with
  | completed => exact @sessionState_upsertSession _ (endedSession .completed) rfl
  | cancelled => exact @sessionState_upsertSession _ (endedSession .cancelled) rfl
  | _ => cases hterminal

theorem beforeFlush_scan {s : ForwardState} {event : ScanEvent}
    (hends : s.modelPublished = true ∨ event.isTerminal = false) :
    (s.beforeFlush .replaceSnapshot event).Status (s.clean && !event.isCatalog) s.modelPublished
        s.deferredPersist (persistScanEvent s.transaction event).2 ∧
      (s.beforeFlush .replaceSnapshot event).repository.storage = s.repository.storage := by
  have hkept : (!s.modelPublished && event.isTerminal) = false := by
    rcases hends with hpublished | hterminal
    · simp [hpublished]
    · simp [hterminal]
  simp only [beforeFlush, publishModel, hkept, persistScanEvent_dirty, if_false, Bool.false_eq_true]
  refine ⟨⟨?_, rfl, rfl, rfl⟩, trivial⟩
  simp [clean, Bool.and_assoc]

/-- Once the read model of a full scan is published, the deferred save decides
what the disk holds. -/
theorem onDisk_run_deferred (rest : List ScanEvent) (s : ForwardState)
    {model : BufferedIndexTransaction} (hdeferred : s.deferredPersist = some model)
    (hpublished : s.modelPublished = true) (hsaved : WritesSucceed .replaceSnapshot s rest) :
    OnDisk (s.run .replaceSnapshot rest).repository.storage model.sessionState := by
  induction rest generalizing s with
  | nil =>
      have hok : (s.repository.persistTransaction (s.saveOutcomes.headD []) model).1 = true := by
        have hfinish : s.FinishSaved .replaceSnapshot := hsaved
        rwa [FinishSaved, hdeferred] at hfinish
      refine ⟨model, ?_, rfl⟩
      simp only [run, List.foldl_nil, finish, hdeferred]
      exact recovers_of_persisted hok
  | cons event rest ih =>
      obtain ⟨hbefore, _⟩ := @beforeFlush_scan s event (Or.inl hpublished)
      have hflushes : s.flushes .replaceSnapshot event = false := by
        rw [flushes_eq, hbefore.published, hpublished]
        simp
      have hrest := hsaved.2
      rw [run_cons]
      rw [forwardEvent_of_not_flushes hflushes] at hrest ⊢
      exact ih _ (hbefore.deferred.trans hdeferred) (hbefore.published.trans hpublished) hrest

/-- The first end of the scan decides the session record a full scan leaves. -/
theorem onDisk_run_scan_of_end (rest : List ScanEvent) (s : ForwardState) {ended : ScanEvent}
    (hpublished : s.modelPublished = false) (hended : rest.find? ScanEvent.isTerminal = some ended)
    (hsaved : WritesSucceed .replaceSnapshot s rest) :
    OnDisk (s.run .replaceSnapshot rest).repository.storage ended.endState := by
  induction rest generalizing s with
  | nil => cases hended
  | cons event rest ih =>
      obtain ⟨hevent, hrest⟩ := hsaved
      cases hterminal : event.isTerminal with
      | true =>
          obtain rfl : event = ended := by simpa [hterminal] using hended
          obtain ⟨hpublished', model, hmodel, hstate⟩ := beforeFlush_scan_of_end hpublished hterminal
          have hflushes : s.flushes .replaceSnapshot event = false := by
            rw [flushes_eq, hpublished']
            simp
          rw [← hstate, run_cons]
          rw [forwardEvent_of_not_flushes hflushes] at hrest ⊢
          exact onDisk_run_deferred rest _ hmodel hpublished' hrest
      | false =>
          obtain ⟨hbefore, _⟩ := beforeFlush_scan (s := s) (Or.inr hterminal)
          refine ih (s.forwardEvent .replaceSnapshot event) ?_ ?_ hrest
          · by_cases hflushes : s.flushes .replaceSnapshot event = true
            · obtain ⟨hafter, _⟩ := forwardEvent_of_flushes hflushes (hevent hflushes)
              rw [hafter.published, hbefore.published, hpublished]
            · rw [forwardEvent_of_not_flushes (Bool.eq_false_of_not_eq_true hflushes),
                hbefore.published, hpublished]
          · simpa [hterminal] using hended

/-- Without records and without an end, a full scan that has saved everything
saves nothing more. -/
theorem storage_run_scan (rest : List ScanEvent) (s : ForwardState)
    (hdeferred : s.deferredPersist = none) (hclean : s.clean = true)
    (hquiet : rest.any ScanEvent.isCatalog = false)
    (hends : ∀ event ∈ rest, event.isTerminal = false) :
    (s.run .replaceSnapshot rest).repository.storage = s.repository.storage := by
  induction rest generalizing s with
  | nil => exact storage_finish_of_clean hdeferred hclean
  | cons event rest ih =>
      obtain ⟨hcatalog, hrest⟩ : event.isCatalog = false ∧ rest.any ScanEvent.isCatalog = false := by
        rw [List.any_cons, Bool.or_eq_false_iff] at hquiet
        exact hquiet
      obtain ⟨hbefore, hstorage⟩ :=
        beforeFlush_scan (s := s) (Or.inr (hends event List.mem_cons_self))
      have hclean' : (s.beforeFlush .replaceSnapshot event).clean = true := by
        rw [hbefore.clean, hclean, hcatalog]
        rfl
      have hflushes : s.flushes .replaceSnapshot event = false := by
        rw [flushes_eq, hclean']
        simp
      have hlater := ih (s.beforeFlush .replaceSnapshot event) (hbefore.deferred.trans hdeferred)
        hclean' hrest fun later hlater ↦ hends later (List.mem_cons_of_mem _ hlater)
      rw [← hstorage, ← hlater, run_cons, forwardEvent_of_not_flushes hflushes]

/-- A failed full scan leaves `Failed` on disk unless the last record it saw
was a volume. -/
theorem onDisk_run_scan_failed (rest : List ScanEvent) (s : ForwardState) {message : String}
    (hdeferred : s.deferredPersist = none) (hpublished : s.modelPublished = false)
    (hends : ∀ event ∈ rest, event.isTerminal = false)
    (hopen : s.clean = true → rest.any ScanEvent.isCatalog = true)
    (hlast : rest.getLast? = some (.failed message))
    (hsaved : WritesSucceed .replaceSnapshot s rest) :
    OnDisk (s.run .replaceSnapshot rest).repository.storage
      (some (if volumeIsLast rest then .scanning else .failed)) := by
  induction rest generalizing s with
  | nil => cases hlast
  | cons event rest ih =>
      obtain ⟨hevent, hrest⟩ := hsaved
      have hends' : ∀ later ∈ rest, later.isTerminal = false :=
        fun later hlater ↦ hends later (List.mem_cons_of_mem _ hlater)
      obtain ⟨hbefore, _⟩ := beforeFlush_scan (s := s) (Or.inr (hends event List.mem_cons_self))
      have hpublished' := hbefore.published.trans hpublished
      have hdeferred' := hbefore.deferred.trans hdeferred
      have hclean (hclean' : (s.beforeFlush .replaceSnapshot event).clean = true) :
          event.isCatalog = false ∧ rest.any ScanEvent.isCatalog = true := by
        rw [hbefore.clean, Bool.and_eq_true, Bool.not_eq_true'] at hclean'
        have hany := hopen hclean'.1
        rw [List.any_cons, hclean'.2, Bool.false_or] at hany
        exact ⟨hclean'.2, hany⟩
      by_cases hflushes : s.flushes .replaceSnapshot event = true
      · obtain ⟨hafter, hdisk⟩ := forwardEvent_of_flushes hflushes (hevent hflushes)
        cases hquiet : rest.any ScanEvent.isCatalog with
        | false =>
            have hkept := storage_run_scan rest (s.forwardEvent .replaceSnapshot event)
              (hafter.deferred.trans hdeferred') hafter.clean hquiet hends'
            have hrequested : shouldFlushIndex .replaceSnapshot event = true := by
              rw [flushes_eq] at hflushes
              simp_all
            have hstate : (persistScanEvent s.transaction event).2.sessionState =
                some (if event.isVolume then .scanning else .failed) := by
              rw [sessionState_persistScanEvent]
              cases event <;> first | rfl | cases hrequested
            rw [hbefore.transaction, hstate, ← hkept] at hdisk
            rw [run_cons, volumeIsLast, hquiet, if_neg Bool.false_ne_true]
            exact hdisk
        | true =>
            have hne : rest ≠ [] := by
              rintro rfl
              cases hquiet
            rw [List.getLast?_cons_of_ne_nil hne] at hlast
            have hlater := ih (s.forwardEvent .replaceSnapshot event)
              (hafter.deferred.trans hdeferred') (hafter.published.trans hpublished') hends'
              (fun _ ↦ hquiet) hlast hrest
            rw [run_cons, volumeIsLast, hquiet, if_pos rfl]
            exact hlater
      · have hflushes := Bool.eq_false_of_not_eq_true hflushes
        have hrequested : shouldFlushIndex .replaceSnapshot event = true →
            event.isCatalog = false ∧ rest.any ScanEvent.isCatalog = true := by
          intro hrequested
          rw [flushes_eq, hrequested, hpublished'] at hflushes
          exact hclean (by simpa using hflushes)
        have hne : rest ≠ [] := by
          rintro rfl
          obtain rfl : event = .failed message := by simpa using hlast
          cases (hrequested rfl).2
        have hvolume : event.isVolume = false := by
          by_contra hvolume
          have hvolume := Bool.eq_true_of_not_eq_false hvolume
          have hflush : shouldFlushIndex .replaceSnapshot event = true := by
            cases event <;> first | rfl | cases hvolume
          rw [ScanEvent.isCatalog_of_isVolume hvolume] at hrequested
          cases (hrequested hflush).1
        rw [List.getLast?_cons_of_ne_nil hne] at hlast
        rw [forwardEvent_of_not_flushes hflushes] at hrest
        have hlater := ih (s.beforeFlush .replaceSnapshot event) hdeferred' hpublished' hends'
          (fun h ↦ (hclean h).2) hlast hrest
        rw [run_cons, forwardEvent_of_not_flushes hflushes, volumeIsLast, hvolume]
        cases hquiet : rest.any ScanEvent.isCatalog with
        | false =>
            rw [volumeIsLast_of_quiet hquiet] at hlater
            exact hlater
        | true => exact hlater

end ForwardState

/-! ## Whole sessions -/

/-- The stream brings the final state of the session to the disk. A full scan
does when its first end is of that state or, with no end but a failure, when
its last record is no volume; a rescan does when a record follows each of its
summaries before the scan ends. -/
def EndIsSaved (mode : ScanPersistenceMode) (events : List ScanEvent) (state : ScanState) : Prop :=
  match mode with
  | .replaceSnapshot =>
      match events.find? ScanEvent.isTerminal with
      | some ended => ended.endState = some state
      | none => volumeIsLast events = false
  | .incrementalRescan => ∀ saved ∈ savedPart events, lastSessionState saved = some state

/-- A session that ends with a terminal event and whose saves succeed leaves
the final state in the session record on disk exactly when its stream brings it
there. -/
theorem endState_onDisk_iff (mode : ScanPersistenceMode)
    (storage : StorageFiles BufferedIndexTransaction) (saveOutcomes : List (List Bool))
    (events : List ScanEvent) {terminal : ScanEvent} {state : ScanState}
    (hterminal : terminal.endState = some state)
    (hsaved : ForwardState.WritesSucceed mode (openForwardState mode storage saveOutcomes)
      (events ++ [terminal])) :
    OnDisk (forwardEvents mode storage saveOutcomes (events ++ [terminal])).repository.storage
        (some state) ↔ EndIsSaved mode (events ++ [terminal]) state := by
  have hdecides {found : Option ScanState} (hfound : OnDisk (forwardEvents mode storage saveOutcomes
      (events ++ [terminal])).repository.storage found) :
      OnDisk (forwardEvents mode storage saveOutcomes (events ++ [terminal])).repository.storage
        (some state) ↔ found = some state :=
    ⟨fun h ↦ hfound.unique h, fun h ↦ h ▸ hfound⟩
  cases mode with
  | replaceSnapshot =>
      unfold EndIsSaved
      cases hended : (events ++ [terminal]).find? ScanEvent.isTerminal with
      | some ended =>
          exact hdecides (ForwardState.onDisk_run_scan_of_end _ _ rfl hended hsaved)
      | none =>
          have hends : ∀ event ∈ events ++ [terminal], event.isTerminal = false := fun event hevent ↦
            Bool.eq_false_of_not_eq_true (List.find?_eq_none.mp hended event hevent)
          obtain ⟨message, rfl⟩ : ∃ message, terminal = .failed message := by
            have hlast := hends terminal (by simp)
            cases terminal with
            | completed | cancelled => cases hlast
            | failed message => exact ⟨message, rfl⟩
            | _ => cases hterminal
          cases hterminal
          have hdisk := ForwardState.onDisk_run_scan_failed _ _ rfl rfl hends (fun h ↦ by cases h)
            List.getLast?_concat hsaved
          rw [hdecides hdisk]
          cases volumeIsLast (events ++ [ScanEvent.failed message]) <;> simp
  | incrementalRescan =>
      have hdisk := ForwardState.onDisk_run_rescan _ _ rfl rfl (fun h ↦ by cases h) hsaved
      have hempty : (openForwardState .incrementalRescan storage
          saveOutcomes).transaction.sessionState = none := rfl
      rw [hdecides hdisk, sessionState_foldScanEvents, hempty, Option.or_none]
      unfold EndIsSaved
      cases hpart : savedPart (events ++ [terminal]) with
      | none => simp [lastSessionState_concat, ScanEvent.sessionState_of_endState hterminal]
      | some saved => simp

/-- A rescan of an empty volume. -/
def shortRescan : List ScanEvent := [
  .sessionStarted ⟨⟨0⟩, "C:\\", none, .unknown, 0, 0, ⟨0⟩⟩,
  .directoryFound ⟨⟨5⟩, none, "C:\\", "C:\\", 0, 0, 0, 0⟩,
  .summary ⟨0, 1, 0, 0⟩,
  .completed]

/-- A scan that fails before it finds anything. -/
def failedScan : List ScanEvent := [
  .sessionStarted ⟨⟨0⟩, "C:\\", none, .unknown, 0, 0, ⟨0⟩⟩,
  .failed "the volume was removed"]

theorem endState_onDisk_shortRescan :
    OnDisk (forwardEvents .replaceSnapshot ⟨none, none, none⟩ []
      (shortRescan.take 3 ++ [.completed])).repository.storage (some .completed) := by
  have hsaved : ForwardState.WritesSucceed .replaceSnapshot
      (openForwardState .replaceSnapshot ⟨none, none, none⟩ [])
      (shortRescan.take 3 ++ [.completed]) :=
    ⟨fun _ ↦ rfl, fun _ ↦ rfl, fun _ ↦ rfl, fun _ ↦ rfl, rfl⟩
  exact (endState_onDisk_iff .replaceSnapshot ⟨none, none, none⟩ [] (shortRescan.take 3) rfl
    hsaved).mpr rfl

theorem endState_lost :
    (ForwardState.WritesSucceed .incrementalRescan
        (openForwardState .incrementalRescan ⟨none, none, none⟩ []) shortRescan ∧
      OnDisk (forwardEvents .incrementalRescan ⟨none, none, none⟩ [] shortRescan).repository.storage
        (some .scanning)) ∧
    (ForwardState.WritesSucceed .replaceSnapshot
        (openForwardState .replaceSnapshot ⟨none, none, none⟩ []) failedScan ∧
      OnDisk (forwardEvents .replaceSnapshot ⟨none, none, none⟩ [] failedScan).repository.storage
        (some .scanning)) := by
  refine ⟨⟨⟨fun _ ↦ rfl, fun _ ↦ rfl, fun _ ↦ rfl, fun _ ↦ rfl, fun _ _ ↦ rfl⟩, ?_⟩,
    ⟨⟨fun _ ↦ rfl, fun _ ↦ rfl, fun _ _ ↦ rfl⟩, ?_⟩⟩
  · exact ⟨_, ⟨_, rfl, rfl⟩, rfl⟩
  · exact ⟨_, ⟨_, rfl, rfl⟩, rfl⟩

end WinBlaze
