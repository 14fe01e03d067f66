import WinBlaze.Core.Scan
import WinBlaze.Index.Repository

/-!
# Forwarding scan events to the index

The bridge folds the events of one scan session into a transaction, decides
when the transaction is saved, and publishes the read model at the end.
-/

namespace WinBlaze

open Storage BufferedIndexTransaction

/-- The session record of a scan that reached `state`. -/
def endedSession (state : ScanState) : ScanSession where
  sessionId := 1
  volumeId := ⟨0⟩
  rootPath := ""
  state := state
  progress := ⟨0, 0, 0, 0⟩

/-- Folds an event into the transaction. The flag tells whether catalog
records changed. -/
def persistScanEvent (transaction : BufferedIndexTransaction) :
    ScanEvent → Bool × BufferedIndexTransaction
  | .sessionStarted volume | .volumeDiscovered volume =>
      let session : ScanSession := {
        sessionId := 1
        volumeId := volume.id
        rootPath := volume.mountPoint
        state := .scanning
        progress := ⟨0, 0, 0, 0⟩ }
      (true, (transaction.upsertSession session).insertVolume volume)
  | .directoryFound directory => (true, transaction.insertDirectory directory)
  | .fileFound file => (true, transaction.insertFile file)
  | .progress _ | .issue _ | .summary _ => (false, transaction)
  | .completed => (false, transaction.upsertSession (endedSession .completed))
  | .cancelled => (false, transaction.upsertSession (endedSession .cancelled))
  | .failed _ => (false, transaction.upsertSession (endedSession .failed))

/-- The transaction after a sequence of events. -/
def foldScanEvents (transaction : BufferedIndexTransaction) (events : List ScanEvent) :
    BufferedIndexTransaction :=
  events.foldl (fun transaction event ↦ (persistScanEvent transaction event).2) transaction

@[simp] theorem foldScanEvents_append (transaction : BufferedIndexTransaction)
    (events later : List ScanEvent) :
    foldScanEvents transaction (events ++ later) =
      foldScanEvents (foldScanEvents transaction events) later :=
  List.foldl_append

inductive ScanPersistenceMode
  | replaceSnapshot | incrementalRescan
  deriving DecidableEq, Repr

def shouldFlushIndex : ScanPersistenceMode → ScanEvent → Bool
  | .replaceSnapshot, .sessionStarted _ | .replaceSnapshot, .volumeDiscovered _
  | .replaceSnapshot, .failed _ => true
  | .replaceSnapshot, _ => false
  | .incrementalRescan, .summary _ => true
  | .incrementalRescan, _ => false

/-- The variables of the forwarding loop. -/
structure ForwardState where
  repository : SqliteIndexRepository
  transaction : BufferedIndexTransaction := {}
  scanCompleted : Bool := false
  flushed : Bool := false
  recordsDirty : Bool := false
  modelPublished : Bool := false
  /-- The records of a snapshot that is written after the loop. -/
  deferredPersist : Option BufferedIndexTransaction := none
  /-- The records of the read model the session published. -/
  indexModel : Option BufferedIndexTransaction := none
  /-- The change sets reported to the callback. -/
  changeSets : List FileChangeSet := []
  /-- The outcomes of the system calls of each save still to come. -/
  saveOutcomes : List (List Bool)

namespace ForwardState

/-- `apply_scan_transaction` with the bookkeeping of its two callers. -/
def applyScanTransaction (mode : ScanPersistenceMode) (s : ForwardState) : Bool × ForwardState :=
  let outcomes := s.saveOutcomes.headD []
  let rest := s.saveOutcomes.tail
  match mode with
  | .replaceSnapshot =>
      let saved := s.repository.persistTransaction outcomes s.transaction
      (saved.1, { s with repository := saved.2, saveOutcomes := rest })
  | .incrementalRescan =>
      let applied :=
        s.repository.applyPathMatchedIncrementalTransaction outcomes s.transaction
      (applied.1.isSome, { s with
        repository := applied.2
        changeSets := s.changeSets ++ applied.1.toList
        saveOutcomes := rest })

/-- Publish the read model before the end of the scan is forwarded. -/
def publishModel (mode : ScanPersistenceMode) (event : ScanEvent) (s : ForwardState) :
    ForwardState :=
  if !s.modelPublished && event.isTerminal then
    match mode with
    | .replaceSnapshot =>
        let ended := s.transaction.upsertSession
          (endedSession (if event = ScanEvent.completed then .completed else .cancelled))
        { s with
          transaction := {}
          deferredPersist := some ended
          indexModel := some ended
          recordsDirty := false
          modelPublished := true }
    | .incrementalRescan =>
        if s.flushed && !s.recordsDirty then
          { s with
            repository := { s.repository with state := {} }
            indexModel := some s.repository.state
            modelPublished := true }
        else s
  else s

/-- The body of the event loop. -/
def forwardEvent (mode : ScanPersistenceMode) (s : ForwardState) (event : ScanEvent) :
    ForwardState :=
  let s := { s with scanCompleted := s.scanCompleted || event = ScanEvent.completed }
  let s := s.publishModel mode event
  let persisted := persistScanEvent s.transaction event
  let s := { s with
    transaction := persisted.2
    recordsDirty := s.recordsDirty || persisted.1 }
  if shouldFlushIndex mode event && (s.recordsDirty || !s.flushed) && !s.modelPublished then
    let applied := s.applyScanTransaction mode
    { applied.2 with
      flushed := applied.1
      recordsDirty := if applied.1 then false else s.recordsDirty }
  else s

/-- What follows the event loop. -/
def finish (mode : ScanPersistenceMode) (s : ForwardState) : ForwardState :=
  match s.deferredPersist with
  | some model =>
      let saved := s.repository.persistTransaction (s.saveOutcomes.headD []) model
      { s with repository := saved.2, saveOutcomes := s.saveOutcomes.tail }
  | none =>
      if s.modelPublished then s
      else
        let s := if !s.flushed || s.recordsDirty then (s.applyScanTransaction mode).2 else s
        match mode with
        | .replaceSnapshot => { s with indexModel := some s.transaction }
        | .incrementalRescan => { s with indexModel := some s.repository.state }

end ForwardState

def openForwardState (mode : ScanPersistenceMode)
    (storage : StorageFiles BufferedIndexTransaction) (saveOutcomes : List (List Bool)) :
    ForwardState where
  repository :=
    match mode with
    | .replaceSnapshot => .openEmpty storage
    | .incrementalRescan => .openStorage storage
  saveOutcomes := saveOutcomes

/-- A whole scan session over the events that were received. -/
def forwardEvents (mode : ScanPersistenceMode) (storage : StorageFiles BufferedIndexTransaction)
    (saveOutcomes : List (List Bool)) (events : List ScanEvent) : ForwardState :=
  (events.foldl (ForwardState.forwardEvent mode) (openForwardState mode storage saveOutcomes)).finish
    mode

/-! ## A rescan without a summary -/

/-- Until a summary arrives, a rescan only collects its transaction. -/
theorem foldl_forwardEvent_unfinished (events : List ScanEvent) (s : ForwardState)
    (hsummary : ∀ event ∈ events, event.isSummary = false) (hflushed : s.flushed = false) :
    let last := events.foldl (ForwardState.forwardEvent .incrementalRescan) s
    last.repository = s.repository ∧ last.transaction = foldScanEvents s.transaction events ∧
      last.flushed = false ∧ last.modelPublished = s.modelPublished ∧
        last.deferredPersist = s.deferredPersist ∧ last.changeSets = s.changeSets ∧
          last.saveOutcomes = s.saveOutcomes := by
  induction events generalizing s with
  | nil => exact ⟨rfl, rfl, hflushed, rfl, rfl, rfl, rfl⟩
  | cons event rest ih =>
      have hflush : shouldFlushIndex .incrementalRescan event = false := by
        have h := hsummary event List.mem_cons_self
        cases event <;> first | rfl | cases h
      have hstep : s.forwardEvent .incrementalRescan event = { s with
          scanCompleted := s.scanCompleted || event = ScanEvent.completed
          transaction := (persistScanEvent s.transaction event).2
          recordsDirty := s.recordsDirty || (persistScanEvent s.transaction event).1 } := by
        simp [ForwardState.forwardEvent, ForwardState.publishModel, hflushed, hflush]
      rw [List.foldl_cons, hstep]
      exact ih _ (fun other hother ↦ hsummary other (List.mem_cons_of_mem _ hother)) hflushed

theorem repository_finish_unflushed (s : ForwardState) (hdeferred : s.deferredPersist = none)
    (hpublished : s.modelPublished = false) (hflushed : s.flushed = false) :
    (s.finish .incrementalRescan).repository =
      (s.repository.applyPathMatchedIncrementalTransaction (s.saveOutcomes.headD [])
        s.transaction).2 := by
  simp [ForwardState.finish, ForwardState.applyScanTransaction, hdeferred, hpublished, hflushed]

/-- A rescan without a summary merges its transaction when the stream ends. -/
theorem forwardEvents_unfinished (storage : StorageFiles BufferedIndexTransaction)
    (saveOutcomes : List (List Bool)) {events : List ScanEvent}
    (hsummary : ∀ event ∈ events, event.isSummary = false) :
    (forwardEvents .incrementalRescan storage saveOutcomes events).repository =
      ((SqliteIndexRepository.openStorage storage).applyPathMatchedIncrementalTransaction
        (saveOutcomes.headD []) (foldScanEvents {} events)).2 := by
  obtain ⟨hrepository, htransaction, hflushed, hpublished, hdeferred, _, houtcomes⟩ :=
    foldl_forwardEvent_unfinished events (openForwardState .incrementalRescan storage saveOutcomes)
      hsummary rfl
  rw [forwardEvents, repository_finish_unflushed _ hdeferred hpublished hflushed, hrepository,
    htransaction, houtcomes]
  rfl

end WinBlaze
