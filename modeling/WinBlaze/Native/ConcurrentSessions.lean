import WinBlaze.Native.SessionState

/-!
# Scan sessions that follow each other

A session may start as soon as the session before it has delivered the end of
its scan, while that one still has steps to make. The sessions share the
storage directory and the gate lock; each is one run of `forward_events`, cut
where another session can come in between: at the lock, at the callback and at
every system call of a save.
-/

namespace WinBlaze

open Storage BufferedIndexTransaction

namespace ForwardState

/-- The state that `apply_scan_transaction` saves. -/
def savedState (mode : ScanPersistenceMode) (s : ForwardState) : BufferedIndexTransaction :=
  match mode with
  | .replaceSnapshot => s.transaction
  | .incrementalRescan => (s.repository.state.mergePathMatched s.transaction).2

/-- What `apply_scan_transaction` does with the result of its save. -/
def afterSave (mode : ScanPersistenceMode) (s : ForwardState)
    (saved : Bool × StorageFiles BufferedIndexTransaction) : ForwardState :=
  match mode with
  | .replaceSnapshot => { s with
      repository := { s.repository with storage := saved.2 }
      saveOutcomes := s.saveOutcomes.tail }
  | .incrementalRescan =>
      let merged := s.repository.state.mergePathMatched s.transaction
      { s with
        repository := ⟨merged.2, saved.2⟩
        changeSets := s.changeSets ++ if saved.1 then [merged.1] else []
        saveOutcomes := s.saveOutcomes.tail }

theorem applyScanTransaction_eq (mode : ScanPersistenceMode) (s : ForwardState) :
    s.applyScanTransaction mode =
      let saved := persistSnapshotWith (s.savedState mode) (s.saveOutcomes.headD [])
        s.repository.storage
      (saved.1, s.afterSave mode saved) := by
  cases mode with
  | replaceSnapshot => rfl
  | incrementalRescan =>
      rcases hsaved : persistSnapshotWith (s.savedState .incrementalRescan)
        (s.saveOutcomes.headD []) s.repository.storage with ⟨ok, files⟩
      have hmerged : persistSnapshotWith (s.repository.state.mergeIncremental
          (s.repository.state.remapByPath s.transaction)).2 (s.saveOutcomes.headD [])
            s.repository.storage = (ok, files) := hsaved
      simp only [applyScanTransaction, SqliteIndexRepository.applyPathMatchedIncrementalTransaction,
        SqliteIndexRepository.applyIncrementalTransaction, hmerged]
      cases ok <;> rfl

/-- The end of the loop body after a save. -/
def settle (mode : ScanPersistenceMode) (s : ForwardState)
    (saved : Bool × StorageFiles BufferedIndexTransaction) : ForwardState :=
  { s.afterSave mode saved with
    flushed := saved.1
    recordsDirty := if saved.1 then false else s.recordsDirty }

theorem forwardEvent_eq_settle {mode : ScanPersistenceMode} {s : ForwardState} {event : ScanEvent}
    (hflushes : s.flushes mode event = true) :
    s.forwardEvent mode event =
      let t := s.beforeFlush mode event
      t.settle mode
        (persistSnapshotWith (t.savedState mode) (t.saveOutcomes.headD []) t.repository.storage) := by
  rw [forwardEvent_eq, if_pos hflushes, applyScanTransaction_eq]
  rfl

/-- The loop variables over the storage directory as it is now. -/
def withStorage (s : ForwardState) (disk : StorageFiles BufferedIndexTransaction) : ForwardState :=
  { s with repository := { s.repository with storage := disk } }

/-- The save that is still to come when the stream has ended. -/
def lastSave (mode : ScanPersistenceMode) (s : ForwardState) : Option BufferedIndexTransaction :=
  match s.deferredPersist with
  | some model => some model
  | none => if !s.modelPublished && !s.clean then some (s.savedState mode) else none

/-- The session saves while it handles the rest of its stream or afterwards. -/
def savesLater (mode : ScanPersistenceMode) : ForwardState → List ScanEvent → Bool
  | s, [] => (s.lastSave mode).isSome
  | s, event :: rest => s.flushes mode event || savesLater mode (s.beforeFlush mode event) rest

end ForwardState

/-- How the scan ended last. -/
def lastEnd (events : List ScanEvent) : Option ScanState := events.reverse.findSome? ScanEvent.endState

/-! ## Sessions -/

structure SessionScript where
  mode : ScanPersistenceMode
  events : List ScanEvent
  saveOutcomes : List (List Bool)

/-- What follows a save: the rest of the stream, or the return. -/
inductive SavePurpose
  | flush (rest : List ScanEvent)
  | final

inductive SessionPhase
  /-- waits for the gate to open the repository -/
  | opening
  | loading
  | receiving (rest : List ScanEvent)
  /-- waits for the gate before the end of a full scan is delivered -/
  | gating (event : ScanEvent) (rest : List ScanEvent)
  | delivering (event : ScanEvent) (rest : List ScanEvent)
  | handling (event : ScanEvent) (rest : List ScanEvent)
  | saving (purpose : SavePurpose) (new : BufferedIndexTransaction) (point : PersistPoint)
      (outcomes : List Bool)
  | returned

structure Session where
  script : SessionScript
  phase : SessionPhase
  /-- The variables of the loop; the storage in them is not used. -/
  loop : ForwardState
  persistGuard : Bool
  /-- The end of the scan was delivered to the callback. -/
  delivered : Bool
  /-- The storage directory the repository was opened on. -/
  openedOn : Option (StorageFiles BufferedIndexTransaction)

/-- What a step does with the gate lock. -/
inductive GateUse
  | kept | taken | released

namespace Session

def start (script : SessionScript) : Session where
  script := script
  phase := .opening
  loop := openForwardState script.mode ⟨none, none, none⟩ script.saveOutcomes
  persistGuard := false
  delivered := false
  openedOn := none

/-- The session is inside `persist_snapshot_with`. -/
def isSaving (x : Session) : Bool :=
  match x.phase with
  | .saving _ _ _ _ => true
  | _ => false

def holdsGate (x : Session) : Bool :=
  match x.phase with
  | .loading => true
  | _ => x.persistGuard

/-- The end of the scan is published and saved only after it is delivered. -/
def defers (x : Session) (event : ScanEvent) : Bool :=
  x.script.mode = .replaceSnapshot && !x.loop.modelPublished && event.isTerminal

/-- Where a save starts; it consumes one outcome with every system call. -/
def startSave (x : Session) (purpose : SavePurpose) (new : BufferedIndexTransaction) : Session :=
  let outcomes := x.loop.saveOutcomes.headD [] ++ List.replicate 11 true
  { x with phase := .saving purpose new .createDirAll outcomes }

/-- `forward_events` returns and drops its guard. -/
def leave (x : Session) : Session × GateUse :=
  ({ x with phase := .returned, persistGuard := false }, if x.persistGuard then .released else .kept)

/-- One step of a session on the shared storage directory. -/
def step (gateFree : Bool) (disk : StorageFiles BufferedIndexTransaction) (x : Session) :
    Option (Session × StorageFiles BufferedIndexTransaction × GateUse) :=
  let mode := x.script.mode
  match x.phase with
  | .opening => if gateFree then some ({ x with phase := .loading }, disk, .taken) else none
  | .loading =>
      some ({ x with
        phase := .receiving x.script.events
        loop := openForwardState mode disk x.script.saveOutcomes
        openedOn := some disk }, disk, .released)
  | .receiving [] =>
      match x.loop.lastSave mode with
      | some new => some (x.startSave .final new, disk, .kept)
      | none => some (x.leave.1, disk, x.leave.2)
  | .receiving (event :: rest) =>
      some ({ x with phase := if x.defers event then .gating event rest else .delivering event rest },
        disk, .kept)
  | .gating event rest =>
      if gateFree then
        some ({ x with phase := .delivering event rest, persistGuard := true }, disk, .taken)
      else none
  | .delivering event rest =>
      some ({ x with
        phase := .handling event rest
        delivered := x.delivered || event.endState.isSome }, disk, .kept)
  | .handling event rest =>
      let after := { x with loop := x.loop.beforeFlush mode event }
      if x.loop.flushes mode event then
        some (after.startSave (.flush rest) (after.loop.savedState mode), disk, .kept)
      else some ({ after with phase := .receiving rest }, disk, .kept)
  | .saving purpose new point (succeeds :: outcomes) =>
      let config := persistStep new ⟨disk, point⟩ succeeds
      some ({ x with phase := .saving purpose new config.point outcomes }, config.files, .kept)
  | .saving (.flush rest) _ point [] =>
      some ({ x with
        phase := .receiving rest
        loop := x.loop.settle mode (decide (point = .returned true), disk) }, disk, .kept)
  | .saving .final _ _ [] => some (x.leave.1, disk, x.leave.2)
  | .returned => none

/-- The storage directory after the remaining steps, if no other session
touches it. -/
def complete (x : Session) (disk : StorageFiles BufferedIndexTransaction) :
    StorageFiles BufferedIndexTransaction :=
  let mode := x.script.mode
  match x.phase with
  | .opening | .loading =>
      (forwardEvents mode disk x.script.saveOutcomes x.script.events).repository.storage
  | .receiving rest => ((x.loop.withStorage disk).run mode rest).repository.storage
  | .gating event rest | .delivering event rest | .handling event rest =>
      ((x.loop.withStorage disk).run mode (event :: rest)).repository.storage
  | .saving (.flush rest) new point outcomes =>
      let last := persistRun new ⟨disk, point⟩ outcomes
      ((x.loop.settle mode (decide (last.point = .returned true), last.files)).run mode
        rest).repository.storage
  | .saving .final new point outcomes => (persistRun new ⟨disk, point⟩ outcomes).files
  | .returned => disk

/-- A save of the session is going on or still to come. -/
def pending (x : Session) : Bool :=
  match x.phase with
  | .opening | .loading | .saving _ _ _ _ => true
  | .receiving rest => x.loop.savesLater x.script.mode rest
  | .gating event rest | .delivering event rest | .handling event rest =>
      x.loop.savesLater x.script.mode (event :: rest)
  | .returned => false

/-- What the session leaves on disk when it runs alone from where it opened
its repository. -/
def finalStorage (x : Session) (opened : StorageFiles BufferedIndexTransaction) :
    StorageFiles BufferedIndexTransaction :=
  (forwardEvents x.script.mode opened x.script.saveOutcomes x.script.events).repository.storage

/-- The records of the read model that the session publishes when it runs alone
from there, with the session record that its last end gives. -/
def finalState (x : Session) (opened : StorageFiles BufferedIndexTransaction) :
    BufferedIndexTransaction :=
  let last := forwardEvents x.script.mode opened x.script.saveOutcomes x.script.events
  let model := last.indexModel.getD {}
  (lastEnd x.script.events).elim model fun state ↦ model.upsertSession (endedSession state)

/-- A full scan that ended in `Completed` or `Cancelled`, last in the same way as
first, and whose save after the loop returns `Ok`. -/
def savesFinal (x : Session) (opened : StorageFiles BufferedIndexTransaction) : Bool :=
  let s := x.script.events.foldl (ForwardState.forwardEvent x.script.mode)
    (openForwardState x.script.mode opened x.script.saveOutcomes)
  x.script.mode = .replaceSnapshot &&
    (x.script.events.find? ScanEvent.isTerminal).any (·.endState = lastEnd x.script.events) &&
      s.deferredPersist.all fun model ↦
        (s.repository.persistTransaction (s.saveOutcomes.headD []) model).1

end Session

/-! ## Runs of sessions -/

/-- The sessions in the order they were started. -/
structure SessionsState where
  disk : StorageFiles BufferedIndexTransaction
  gate : Option ℕ
  sessions : List Session

inductive SessionAction
  | start (script : SessionScript)
  | step (i : ℕ)

namespace SessionsState

def initial (disk : StorageFiles BufferedIndexTransaction) : SessionsState := ⟨disk, none, []⟩

def useGate (gate : Option ℕ) (i : ℕ) : GateUse → Option ℕ
  | .kept => gate
  | .taken => some i
  | .released => none

/-- A session starts once the one before has delivered the end of its scan. -/
def act (σ : SessionsState) : SessionAction → Option SessionsState
  | .start script =>
      if σ.sessions.getLast?.all Session.delivered then
        some { σ with sessions := σ.sessions ++ [Session.start script] }
      else none
  | .step i =>
      match σ.sessions[i]? with
      | none => none
      | some x =>
          match x.step σ.gate.isNone σ.disk with
          | none => none
          | some (x', disk, use) => some ⟨disk, useGate σ.gate i use, σ.sessions.set i x'⟩

def run : SessionsState → List SessionAction → Option SessionsState
  | σ, [] => some σ
  | σ, action :: rest => (σ.act action).bind (run · rest)

/-- The session before the `i`-th one brings its final state to the disk. -/
def followsFinal (σ : SessionsState) (i : ℕ) : Bool :=
  match i with
  | 0 => true
  | before + 1 => (σ.sessions[before]?).all fun x ↦ x.openedOn.any x.savesFinal

/-- The end of a scan is delivered under the gate, or with nothing left to save,
and a rescan opens the repository behind a session that saves its final state. -/
def endsSaved (σ : SessionsState) : SessionAction → Bool
  | .start _ => true
  | .step i =>
      match σ.sessions[i]? with
      | none => true
      | some x =>
          match x.phase with
          | .loading => x.script.mode ≠ .incrementalRescan || σ.followsFinal i
          | .delivering event _ => event.endState.isNone || x.persistGuard || !x.pending
          | _ => true

/-- A run in which every step is of this kind. -/
def runSaved : SessionsState → List SessionAction → Option SessionsState
  | σ, [] => some σ
  | σ, action :: rest => if σ.endsSaved action then (σ.act action).bind (runSaved · rest) else none

/-- At most one session saves at a time, and a rescan opens the final state of the
session before it. -/
structure Sound (σ : SessionsState) : Prop where
  exclusive : ∀ (i j : ℕ) (x y : Session), σ.sessions[i]? = some x → σ.sessions[j]? = some y →
    x.isSaving = true → y.isSaving = true → i = j
  complete : ∀ (i : ℕ) (x y : Session) disk, σ.sessions[i]? = some x → σ.sessions[i + 1]? = some y →
    y.script.mode = .incrementalRescan → y.openedOn = some disk →
      ∃ opened, x.openedOn = some opened ∧ openState disk = x.finalState opened

end SessionsState

end WinBlaze
