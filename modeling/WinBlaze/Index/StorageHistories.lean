import Mathlib.Data.Set.Insert
import WinBlaze.Index.Storage

/-!
# Histories of a storage directory

An index is opened, saved, compacted and invalidated by one process after the other,
and each of them may stop in the middle of a call. From an empty directory on, a state
that was saved is lost only to an invalidation, or to a compaction that finds it in the
backup alone.
-/

namespace WinBlaze

namespace Storage

variable {σ : Type}

/-! ## Calls -/

/-- A file that is removed. -/
inductive Candidate
  | storage | backup | temp
  deriving DecidableEq, Repr

def StorageFiles.remove (files : StorageFiles σ) : Candidate → StorageFiles σ
  | .storage => { files with primary := none }
  | .backup => { files with backup := none }
  | .temp => { files with temp := none }

inductive Ending
  | returned (ok : Bool)
  | stopped
  deriving DecidableEq, Repr

/-- How a call ends, with what it leaves and the outcomes it did not get to. -/
structure CallResult (σ : Type) where
  files : StorageFiles σ
  ending : Ending
  later : List Bool
  deriving Repr

/-- Remove one candidate after the other. One that is not there is no error. -/
def removeCandidates (files : StorageFiles σ) : List Candidate → List Bool → CallResult σ
  | [], outcomes => ⟨files, .returned true, outcomes⟩
  | _ :: _, [] => ⟨files, .stopped, []⟩
  | _ :: _, false :: outcomes => ⟨files, .returned false, outcomes⟩
  | candidate :: rest, true :: outcomes => removeCandidates (files.remove candidate) rest outcomes

def removeSnapshotFiles (files : StorageFiles σ) (outcomes : List Bool) : CallResult σ :=
  removeCandidates files [.storage, .backup, .temp] outcomes

def removeAuxiliarySnapshotFiles (files : StorageFiles σ) (outcomes : List Bool) : CallResult σ :=
  removeCandidates files [.backup, .temp] outcomes

def PersistPoint.ending : PersistPoint → Ending
  | .returned ok => .returned ok
  | _ => .stopped

/-- A save with these outcomes that stops behind the last of them. -/
def persistIndexState (new : σ) (files : StorageFiles σ) (outcomes : List Bool) : CallResult σ :=
  let last := persistRun new (persistStart files) outcomes
  ⟨last.files, last.point.ending, []⟩

def compactCache (state : σ) (files : StorageFiles σ) (outcomes : List Bool) : CallResult σ :=
  let removed := removeAuxiliarySnapshotFiles files outcomes
  if removed.ending = .returned true then persistIndexState state removed.files removed.later
  else removed

/-! ## Histories -/

/-- The directory, and the state of the repository that is open. -/
structure Process (σ : Type) where
  files : StorageFiles σ
  state : Option σ

inductive Operation (σ : Type)
  | openIndex
  | openEmpty
  /-- The transactions that a repository adopts and saves. -/
  | apply (change : σ → σ)
  | persistTransaction (transaction : σ)
  | invalidateCache
  | compactCache
  | takeState

/-- An operation with the outcomes of its system calls. -/
structure Call (σ : Type) where
  operation : Operation σ
  outcomes : List Bool

/-- What the operation sets out to save. -/
def Operation.saves : Operation σ → σ → Option σ
  | .apply change, state => some (change state)
  | .persistTransaction transaction, _ => some transaction
  | .compactCache, state => some state
  | .openIndex, _ | .openEmpty, _ | .invalidateCache, _ | .takeState, _ => none

def Operation.invalidates : Operation σ → Bool
  | .invalidateCache => true
  | _ => false

def Operation.isOpen : Operation σ → Bool
  | .openIndex | .openEmpty => true
  | _ => false

section Runs

variable [Inhabited σ]

/-- A snapshot file that may turn out not to be readable. -/
def readSnapshot (loadedFromBackup : Bool) (file : Option (SnapshotFile σ)) (readable : Bool) :
    Option (LoadedIndexState σ) :=
  if readable then loadIndexState loadedFromBackup file else none

/-- The state a repository is opened with, unless the process stops before. The backup
is read when the primary does not load. -/
def openWith (files : StorageFiles σ) : List Bool → Option σ
  | [] => none
  | readable :: outcomes =>
      match readSnapshot false files.primary readable, outcomes with
      | some loaded, _ => some loaded.state
      | none, [] => none
      | none, readable :: _ =>
          some ((readSnapshot true files.backup readable).elim default LoadedIndexState.state)

theorem openWith_readable (files : StorageFiles σ) :
    openWith files [true, true] = some (openState files) := by
  cases hprimary : loadIndexState false files.primary with
  | some loaded => simp [openWith, readSnapshot, openState, loadStored, hprimary]
  | none =>
      cases hbackup : loadIndexState true files.backup <;>
        simp [openWith, readSnapshot, openState, loadStored, hprimary, hbackup]

/-- The state in memory after the call returned. -/
def Operation.stateAfter (operation : Operation σ) (files : StorageFiles σ) (state : σ)
    (outcomes : List Bool) : σ :=
  match operation with
  | .openIndex => (openWith files outcomes).getD default
  | .apply change => change state
  | .openEmpty | .invalidateCache | .takeState => default
  | .persistTransaction _ | .compactCache => state

def Operation.effect (operation : Operation σ) (files : StorageFiles σ) (state : σ)
    (outcomes : List Bool) : CallResult σ :=
  match operation with
  | .openIndex =>
      ⟨files, if (openWith files outcomes).isSome then .returned true else .stopped, []⟩
  | .openEmpty | .takeState => ⟨files, .returned true, outcomes⟩
  | .apply change => persistIndexState (change state) files outcomes
  | .persistTransaction transaction => persistIndexState transaction files outcomes
  | .invalidateCache => removeSnapshotFiles files outcomes
  | .compactCache => Storage.compactCache state files outcomes

/-- Only an open index is worked on. -/
def Call.isMade (call : Call σ) (process : Process σ) : Bool :=
  process.state.isSome || call.operation.isOpen

def Call.result (call : Call σ) (process : Process σ) : CallResult σ :=
  if call.isMade process then
    call.operation.effect process.files (process.state.getD default) call.outcomes
  else ⟨process.files, .stopped, call.outcomes⟩

def Call.run (call : Call σ) (process : Process σ) : Process σ :=
  let result := call.result process
  ⟨result.files, if result.ending = .stopped then none
    else some (call.operation.stateAfter process.files (process.state.getD default)
      call.outcomes)⟩

def Call.attempt (call : Call σ) (process : Process σ) : Option σ :=
  if call.isMade process then call.operation.saves (process.state.getD default) else none

def runCalls (history : List (Call σ)) (process : Process σ) : Process σ :=
  history.foldl (fun process call ↦ call.run process) process

/-- The states that a history sets out to save. -/
def attempts : List (Call σ) → Process σ → List σ
  | [], _ => []
  | call :: later, process => (call.attempt process).toList ++ attempts later (call.run process)

/-- The call takes nothing away that only the directory has. -/
def Operation.spares (operation : Operation σ) (files : StorageFiles σ) : Bool :=
  match operation with
  | .invalidateCache => false
  | .compactCache => files.primary.isSome
  | _ => true

def spares : List (Call σ) → Process σ → Bool
  | [], _ => true
  | call :: later, process => call.operation.spares process.files && spares later (call.run process)

end Runs

theorem primary_removeAuxiliarySnapshotFiles (files : StorageFiles σ) (outcomes : List Bool) :
    (removeAuxiliarySnapshotFiles files outcomes).files.primary = files.primary := by
  rcases outcomes with _ | ⟨_ | _, _ | ⟨_ | _, _⟩⟩ <;> rfl

theorem removeSnapshotFiles_ok {files : StorageFiles σ} {outcomes : List Bool}
    (h : (removeSnapshotFiles files outcomes).ending = .returned true) :
    (removeSnapshotFiles files outcomes).files = ⟨none, none, none⟩ := by
  rcases outcomes with _ | ⟨_ | _, _ | ⟨_ | _, _ | ⟨_ | _, _⟩⟩⟩ <;> first | rfl | cases h

def emptyDirectory : StorageFiles σ := ⟨none, none, none⟩

/-! ## What is in the directory -/

/-- No file is taken for a snapshot but those that were saved, and the primary is always
a snapshot. -/
structure Sound (saved : Set σ) (files : StorageFiles σ) : Prop where
  primary_ne_torn : files.primary ≠ some .torn
  mem_of_primary : ∀ state, files.primary = some (.complete state) → state ∈ saved
  mem_of_backup : ∀ state, files.backup = some (.complete state) → state ∈ saved

theorem sound_emptyDirectory (saved : Set σ) : Sound saved (emptyDirectory : StorageFiles σ) :=
  ⟨by simp [emptyDirectory], by simp [emptyDirectory], by simp [emptyDirectory]⟩

namespace Sound

variable {saved : Set σ} {files : StorageFiles σ}

theorem mem_of_recovers (h : Sound saved files) {state : σ} (hstate : Recovers files state) :
    state ∈ saved := by
  rcases (recovers_iff files state).mp hstate with hprimary | ⟨-, hbackup⟩
  · exact h.mem_of_primary state hprimary
  · exact h.mem_of_backup state hbackup

theorem remove (h : Sound saved files) (candidate : Candidate) : Sound saved (files.remove candidate) := by
  cases candidate with
  | storage => exact ⟨by simp [StorageFiles.remove], by simp [StorageFiles.remove], h.mem_of_backup⟩
  | backup => exact ⟨h.primary_ne_torn, h.mem_of_primary, by simp [StorageFiles.remove]⟩
  | temp => exact ⟨h.primary_ne_torn, h.mem_of_primary, h.mem_of_backup⟩

theorem removeCandidates (h : Sound saved files) (candidates : List Candidate) (outcomes : List Bool) :
    Sound saved (Storage.removeCandidates files candidates outcomes).files := by
  induction candidates generalizing files outcomes with
  | nil => exact h
  | cons candidate rest ih =>
      match outcomes with
      | [] => exact h
      | false :: _ => exact h
      | true :: outcomes => exact ih (h.remove candidate) outcomes

/-- The new state is in the temporary file until it is installed. -/
theorem persistStep {new : σ} {config : PersistConfig σ} (hnew : new ∈ saved) (h : Sound saved config.files)
    (htemp : config.point.tempReady = true → config.files.temp = some (.complete new)) (succeeds : Bool) :
    Sound saved (Storage.persistStep new config succeeds).files := by
  obtain ⟨files, point⟩ := config
  cases point with
  | createDirAll | writeSnapshot | primaryExists | backupExists | staleBackupExists | returned ok => exact h
  | createTemp | flush =>
      cases succeeds
      · exact h
      · exact ⟨h.primary_ne_torn, h.mem_of_primary, h.mem_of_backup⟩
  | removeBackup | removeStaleBackup =>
      cases succeeds
      · exact h
      · exact h.remove .backup
  | renamePrimary =>
      cases succeeds
      · exact h
      · exact ⟨by simp [Storage.persistStep], by simp [Storage.persistStep], h.mem_of_primary⟩
  | renameTemp =>
      cases succeeds
      · exact h
      · have hprimary : files.temp = some (.complete new) := htemp rfl
        refine ⟨by simp [Storage.persistStep, hprimary], fun state hstate ↦ ?_, h.mem_of_backup⟩
        obtain rfl : new = state := by simpa [Storage.persistStep, hprimary] using hstate
        exact hnew

theorem persistRun {new : σ} {config : PersistConfig σ} (hnew : new ∈ saved) (h : Sound saved config.files)
    (hinstalls : Installs new config) (outcomes : List Bool) :
    Sound saved (Storage.persistRun new config outcomes).files := by
  induction outcomes generalizing config with
  | nil => exact h
  | cons succeeds rest ih => exact ih (h.persistStep hnew hinstalls.1 succeeds) (hinstalls.step succeeds)

end Sound

theorem installs_persistStart (new : σ) (files : StorageFiles σ) : Installs new (persistStart files) :=
  ⟨fun h ↦ (by cases h), fun h ↦ (by cases h)⟩

theorem Sound.persistIndexState {saved : Set σ} {files : StorageFiles σ} (h : Sound saved files) {new : σ}
    (hnew : new ∈ saved) (outcomes : List Bool) :
    Sound saved (Storage.persistIndexState new files outcomes).files :=
  Sound.persistRun hnew h (installs_persistStart new files) outcomes

theorem Sound.compactCache {saved : Set σ} {files : StorageFiles σ} (h : Sound saved files) {state : σ}
    (hstate : state ∈ saved) (outcomes : List Bool) :
    Sound saved (Storage.compactCache state files outcomes).files := by
  have hremoved := h.removeCandidates [.backup, .temp] outcomes
  by_cases hreturned : (removeAuxiliarySnapshotFiles files outcomes).ending = .returned true
  · simp only [Storage.compactCache, hreturned, if_true]
    exact hremoved.persistIndexState hstate _
  · simp only [Storage.compactCache, hreturned, if_false]
    exact hremoved

/-! ## What stays in the directory -/

theorem PersistInvariant.holds {old new : σ} {config : PersistConfig σ}
    (h : PersistInvariant old new config) :
    HoldsOld old config.files ∨ HoldsOld new config.files := by
  obtain ⟨files, point⟩ := config
  cases point with
  | createDirAll | createTemp | writeSnapshot | flush => exact Or.inl h
  | primaryExists | renameTemp => exact Or.inl h.1
  | backupExists | removeBackup | renamePrimary => exact Or.inl (Or.inl h.1)
  | staleBackupExists | removeStaleBackup => exact Or.inr (Or.inl h)
  | returned ok =>
      cases ok
      · exact Or.inl h
      · exact Or.inr (Or.inl h)

/-- One of these states would be loaded. -/
def Keeps (kept : Set σ) (files : StorageFiles σ) : Prop := ∃ state ∈ kept, HoldsOld state files

namespace Keeps

variable {kept : Set σ} {files : StorageFiles σ}

theorem persistIndexState (h : Keeps kept files) {new : σ} (hnew : new ∈ kept) (outcomes : List Bool) :
    Keeps kept (Storage.persistIndexState new files outcomes).files := by
  obtain ⟨old, hold, hholds⟩ := h
  have hstart : PersistInvariant old new (persistStart files) := hholds
  rcases (hstart.run outcomes).holds with hlast | hlast
  · exact ⟨old, hold, hlast⟩
  · exact ⟨new, hnew, hlast⟩

/-- The primary alone holds the state. -/
theorem compactCache (h : Keeps kept files) (hprimary : files.primary.isSome = true) {state : σ}
    (hstate : state ∈ kept) (outcomes : List Bool) :
    Keeps kept (Storage.compactCache state files outcomes).files := by
  obtain ⟨old, hold, hholds⟩ := h
  have hcomplete : files.primary = some (.complete old) := by
    rcases hholds with hcomplete | ⟨hnone, -⟩
    · exact hcomplete
    · simp [hnone] at hprimary
  have hkept : (removeAuxiliarySnapshotFiles files outcomes).files.primary = files.primary :=
    primary_removeAuxiliarySnapshotFiles files outcomes
  have hremoved : Keeps kept (removeAuxiliarySnapshotFiles files outcomes).files :=
    ⟨old, hold, Or.inl (hkept.trans hcomplete)⟩
  by_cases hreturned : (removeAuxiliarySnapshotFiles files outcomes).ending = .returned true
  · simp only [Storage.compactCache, hreturned, if_true]
    exact hremoved.persistIndexState hstate _
  · simp only [Storage.compactCache, hreturned, if_false]
    exact hremoved

end Keeps

section Calls

variable [Inhabited σ]

/-- What is kept by the saves, by the compaction and by the removal that a call may make is
kept by the call. -/
theorem Call.keeps {P : StorageFiles σ → Prop} {call : Call σ} {process : Process σ} (h : P process.files)
    (hpersist : ∀ new outcomes, call.attempt process = some new →
      P (persistIndexState new process.files outcomes).files)
    (hcompact : ∀ state outcomes, call.operation = .compactCache → call.attempt process = some state →
      P (compactCache state process.files outcomes).files)
    (hremove : ∀ outcomes, call.operation = .invalidateCache →
      P (removeSnapshotFiles process.files outcomes).files) :
    P (call.run process).files := by
  obtain ⟨operation, outcomes⟩ := call
  by_cases hmade : Call.isMade ⟨operation, outcomes⟩ process = true
  · simp only [Call.attempt, hmade, if_true] at hpersist hcompact
    simp only [Call.run, Call.result, hmade, if_true]
    cases operation with
    | openIndex | openEmpty | takeState => exact h
    | apply change => exact hpersist _ outcomes rfl
    | persistTransaction transaction => exact hpersist _ outcomes rfl
    | invalidateCache => exact hremove outcomes rfl
    | compactCache => exact hcompact _ outcomes rfl rfl
  · simp only [Call.run, Call.result, hmade]
    exact h

theorem runCalls_induction {motive : List (Call σ) → Process σ → Prop}
    (hstep : ∀ call later process, motive (call :: later) process → motive later (call.run process))
    {history : List (Call σ)} {process : Process σ} (h : motive history process) :
    motive [] (runCalls history process) := by
  induction history generalizing process with
  | nil => exact h
  | cons call later ih => exact ih (hstep call later process h)

theorem attempts_cons_subset {states : Set σ} {call : Call σ} {later : List (Call σ)}
    {process : Process σ} : (∀ state ∈ attempts (call :: later) process, state ∈ states) ↔
      (∀ state, call.attempt process = some state → state ∈ states) ∧
        ∀ state ∈ attempts later (call.run process), state ∈ states := by
  simp only [attempts, List.mem_append, Option.mem_toList, or_imp, forall_and]

theorem Sound.calls {saved : Set σ} {process : Process σ} (h : Sound saved process.files)
    (history : List (Call σ)) (hattempts : ∀ state ∈ attempts history process, state ∈ saved) :
    Sound saved (runCalls history process).files := by
  refine (runCalls_induction (motive := fun later process ↦ Sound saved process.files ∧
    ∀ state ∈ attempts later process, state ∈ saved) ?_ ⟨h, hattempts⟩).1
  rintro call later process ⟨hsound, hattempts⟩
  obtain ⟨hattempt, hlater⟩ := attempts_cons_subset.mp hattempts
  refine ⟨Call.keeps hsound (fun new outcomes hnew ↦ ?_) (fun state outcomes _ hstate ↦ ?_)
    (fun outcomes _ ↦ hsound.removeCandidates _ outcomes), hlater⟩
  · exact hsound.persistIndexState (hattempt new hnew) outcomes
  · exact hsound.compactCache (hattempt state hstate) outcomes

theorem Keeps.calls {kept : Set σ} {process : Process σ} (h : Keeps kept process.files)
    (history : List (Call σ)) (hspares : spares history process = true)
    (hattempts : ∀ state ∈ attempts history process, state ∈ kept) :
    Keeps kept (runCalls history process).files := by
  refine (runCalls_induction (motive := fun later process ↦ Keeps kept process.files ∧
    spares later process = true ∧ ∀ state ∈ attempts later process, state ∈ kept) ?_
    ⟨h, hspares, hattempts⟩).1
  rintro call later process ⟨hkeeps, hspares, hattempts⟩
  simp only [spares, Bool.and_eq_true] at hspares
  obtain ⟨hattempt, hlater⟩ := attempts_cons_subset.mp hattempts
  refine ⟨Call.keeps hkeeps (fun new outcomes hnew ↦ ?_) (fun state outcomes hcompacts hstate ↦ ?_)
    (fun outcomes hremoves ↦ ?_), hspares.2, hlater⟩
  · exact hkeeps.persistIndexState (hattempt new hnew) outcomes
  · exact hkeeps.compactCache (by simpa [hcompacts, Operation.spares] using hspares.1) (hattempt state hstate)
      outcomes
  · simp [hremoves, Operation.spares] at hspares

/-! ## Calls that succeed -/

omit [Inhabited σ] in
theorem primary_of_persisted {new : σ} {files : StorageFiles σ} {outcomes : List Bool}
    (h : (persistIndexState new files outcomes).ending = .returned true) :
    (persistIndexState new files outcomes).files.primary = some (.complete new) := by
  have hlast := (installs_persistStart new files).run outcomes
  refine hlast.2 ?_
  simp only [persistIndexState] at h
  cases hpoint : (persistRun new (persistStart files) outcomes).point with
  | returned ok =>
      obtain rfl : ok = true := by simpa [hpoint, PersistPoint.ending] using h
      rfl
  | _ => simp [hpoint, PersistPoint.ending] at h

omit [Inhabited σ] in
theorem primary_of_compacted {state : σ} {files : StorageFiles σ} {outcomes : List Bool}
    (h : (compactCache state files outcomes).ending = .returned true) :
    (compactCache state files outcomes).files.primary = some (.complete state) := by
  by_cases hreturned : (removeAuxiliarySnapshotFiles files outcomes).ending = .returned true
  · simp only [compactCache, hreturned, if_true] at h ⊢
    exact primary_of_persisted h
  · simp only [compactCache, hreturned, if_false] at h

theorem Call.primary_of_ok {call : Call σ} {process : Process σ} {new : σ}
    (hattempt : call.attempt process = some new) (h : (call.result process).ending = .returned true) :
    (call.run process).files.primary = some (.complete new) := by
  obtain ⟨operation, outcomes⟩ := call
  by_cases hmade : Call.isMade ⟨operation, outcomes⟩ process = true
  · simp only [Call.attempt, hmade, if_true] at hattempt
    simp only [Call.run, Call.result, hmade, if_true] at h ⊢
    cases operation with
    | openIndex | openEmpty | takeState | invalidateCache => cases hattempt
    | apply change =>
        obtain rfl : change _ = new := Option.some.inj hattempt
        exact primary_of_persisted h
    | persistTransaction transaction =>
        obtain rfl : transaction = new := Option.some.inj hattempt
        exact primary_of_persisted h
    | compactCache =>
        obtain rfl : _ = new := Option.some.inj hattempt
        exact primary_of_compacted h
  · simp [Call.attempt, hmade] at hattempt

theorem Call.empty_of_ok {call : Call σ} {process : Process σ}
    (hinvalidates : call.operation.invalidates = true)
    (h : (call.result process).ending = .returned true) : (call.run process).files = emptyDirectory := by
  obtain ⟨operation, outcomes⟩ := call
  by_cases hmade : Call.isMade ⟨operation, outcomes⟩ process = true
  · simp only [Call.run, Call.result, hmade, if_true] at h ⊢
    cases operation with
    | invalidateCache => exact removeSnapshotFiles_ok h
    | _ => cases hinvalidates
  · simp [Call.result, hmade] at h

theorem runCalls_append (earlier later : List (Call σ)) (process : Process σ) :
    runCalls (earlier ++ later) process = runCalls later (runCalls earlier process) :=
  List.foldl_append

/-- From an empty directory on, only states that were to be saved are loaded. One that was
saved, or one that came after it, stays until a call takes it away, and nothing from before
an invalidation comes back. -/
theorem history_durable (history : List (Call σ)) :
    let start : Process σ := ⟨emptyDirectory, none⟩
    let last := runCalls history start
    last.files.primary ≠ some .torn ∧
    (∀ state, Recovers last.files state → state ∈ attempts history start) ∧
    ∀ earlier call later, history = earlier ++ call :: later →
      (call.result (runCalls earlier start)).ending = .returned true →
      (∀ new, call.attempt (runCalls earlier start) = some new →
        spares later (call.run (runCalls earlier start)) = true →
        ∃ state ∈ new :: attempts later (call.run (runCalls earlier start)), Recovers last.files state) ∧
      (call.operation.invalidates = true → ∀ state, Recovers last.files state →
        state ∈ attempts later (call.run (runCalls earlier start))) := by
  have hempty : Sound {state | state ∈ attempts history ⟨emptyDirectory, none⟩}
      (Process.mk emptyDirectory none).files := sound_emptyDirectory _
  have hsound := hempty.calls history fun state hstate ↦ hstate
  refine ⟨hsound.primary_ne_torn, fun state hstate ↦ hsound.mem_of_recovers hstate, ?_⟩
  rintro earlier call later rfl hok
  rw [runCalls_append]
  refine ⟨fun new hattempt hspares ↦ ?_, fun hinvalidates state hstate ↦ ?_⟩
  · have hkeeps : Keeps {state | state ∈ new :: attempts later
      (call.run (runCalls earlier ⟨emptyDirectory, none⟩))}
        (call.run (runCalls earlier ⟨emptyDirectory, none⟩)).files :=
      ⟨new, List.mem_cons_self, Or.inl (Call.primary_of_ok hattempt hok)⟩
    obtain ⟨state, hmem, hholds⟩ := hkeeps.calls later hspares fun state hstate ↦
      List.mem_cons_of_mem new hstate
    exact ⟨state, hmem, hholds.recovers⟩
  · have hempty : Sound {state | state ∈ attempts later
      (call.run (runCalls earlier ⟨emptyDirectory, none⟩))}
        (call.run (runCalls earlier ⟨emptyDirectory, none⟩)).files := by
      rw [Call.empty_of_ok hinvalidates hok]
      exact sound_emptyDirectory _
    exact (hempty.calls later fun state hstate ↦ hstate).mem_of_recovers hstate

end Calls

/-- The first save is installed and the second one stops when the primary has been moved. -/
example : loadStored (runCalls [⟨.openIndex, [true, true]⟩, ⟨.persistTransaction 1, List.replicate 7 true⟩,
    ⟨.persistTransaction 2, List.replicate 7 true⟩] ⟨emptyDirectory, none⟩ : Process ℕ).files =
      some ⟨1, true⟩ := by decide

/-! ## Compacting -/

/-- Without its backup a directory loads what the primary holds. -/
theorem recovers_remove_backup {files : StorageFiles σ} {state : σ} :
    Recovers (files.remove .backup) state ↔ files.primary = some (.complete state) := by
  rw [recovers_iff]
  simp [StorageFiles.remove]

/-- A compaction that may stop or fail anywhere leaves the state it found or the one in
memory readable exactly when it finds the state in the primary file. -/
theorem compactCache_keeps_iff {files : StorageFiles σ} {old : σ} (hold : Recovers files old)
    (state : σ) :
    (∀ outcomes, Recovers (compactCache state files outcomes).files old ∨
      Recovers (compactCache state files outcomes).files state) ↔
        files.primary = some (.complete old) := by
  constructor
  · intro hkeeps
    -- It stops when the backup is gone.
    have hstopped : (compactCache state files [true]).files = files.remove .backup := rfl
    have hleft := hkeeps [true]
    rw [hstopped, recovers_remove_backup, recovers_remove_backup] at hleft
    rcases (recovers_iff files old).mp hold with hprimary | ⟨hnone | htorn, -⟩
    · exact hprimary
    · simp [hnone] at hleft
    · simp [htorn] at hleft
  · intro hprimary outcomes
    have hkeeps : Keeps ({old, state} : Set σ) files :=
      ⟨old, Set.mem_insert _ _, Or.inl hprimary⟩
    obtain ⟨found, hfound, hholds⟩ := hkeeps.compactCache (by rw [hprimary]; rfl)
      (Set.mem_insert_of_mem _ (Set.mem_singleton state)) outcomes
    rcases hfound with rfl | rfl
    · exact Or.inl hholds.recovers
    · exact Or.inr hholds.recovers

theorem compactCache_loses_backup : ¬ ∀ outcomes,
    Recovers (compactCache 1 ⟨none, some (.complete 1), none⟩ outcomes).files 1 ∨
      Recovers (compactCache 1 ⟨none, some (.complete 1), none⟩ outcomes).files 1 := by
  have hold : Recovers ⟨none, some (.complete 1), none⟩ 1 := ⟨⟨1, true⟩, rfl, rfl⟩
  exact (compactCache_keeps_iff hold 1).not.mpr (by decide)

end Storage

end WinBlaze
