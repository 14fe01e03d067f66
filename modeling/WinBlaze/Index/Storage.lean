import WinBlaze.Index.Store

/-!
# Replacing the snapshot on disk

The storage directory holds a primary, a backup and a temporary file. A save
writes the temporary file, moves the primary aside as the backup and installs
the temporary file. The process may stop after any step, and any step may
fail; the loader prefers the primary and falls back to the backup.
-/

namespace WinBlaze

namespace Storage

open BufferedIndexTransaction

/-- A snapshot file loads exactly when it was written completely. -/
inductive SnapshotFile (σ : Type)
  | complete (state : σ)
  | torn
  deriving DecidableEq, Repr

structure StorageFiles (σ : Type) where
  primary : Option (SnapshotFile σ)
  backup : Option (SnapshotFile σ)
  temp : Option (SnapshotFile σ)
  deriving DecidableEq, Repr

structure LoadedIndexState (σ : Type) where
  state : σ
  cacheLoadedFromBackup : Bool
  deriving DecidableEq, Repr

variable {σ : Type}

def loadIndexState (loadedFromBackup : Bool) : Option (SnapshotFile σ) → Option (LoadedIndexState σ)
  | some (.complete state) => some ⟨state, loadedFromBackup⟩
  | some .torn => none
  | none => none

def loadStored (files : StorageFiles σ) : Option (LoadedIndexState σ) :=
  loadIndexState false files.primary <|> loadIndexState true files.backup

/-- The state a repository is opened with. -/
def openState [Inhabited σ] (files : StorageFiles σ) : σ :=
  match loadStored files with
  | some loaded => loaded.state
  | none => default

/-- A snapshot is found on disk and it holds `state`. -/
def Recovers (files : StorageFiles σ) (state : σ) : Prop :=
  ∃ loaded, loadStored files = some loaded ∧ loaded.state = state

theorem openState_of_recovers [Inhabited σ] {files : StorageFiles σ} {state : σ}
    (h : Recovers files state) : openState files = state := by
  obtain ⟨loaded, hloaded, rfl⟩ := h
  rw [openState, hloaded]

theorem recovers_unique {files : StorageFiles σ} {s t : σ} (hs : Recovers files s)
    (ht : Recovers files t) : s = t := by
  obtain ⟨a, ha, rfl⟩ := hs
  obtain ⟨b, hb, rfl⟩ := ht
  rw [ha] at hb
  cases hb
  rfl

/-- Where a readable state comes from. -/
theorem recovers_iff (files : StorageFiles σ) (state : σ) :
    Recovers files state ↔ files.primary = some (.complete state) ∨
      ((files.primary = none ∨ files.primary = some .torn) ∧
        files.backup = some (.complete state)) := by
  obtain ⟨primary, backup, temp⟩ := files
  rcases primary with _ | _ | _ <;> rcases backup with _ | _ | _ <;>
    simp [Recovers, loadStored, loadIndexState]

/-! ## The steps of a save -/

/-- The next system call of `persistSnapshotWith`, or its result. -/
inductive PersistPoint
  | createDirAll | createTemp | writeSnapshot | flush
  | primaryExists | backupExists | removeBackup | renamePrimary
  | renameTemp | staleBackupExists | removeStaleBackup
  | returned (ok : Bool)
  deriving DecidableEq, Repr

structure PersistConfig (σ : Type) where
  files : StorageFiles σ
  point : PersistPoint
  deriving DecidableEq, Repr

/-- One system call; `succeeds` tells whether it succeeds. A failing existence
test reports that the file is absent. -/
def persistStep (new : σ) (config : PersistConfig σ) (succeeds : Bool) : PersistConfig σ :=
  let files := config.files
  match config.point with
  | .createDirAll => ⟨files, if succeeds then .createTemp else .returned false⟩
  | .createTemp =>
      if succeeds then ⟨{ files with temp := some .torn }, .writeSnapshot⟩
      else ⟨files, .returned false⟩
  | .writeSnapshot => ⟨files, if succeeds then .flush else .returned false⟩
  | .flush =>
      if succeeds then ⟨{ files with temp := some (.complete new) }, .primaryExists⟩
      else ⟨files, .returned false⟩
  | .primaryExists =>
      ⟨files, if succeeds && files.primary.isSome then .backupExists else .renameTemp⟩
  | .backupExists =>
      ⟨files, if succeeds && files.backup.isSome then .removeBackup else .renamePrimary⟩
  -- The result of removing the old backup is ignored.
  | .removeBackup =>
      ⟨if succeeds then { files with backup := none } else files, .renamePrimary⟩
  | .renamePrimary =>
      if succeeds then ⟨{ files with primary := none, backup := files.primary }, .renameTemp⟩
      else ⟨files, .returned false⟩
  | .renameTemp =>
      if succeeds then ⟨{ files with primary := files.temp, temp := none }, .staleBackupExists⟩
      else ⟨files, .returned false⟩
  | .staleBackupExists =>
      ⟨files, if succeeds && files.backup.isSome then .removeStaleBackup else .returned true⟩
  | .removeStaleBackup =>
      ⟨if succeeds then { files with backup := none } else files, .returned true⟩
  | .returned ok => ⟨files, .returned ok⟩

/-- The save stopped after as many system calls as outcomes are given. -/
def persistRun (new : σ) (config : PersistConfig σ) (outcomes : List Bool) : PersistConfig σ :=
  outcomes.foldl (persistStep new) config

def persistStart (files : StorageFiles σ) : PersistConfig σ := ⟨files, .createDirAll⟩

/-- A whole save: whether it returned `Ok`, and the files it left. System calls
beyond the given outcomes succeed. -/
def persistSnapshotWith (new : σ) (outcomes : List Bool) (files : StorageFiles σ) :
    Bool × StorageFiles σ :=
  let last := persistRun new (persistStart files) (outcomes ++ List.replicate 11 true)
  (last.point = .returned true, last.files)

/-! ## What a save keeps readable -/

/-- The old state is readable although no file that hides it is corrupt. -/
def HoldsOld (old : σ) (files : StorageFiles σ) : Prop :=
  files.primary = some (.complete old) ∨
    (files.primary = none ∧ files.backup = some (.complete old))

/-- The files at each point of a save that started without a corrupt primary. -/
def PersistInvariant (old new : σ) (config : PersistConfig σ) : Prop :=
  match config.point with
  | .createDirAll | .createTemp | .writeSnapshot | .flush | .returned false =>
      HoldsOld old config.files
  | .primaryExists | .renameTemp =>
      HoldsOld old config.files ∧ config.files.temp = some (.complete new)
  | .backupExists | .removeBackup | .renamePrimary =>
      config.files.primary = some (.complete old) ∧ config.files.temp = some (.complete new)
  | .staleBackupExists | .removeStaleBackup | .returned true =>
      config.files.primary = some (.complete new)

theorem HoldsOld.recovers {old : σ} {files : StorageFiles σ} (h : HoldsOld old files) :
    Recovers files old := by
  rw [recovers_iff]
  rcases h with h | ⟨hprimary, hbackup⟩
  · exact Or.inl h
  · exact Or.inr ⟨Or.inl hprimary, hbackup⟩

theorem HoldsOld.of_recovers {old : σ} {files : StorageFiles σ} (h : Recovers files old)
    (hprimary : files.primary ≠ some .torn) : HoldsOld old files := by
  rcases (recovers_iff files old).mp h with h | ⟨h | h, hbackup⟩
  · exact Or.inl h
  · exact Or.inr ⟨h, hbackup⟩
  · exact (hprimary h).elim

theorem PersistInvariant.step {old new : σ} {config : PersistConfig σ}
    (h : PersistInvariant old new config) (succeeds : Bool) :
    PersistInvariant old new (persistStep new config succeeds) := by
  obtain ⟨files, point⟩ := config
  cases point with
  | createDirAll => cases succeeds <;> exact h
  | createTemp => cases succeeds <;> exact h
  | writeSnapshot => cases succeeds <;> exact h
  | flush =>
      cases succeeds
      · exact h
      · exact ⟨h, rfl⟩
  | primaryExists =>
      obtain ⟨hold, htemp⟩ := h
      cases hprimary : files.primary with
      | none => simpa [persistStep, PersistInvariant, hprimary] using ⟨hold, htemp⟩
      | some file =>
          have hfile : files.primary = some (.complete old) := by
            rcases hold with hold | ⟨hnone, _⟩
            · exact hold
            · rw [hprimary] at hnone
              cases hnone
          cases succeeds
          · exact ⟨hold, htemp⟩
          · have hpoint : (persistStep new ⟨files, .primaryExists⟩ true).point = .backupExists := by
              simp [persistStep, hprimary]
            rw [PersistInvariant, hpoint]
            exact ⟨hfile, htemp⟩
  | backupExists => cases hbackup : (succeeds && files.backup.isSome) <;>
      simpa [persistStep, PersistInvariant, hbackup] using h
  | removeBackup => cases succeeds <;> exact h
  | renamePrimary =>
      cases succeeds
      · exact Or.inl h.1
      · exact ⟨Or.inr ⟨rfl, h.1⟩, h.2⟩
  | renameTemp =>
      cases succeeds
      · exact h.1
      · exact h.2
  | staleBackupExists => cases hbackup : (succeeds && files.backup.isSome) <;>
      simpa [persistStep, PersistInvariant, hbackup] using h
  | removeStaleBackup => cases succeeds <;> exact h
  | returned ok => exact h

theorem PersistInvariant.run {old new : σ} {config : PersistConfig σ}
    (h : PersistInvariant old new config) (outcomes : List Bool) :
    PersistInvariant old new (persistRun new config outcomes) := by
  induction outcomes generalizing config with
  | nil => exact h
  | cons succeeds rest ih => exact ih (h.step succeeds)

theorem PersistInvariant.recovers {old new : σ} {config : PersistConfig σ}
    (h : PersistInvariant old new config) :
    Recovers config.files old ∨ Recovers config.files new := by
  obtain ⟨files, point⟩ := config
  have hnew : files.primary = some (.complete new) → Recovers files new := fun hprimary ↦
    (recovers_iff files new).mpr (Or.inl hprimary)
  have hold : files.primary = some (.complete old) → Recovers files old := fun hprimary ↦
    (recovers_iff files old).mpr (Or.inl hprimary)
  cases point with
  | createDirAll | createTemp | writeSnapshot | flush => exact Or.inl (HoldsOld.recovers h)
  | primaryExists | renameTemp => exact Or.inl (HoldsOld.recovers h.1)
  | backupExists | removeBackup | renamePrimary => exact Or.inl (hold h.1)
  | staleBackupExists | removeStaleBackup => exact Or.inr (hnew h)
  | returned ok =>
      cases ok
      · exact Or.inl (HoldsOld.recovers h)
      · exact Or.inr (hnew h)

theorem PersistInvariant.returned_ok {old new : σ} {config : PersistConfig σ}
    (h : PersistInvariant old new config) (hok : config.point = .returned true) :
    Recovers config.files new := by
  rw [PersistInvariant, hok] at h
  exact (recovers_iff config.files new).mpr (Or.inl h)

/-- The points at which the temporary file is complete. -/
def PersistPoint.tempReady : PersistPoint → Bool
  | .primaryExists | .backupExists | .removeBackup | .renamePrimary | .renameTemp => true
  | .createDirAll | .createTemp | .writeSnapshot | .flush => false
  | .staleBackupExists | .removeStaleBackup | .returned _ => false

/-- Whatever loads after a save loaded before it or is the new state. -/
def LoadsOnly (old new : σ) (config : PersistConfig σ) : Prop :=
  (∀ state, Recovers config.files state → state = old ∨ state = new) ∧
    (config.point.tempReady = true → config.files.temp = some (.complete new))

theorem recovers_of_backup_removed {files : StorageFiles σ} {state : σ}
    (h : Recovers { files with backup := none } state) : Recovers files state := by
  rw [recovers_iff] at h ⊢
  rcases h with h | ⟨_, h⟩
  · exact Or.inl h
  · cases h

theorem recovers_of_primary_renamed {files : StorageFiles σ} {state : σ}
    (h : Recovers { files with primary := none, backup := files.primary } state) :
    Recovers files state := by
  rw [recovers_iff] at h ⊢
  rcases h with h | ⟨_, h⟩
  · cases h
  · exact Or.inl h

theorem LoadsOnly.step {old new : σ} {config : PersistConfig σ} (h : LoadsOnly old new config)
    (succeeds : Bool) : LoadsOnly old new (persistStep new config succeeds) := by
  obtain ⟨files, point⟩ := config
  obtain ⟨hloads, htemp⟩ := h
  have hremoved : ∀ state, Recovers { files with backup := none } state →
      state = old ∨ state = new := fun state hstate ↦
    hloads state (recovers_of_backup_removed hstate)
  cases point with
  | createDirAll | createTemp | writeSnapshot =>
      cases succeeds <;> exact ⟨fun state hstate ↦ hloads state hstate, fun h ↦ nomatch h⟩
  | flush =>
      cases succeeds
      · exact ⟨hloads, fun h ↦ nomatch h⟩
      · exact ⟨fun state hstate ↦ hloads state hstate, fun _ ↦ rfl⟩
  | primaryExists | backupExists => exact ⟨hloads, fun _ ↦ htemp rfl⟩
  | removeBackup =>
      cases succeeds
      · exact ⟨hloads, fun _ ↦ htemp rfl⟩
      · exact ⟨hremoved, fun _ ↦ htemp rfl⟩
  | renamePrimary =>
      cases succeeds
      · exact ⟨hloads, fun h ↦ nomatch h⟩
      · exact ⟨fun state hstate ↦ hloads state (recovers_of_primary_renamed hstate),
          fun _ ↦ htemp rfl⟩
  | renameTemp =>
      cases succeeds
      · exact ⟨hloads, fun h ↦ nomatch h⟩
      · refine ⟨fun state hstate ↦ Or.inr ?_, fun h ↦ nomatch h⟩
        exact recovers_unique hstate ((recovers_iff _ _).mpr (Or.inl (htemp rfl)))
  | staleBackupExists =>
      refine ⟨hloads, fun h ↦ ?_⟩
      cases hstale : (succeeds && files.backup.isSome) <;>
        simp [persistStep, hstale, PersistPoint.tempReady] at h
  | removeStaleBackup =>
      cases succeeds
      · exact ⟨hloads, fun h ↦ nomatch h⟩
      · exact ⟨hremoved, fun h ↦ nomatch h⟩
  | returned ok => exact ⟨hloads, fun h ↦ nomatch h⟩

theorem LoadsOnly.run {old new : σ} {config : PersistConfig σ} (h : LoadsOnly old new config)
    (outcomes : List Bool) : LoadsOnly old new (persistRun new config outcomes) := by
  induction outcomes generalizing config with
  | nil => exact h
  | cons succeeds rest ih => exact ih (h.step succeeds)

/-- After a save the disk loads what it loaded before, the new state or
nothing. -/
theorem recovers_persistSnapshotWith {files : StorageFiles σ} {old new state : σ}
    (hold : ∀ state, Recovers files state → state = old) (outcomes : List Bool)
    (hstate : Recovers (persistSnapshotWith new outcomes files).2 state) :
    state = old ∨ state = new := by
  have hstart : LoadsOnly old new (persistStart files) :=
    ⟨fun state hstate ↦ Or.inl (hold state hstate), fun h ↦ nomatch h⟩
  exact (hstart.run _).1 state hstate

/-- The points after which the save can only succeed. -/
def PersistPoint.installed : PersistPoint → Bool
  | .staleBackupExists | .removeStaleBackup | .returned true => true
  | _ => false

/-- Where the new state is while a save is on its way to success. -/
def Installs (new : σ) (config : PersistConfig σ) : Prop :=
  (config.point.tempReady = true → config.files.temp = some (.complete new)) ∧
    (config.point.installed = true → config.files.primary = some (.complete new))

theorem Installs.step {new : σ} {config : PersistConfig σ} (h : Installs new config)
    (succeeds : Bool) : Installs new (persistStep new config succeeds) := by
  obtain ⟨files, point⟩ := config
  obtain ⟨htemp, hprimary⟩ := h
  cases point with
  | createDirAll | createTemp | writeSnapshot =>
      cases succeeds <;> exact ⟨fun h ↦ (by cases h), fun h ↦ (by cases h)⟩
  | flush =>
      cases succeeds
      · exact ⟨fun h ↦ (by cases h), fun h ↦ (by cases h)⟩
      · exact ⟨fun _ ↦ rfl, fun h ↦ (by cases h)⟩
  | primaryExists =>
      refine ⟨fun _ ↦ htemp rfl, fun h ↦ ?_⟩
      cases hexists : (succeeds && files.primary.isSome) <;>
        simp [persistStep, hexists, PersistPoint.installed] at h
  | backupExists =>
      refine ⟨fun _ ↦ htemp rfl, fun h ↦ ?_⟩
      cases hexists : (succeeds && files.backup.isSome) <;>
        simp [persistStep, hexists, PersistPoint.installed] at h
  | removeBackup => cases succeeds <;> exact ⟨fun _ ↦ htemp rfl, fun h ↦ (by cases h)⟩
  | renamePrimary =>
      cases succeeds
      · exact ⟨fun h ↦ (by cases h), fun h ↦ (by cases h)⟩
      · exact ⟨fun _ ↦ htemp rfl, fun h ↦ (by cases h)⟩
  | renameTemp =>
      cases succeeds
      · exact ⟨fun h ↦ (by cases h), fun h ↦ (by cases h)⟩
      · exact ⟨fun h ↦ (by cases h), fun _ ↦ htemp rfl⟩
  | staleBackupExists =>
      refine ⟨fun h ↦ ?_, fun _ ↦ hprimary rfl⟩
      cases hstale : (succeeds && files.backup.isSome) <;>
        simp [persistStep, hstale, PersistPoint.tempReady] at h
  | removeStaleBackup =>
      cases succeeds <;> exact ⟨fun h ↦ (by cases h), fun _ ↦ hprimary rfl⟩
  | returned ok => exact ⟨htemp, hprimary⟩

theorem Installs.run {new : σ} {config : PersistConfig σ} (h : Installs new config)
    (outcomes : List Bool) : Installs new (persistRun new config outcomes) := by
  induction outcomes generalizing config with
  | nil => exact h
  | cons succeeds rest ih => exact ih (h.step succeeds)

/-- After a save that returned `Ok` the disk loads the new state, whatever the
files were before. -/
theorem recovers_of_persisted {new : σ} {outcomes : List Bool} {files : StorageFiles σ}
    (hok : (persistSnapshotWith new outcomes files).1 = true) :
    Recovers (persistSnapshotWith new outcomes files).2 new := by
  have hstart : Installs new (persistStart files) := ⟨fun h ↦ (by cases h), fun h ↦ (by cases h)⟩
  have hlast := hstart.run (outcomes ++ List.replicate 11 true)
  have hpoint := of_decide_eq_true hok
  refine (recovers_iff _ _).mpr (Or.inl (hlast.2 ?_))
  rw [hpoint]
  rfl

/-- Without faults a save returns `Ok`. -/
theorem persistSnapshotWith_ok (new : σ) (files : StorageFiles σ) :
    (persistSnapshotWith new [] files).1 = true := by
  obtain ⟨primary, backup, temp⟩ := files
  cases primary <;> cases backup <;> rfl

/-- Once the only good copy is a backup behind a corrupt primary, the save
removes it before anything else holds a snapshot. -/
theorem persistRun_removes_only_copy {files : StorageFiles σ} {old new : σ}
    (hold : Recovers files old) (hprimary : files.primary = some .torn) :
    persistRun new (persistStart files) (List.replicate 7 true) =
      ⟨⟨some .torn, none, some (.complete new)⟩, .renamePrimary⟩ := by
  obtain ⟨primary, backup, temp⟩ := files
  obtain rfl : primary = some .torn := hprimary
  have hbackup : backup = some (.complete old) := by
    rcases (recovers_iff _ _).mp hold with h | ⟨_, h⟩
    · cases h
    · exact h
  subst hbackup
  rfl

theorem not_recovers_of_torn {temp : Option (SnapshotFile σ)} (state : σ) :
    ¬Recovers ⟨some .torn, none, temp⟩ state := by
  rintro ⟨loaded, hloaded, _⟩
  cases hloaded

/-- A save that may stop or fail anywhere leaves the old or the new state
readable, and a finished save the new one, exactly when the primary file it
starts from is not corrupt. -/
theorem persist_keeps_recoverable_iff (files : StorageFiles σ) (old new : σ)
    (hold : Recovers files old) :
    (∀ outcomes,
      (Recovers (persistRun new (persistStart files) outcomes).files old ∨
        Recovers (persistRun new (persistStart files) outcomes).files new) ∧
      ((persistRun new (persistStart files) outcomes).point = .returned true →
        Recovers (persistRun new (persistStart files) outcomes).files new)) ↔
      files.primary ≠ some .torn := by
  constructor
  · intro hkeeps hprimary
    have hrecovers := (hkeeps (List.replicate 7 true)).1
    rw [persistRun_removes_only_copy hold hprimary] at hrecovers
    rcases hrecovers with h | h
    · exact not_recovers_of_torn old h
    · exact not_recovers_of_torn new h
  · intro hprimary outcomes
    have hstart : PersistInvariant old new (persistStart files) :=
      HoldsOld.of_recovers hold hprimary
    have hrun := hstart.run outcomes
    exact ⟨hrun.recovers, hrun.returned_ok⟩

/-- An index of one directory. -/
def oneDirectory : BufferedIndexTransaction :=
  insertDirectory default ⟨⟨5⟩, none, "C:\\", "C:\\", 0, 0, 0, 0⟩

theorem persist_keeps_recoverable_intact :
    Recovers (persistRun oneDirectory (persistStart ⟨some (.complete default), none, none⟩)
      (List.replicate 10 true)).files oneDirectory :=
  ((persist_keeps_recoverable_iff ⟨some (.complete default), none, none⟩ default oneDirectory
    ⟨⟨default, false⟩, rfl, rfl⟩).mpr (by intro h; cases h) (List.replicate 10 true)).2 rfl

/-- The primary is damaged and the backup holds the index. -/
def damagedFiles : StorageFiles BufferedIndexTransaction :=
  ⟨some .torn, some (.complete oneDirectory), none⟩

theorem recovers_damagedFiles : Recovers damagedFiles oneDirectory :=
  ⟨⟨oneDirectory, true⟩, rfl, rfl⟩

theorem persist_loses_damagedFiles :
    ¬ ∀ (files : StorageFiles BufferedIndexTransaction) (old new : BufferedIndexTransaction),
      Recovers files old → ∀ outcomes,
        Recovers (persistRun new (persistStart files) outcomes).files old ∨
          Recovers (persistRun new (persistStart files) outcomes).files new := by
  intro hkeeps
  have hrecovers := hkeeps damagedFiles oneDirectory oneDirectory recovers_damagedFiles
    (List.replicate 7 true)
  rw [persistRun_removes_only_copy recovers_damagedFiles rfl] at hrecovers
  rcases hrecovers with h | h
  · exact not_recovers_of_torn oneDirectory h
  · exact not_recovers_of_torn oneDirectory h

end Storage

end WinBlaze
