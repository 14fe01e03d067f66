import WinBlaze.Native.Bridge

/-!
# A directory walk after an aborted MFT pass

When the fast enumeration fails in the middle, the records it already emitted
stay in the transaction that the directory walk continues to fill.
-/

namespace WinBlaze

open BufferedIndexTransaction

/-! ## The records of an event sequence -/

def emittedVolumes (events : List ScanEvent) : List VolumeRecord :=
  events.filterMap fun event ↦
    match event with
    | .sessionStarted volume | .volumeDiscovered volume => some volume
    | _ => none

def emittedDirectories (events : List ScanEvent) : List DirectoryRecord :=
  events.filterMap fun event ↦
    match event with
    | .directoryFound directory => some directory
    | _ => none

def emittedFiles (events : List ScanEvent) : List FileRecord :=
  events.filterMap fun event ↦
    match event with
    | .fileFound file => some file
    | _ => none

/-- Folding events inserts the records they carry, in order. -/
theorem foldScanEvents_records (tx : BufferedIndexTransaction) (events : List ScanEvent) :
    (foldScanEvents tx events).volumes = (emittedVolumes events).foldl .insert tx.volumes ∧
      (foldScanEvents tx events).directories =
        (emittedDirectories events).foldl .insert tx.directories ∧
      (foldScanEvents tx events).files = (emittedFiles events).foldl .insert tx.files := by
  induction events generalizing tx with
  | nil => exact ⟨rfl, rfl, rfl⟩
  | cons event rest ih =>
      have h := ih (persistScanEvent tx event).2
      cases event <;> exact h

theorem emittedVolumes_of_records {events : List ScanEvent}
    (h : ∀ event ∈ events, event.isRecord = true) : emittedVolumes events = [] := by
  rw [emittedVolumes, List.filterMap_eq_nil_iff]
  intro event hevent
  have hrecord := h event hevent
  cases event <;> first | rfl | cases hrecord

/-- The two transactions hold the same volumes, directories and files. -/
structure SameCatalog (a b : BufferedIndexTransaction) : Prop where
  volumes : a.volumes.Same b.volumes
  directories : a.directories.Same b.directories
  files : a.files.Same b.files

/-- Nothing of an aborted pass survives the walk that follows it exactly when
the walk emits every directory id and every file id of the aborted pass. -/
theorem aborted_pass_forgotten_iff (aborted fallback : List ScanEvent)
    (hrecords : ∀ event ∈ aborted, event.isRecord = true) :
    SameCatalog (foldScanEvents {} (aborted ++ fallback)) (foldScanEvents {} fallback) ↔
      (∀ directory ∈ emittedDirectories aborted,
        directory.id ∈ (emittedDirectories fallback).map DirectoryRecord.id) ∧
      (∀ file ∈ emittedFiles aborted, file.id ∈ (emittedFiles fallback).map FileRecord.id) := by
  obtain ⟨hvolumes, hdirectories, hfiles⟩ := foldScanEvents_records {} aborted
  obtain ⟨hvolumes₁, hdirectories₁, hfiles₁⟩ :=
    foldScanEvents_records (foldScanEvents {} aborted) fallback
  obtain ⟨hvolumes₂, hdirectories₂, hfiles₂⟩ := foldScanEvents_records {} fallback
  rw [hdirectories] at hdirectories₁
  rw [hfiles] at hfiles₁
  rw [hvolumes, emittedVolumes_of_records hrecords] at hvolumes₁
  have hdirectoriesIff := KeyedArena.same_foldl_ofList_iff DirectoryRecord.id
    (emittedDirectories aborted) (emittedDirectories fallback)
  have hfilesIff := KeyedArena.same_foldl_ofList_iff FileRecord.id
    (emittedFiles aborted) (emittedFiles fallback)
  rw [foldScanEvents_append]
  constructor
  · intro hsame
    have hsameDirectories := hsame.directories
    have hsameFiles := hsame.files
    rw [hdirectories₁, hdirectories₂] at hsameDirectories
    rw [hfiles₁, hfiles₂] at hsameFiles
    exact ⟨hdirectoriesIff.mp hsameDirectories, hfilesIff.mp hsameFiles⟩
  · rintro ⟨hdirectoryIds, hfileIds⟩
    refine ⟨?_, ?_, ?_⟩
    · rw [hvolumes₁, hvolumes₂]
      exact .refl _
    · rw [hdirectories₁, hdirectories₂]
      exact hdirectoriesIff.mpr hdirectoryIds
    · rw [hfiles₁, hfiles₂]
      exact hfilesIff.mpr hfileIds

/-- The walk of a volume with the single directory `C:\\Users`. -/
def usersWalk : List ScanEvent := [
  .sessionStarted ⟨⟨0⟩, "C:\\", none, .unknown, 0, 0, ⟨0⟩⟩,
  .directoryFound ⟨⟨5⟩, none, "C:\\", "C:\\", 0, 0, 0, 0⟩,
  .progress ⟨1, 0, 0, 0⟩,
  .directoryFound ⟨⟨6⟩, some ⟨5⟩, "Users", "C:\\Users", 0, 0, 0, 0⟩,
  .progress ⟨2, 0, 0, 0⟩,
  .summary ⟨0, 2, 0, 0⟩,
  .completed]

/-- What the fast enumeration of the same volume emitted before it failed. -/
def usersPass : List ScanEvent := [
  .directoryFound ⟨⟨5⟩, none, "C:\\", "C:\\", 0, 0, 0, 0⟩,
  .directoryFound ⟨⟨1000⟩, some ⟨5⟩, "Users", "C:\\Users", 0, 0, 0, 0⟩,
  .progress ⟨2048, 4096, 2097152, 4194304⟩]

theorem aborted_pass_forgotten_root :
    SameCatalog (foldScanEvents {} (usersPass.take 1 ++ usersWalk)) (foldScanEvents {} usersWalk) :=
  (aborted_pass_forgotten_iff (usersPass.take 1) usersWalk (by decide)).mpr
    ⟨by decide, by decide⟩

theorem aborted_pass_survives :
    ¬ SameCatalog (foldScanEvents {} (usersPass ++ usersWalk)) (foldScanEvents {} usersWalk) := by
  intro hsame
  have hlength : ((foldScanEvents {} (usersPass ++ usersWalk)).directories.records).length = 3 := by
    decide
  have hlength' : ((foldScanEvents {} usersWalk).directories.records).length = 2 := by decide
  rw [hsame.directories.length_eq, hlength'] at hlength
  cases hlength

end WinBlaze
