import WinBlaze.Index.Merge
import WinBlaze.Index.Repository

/-!
# Rescans merged by id

A merge by id leaves a file alone when none of the compared fields changed, and
the path is not one of them. A file that was stored with its path keeps it when
a directory above it is renamed.
-/

namespace WinBlaze

open BufferedIndexTransaction

/-- The index holds the files of the scan, with the same paths and metadata. -/
def FollowsScan (state transaction : BufferedIndexTransaction) : Prop :=
  state.snapshotFilesWithPaths = transaction.snapshotFilesWithPaths

/-- A file that the merge leaves alone is stored without a path, or with the
path it has in the scan. -/
def KeepsFreshPaths (state transaction : BufferedIndexTransaction) : Prop :=
  ∀ file ∈ transaction.files.records, ∀ old ∈ state.files.records, old.id = file.id →
    old.unchangedFrom file →
      old.fullPath = "" ∨ old.fullPath = pathFromParent transaction.directories file

instance FollowsScan.decidable (state transaction : BufferedIndexTransaction) :
    Decidable (FollowsScan state transaction) :=
  inferInstanceAs (Decidable (_ = _))

instance KeepsFreshPaths.decidable (state transaction : BufferedIndexTransaction) :
    Decidable (KeepsFreshPaths state transaction) :=
  inferInstanceAs (Decidable (∀ _ ∈ _, _))

/-! ## Files with their paths -/

section Paths

variable (directories : DirectoryRecords)

theorem pathFromParent_congr {old file : FileRecord} (hname : old.name = file.name)
    (hparent : old.parentDirectoryId = file.parentDirectoryId) :
    pathFromParent directories old = pathFromParent directories file := by
  unfold pathFromParent
  rw [hname, hparent]

theorem withPath_of_empty {file : FileRecord} (h : file.fullPath = "") :
    file.withPath directories = { file with fullPath := pathFromParent directories file } := by
  unfold FileRecord.withPath
  rw [h]
  rfl

theorem withPath_of_ne {file : FileRecord} (h : file.fullPath ≠ "") :
    file.withPath directories = file := by
  unfold FileRecord.withPath
  exact if_neg fun hempty ↦ h (String.isEmpty_iff.mp hempty)

theorem withPath_unchangedFrom_iff (before : DirectoryRecords) (old file : FileRecord) :
    (old.withPath before).unchangedFrom (file.withPath directories) ↔ old.unchangedFrom file := by
  simp only [FileRecord.withPath_eq, FileRecord.unchangedFrom]

/-- An unchanged file has its path in the scan exactly when it is stored without
a path or with this one. -/
theorem withPath_eq_iff {old file : FileRecord} (hid : old.id = file.id)
    (hsame : old.unchangedFrom file) (hempty : file.fullPath = "") :
    old.withPath directories = file.withPath directories ↔
      old.fullPath = "" ∨ old.fullPath = pathFromParent directories file := by
  obtain ⟨hname, hparent, hsize, hallocation, hattributes, htimestamps⟩ := hsame
  have hother : ∀ path, { old with fullPath := path } = { file with fullPath := path } := by
    intro path
    cases old
    cases file
    simp_all
  rw [withPath_of_empty directories hempty]
  by_cases h : old.fullPath = ""
  · refine iff_of_true ?_ (Or.inl h)
    rw [withPath_of_empty directories h, pathFromParent_congr directories hname hparent]
    exact hother _
  · rw [withPath_of_ne directories h, or_iff_right h]
    constructor
    · intro heq
      exact congrArg FileRecord.fullPath heq
    · intro hpath
      rw [← hpath]
      exact hother old.fullPath

end Paths

namespace BufferedIndexTransaction

theorem get?_ofList_snapshotFilesWithPaths (tx : BufferedIndexTransaction) (id : FileId) :
    (KeyedArena.ofList tx.snapshotFilesWithPaths : FileRecords).get? id =
      (tx.files.get? id).map (FileRecord.withPath tx.directories) := by
  apply Option.ext
  intro file
  rw [KeyedArena.get?_ofList_eq_some_iff tx.nodup_snapshotFilesWithPaths, mem_snapshotFilesWithPaths,
    Option.map_eq_some_iff]
  simp only [KeyedArena.get?_eq_some_iff]
  constructor
  · rintro ⟨⟨stored, hmem, rfl⟩, hid⟩
    exact ⟨stored, ⟨hmem, (stored.withPath_id _).symm.trans hid⟩, rfl⟩
  · rintro ⟨stored, ⟨hmem, hid⟩, rfl⟩
    exact ⟨⟨stored, hmem, rfl⟩, (stored.withPath_id _).trans hid⟩

/-- Snapshots with paths agree when they do under every id. -/
theorem snapshotFilesWithPaths_eq_iff (state tx : BufferedIndexTransaction) :
    state.snapshotFilesWithPaths = tx.snapshotFilesWithPaths ↔
      ∀ id, (state.files.get? id).map (FileRecord.withPath state.directories) =
        (tx.files.get? id).map (FileRecord.withPath tx.directories) := by
  constructor
  · intro heq id
    rw [← get?_ofList_snapshotFilesWithPaths, ← get?_ofList_snapshotFilesWithPaths, heq]
  · intro h
    have hsorted : ∀ other : BufferedIndexTransaction, other.snapshotFilesWithPaths.Pairwise
        (fun a b ↦ a.id.val.toNat ≤ b.id.val.toNat) := by
      intro other
      rw [snapshotFilesWithPaths, List.pairwise_map]
      simp only [FileRecord.withPath_id]
      exact KeyOrder.sortByKey_pairwise _ _
    have hmem : ∀ file, file ∈ state.snapshotFilesWithPaths ↔ file ∈ tx.snapshotFilesWithPaths := by
      intro file
      have hget : ∀ other : BufferedIndexTransaction, file ∈ other.snapshotFilesWithPaths ↔
          (other.files.get? file.id).map (FileRecord.withPath other.directories) = some file := by
        intro other
        rw [← get?_ofList_snapshotFilesWithPaths,
          KeyedArena.get?_ofList_eq_some_iff other.nodup_snapshotFilesWithPaths]
        exact (and_iff_left rfl).symm
      rw [hget, hget, h]
    have hperm : state.snapshotFilesWithPaths.Perm tx.snapshotFilesWithPaths :=
      (List.perm_ext_iff_of_nodup (List.Nodup.of_map _ state.nodup_snapshotFilesWithPaths)
        (List.Nodup.of_map _ tx.nodup_snapshotFilesWithPaths)).mpr hmem
    apply KeyOrder.eq_of_perm_of_sorted (fun file ↦ file.id.val.toNat) hperm _ (hsorted state) (hsorted tx)
    have hids := state.nodup_snapshotFilesWithPaths.map (f := fun id : FileId ↦ id.val.toNat)
      fun a b hab ↦ FileId.val_injective (UInt64.toNat_inj.mp hab)
    rwa [List.map_map] at hids

/-! ## One rescan -/

/-- The merged index follows the scan exactly when no file that is left alone
keeps an old path. -/
theorem followsScan_mergeIncremental_iff (state : BufferedIndexTransaction)
    {tx : BufferedIndexTransaction} (hempty : ∀ file ∈ tx.files.records, file.fullPath = "") :
    FollowsScan (state.mergeIncremental tx).2 tx ↔ KeepsFreshPaths state tx := by
  have hmerged : ∀ id, ((state.mergeIncremental tx).2.files.get? id).map
      (FileRecord.withPath (state.mergeIncremental tx).2.directories) =
        (mergedFile (state.files.get? id)
          ((state.files.get? id).map (FileRecord.withPath state.directories))
          ((tx.files.get? id).map (FileRecord.withPath tx.directories))).map
            (FileRecord.withPath tx.directories) := by
    intro id
    rw [directories_mergeIncremental, get?_mergeIncremental, get?_ofList_snapshotFilesWithPaths,
      get?_ofList_snapshotFilesWithPaths]
  rw [FollowsScan, snapshotFilesWithPaths_eq_iff]
  simp only [hmerged]
  constructor
  · intro h file hfile old hold hid hsame
    have hcurrent := (KeyedArena.get?_eq_some_iff tx.files file.id file).mpr ⟨hfile, rfl⟩
    have hstored := (KeyedArena.get?_eq_some_iff state.files file.id old).mpr ⟨hold, hid⟩
    have hfollows := h file.id
    simp only [hcurrent, hstored, Option.map_some, mergedFile, withPath_unchangedFrom_iff, hsame,
      if_true, Option.some.injEq] at hfollows
    exact (withPath_eq_iff tx.directories hid hsame (hempty file hfile)).mp hfollows
  · intro h id
    cases hcurrent : tx.files.get? id with
    | none => simp only [Option.map_none, mergedFile]
    | some file =>
        obtain ⟨hfile, rfl⟩ := (KeyedArena.get?_eq_some_iff tx.files id file).mp hcurrent
        cases hstored : state.files.get? file.id with
        | none =>
            simp only [Option.map_none, Option.map_some, mergedFile, FileRecord.withPath_withPath]
        | some old =>
            obtain ⟨hold, hid⟩ := (KeyedArena.get?_eq_some_iff state.files file.id old).mp hstored
            simp only [Option.map_some, mergedFile, withPath_unchangedFrom_iff]
            by_cases hsame : old.unchangedFrom file
            · rw [if_pos hsame, Option.map_some, Option.some.injEq]
              exact (withPath_eq_iff tx.directories hid hsame (hempty file hfile)).mpr
                (h file hfile old hold hid hsame)
            · rw [if_neg hsame, Option.map_some, FileRecord.withPath_withPath]

end BufferedIndexTransaction

/-! ## Runs of rescans -/

namespace SqliteIndexRepository

/-- What holds of every rescan of a run: of the index before it, the scan and
the index after it. -/
def EachRescan (P : BufferedIndexTransaction → BufferedIndexTransaction → BufferedIndexTransaction → Prop) :
    SqliteIndexRepository → List (List Bool × BufferedIndexTransaction) → Prop
  | _, [] => True
  | repository, step :: rest =>
      let next := (repository.applyIncrementalTransaction step.1 step.2).2
      P repository.state step.2 next.state ∧ EachRescan P next rest

/-- From any repository, whether or not the saves succeed, every rescan of a run
is followed exactly when none of them leaves a file with an old path alone. -/
theorem rescans_followed_iff (repository : SqliteIndexRepository)
    {steps : List (List Bool × BufferedIndexTransaction)}
    (hempty : ∀ step ∈ steps, ∀ file ∈ step.2.files.records, file.fullPath = "") :
    repository.EachRescan (fun _ transaction after ↦ FollowsScan after transaction) steps ↔
      repository.EachRescan (fun before transaction _ ↦ KeepsFreshPaths before transaction) steps := by
  induction steps generalizing repository with
  | nil => exact Iff.rfl
  | cons step rest ih =>
      have hrest := fun other hother ↦ hempty other (List.mem_cons_of_mem step hother)
      simp only [EachRescan]
      refine and_congr ?_ (ih _ hrest)
      exact followsScan_mergeIncremental_iff repository.state (hempty step List.mem_cons_self)

end SqliteIndexRepository

/-- A scan with one file, in a directory with this name. -/
def scanOf (directory : String) : BufferedIndexTransaction where
  directories := .ofList [⟨⟨5⟩, none, "C:", "C:", 0, 0, 0, 0⟩,
    ⟨⟨6⟩, some ⟨5⟩, directory, "C:\\" ++ directory, 0, 0, 0, 0⟩]
  files := .ofList [⟨⟨1⟩, ⟨6⟩, "a.txt", "", 10, 4096, .archive, ⟨none, none, none⟩⟩]

theorem rescans_followed_sample :
    (SqliteIndexRepository.openEmpty ⟨none, none, none⟩).EachRescan
      (fun _ transaction after ↦ FollowsScan after transaction)
      [([], scanOf "docs"), ([], scanOf "docs")] := by
  refine (SqliteIndexRepository.rescans_followed_iff _ ?_).mpr ⟨?_, ?_, trivial⟩
  · intro step hstep
    obtain rfl | rfl := List.mem_pair.mp hstep
    all_goals decide
  · decide
  · decide

/-- The directory of the file is renamed between two scans. -/
theorem renamed_directory_keeps_old_path :
    ¬ (SqliteIndexRepository.openEmpty ⟨none, none, none⟩).EachRescan
        (fun _ transaction after ↦ FollowsScan after transaction)
        [([], scanOf "docs"), ([], scanOf "papers")] ∧
      (((SqliteIndexRepository.openEmpty ⟨none, none, none⟩).applyIncrementalTransaction []
          (scanOf "docs")).2.applyIncrementalTransaction [] (scanOf "papers")).2.state.resolvedPaths =
        ["C:\\docs\\a.txt"] ∧
      (scanOf "papers").resolvedPaths = ["C:\\papers\\a.txt"] := by
  refine ⟨fun h ↦ ?_, by decide, by decide⟩
  have hsecond := h.2.1
  revert hsecond
  decide

end WinBlaze
