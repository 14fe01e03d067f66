import WinBlaze.Index.Merge
import WinBlaze.Native.Bridge

/-!
# A rescan that ends without a summary

When the stream of a rescan ends early, the collected transaction is merged
all the same. The merge reads absence as deletion, so every indexed file the
walk did not reach is removed.
-/

namespace WinBlaze

open Saturating Storage BufferedIndexTransaction

section Merge

variable (state transaction : BufferedIndexTransaction)

/-- The walk reached the path of the file. -/
def ReachedByScan (file : FileRecord) : Prop := file.fullPath ∈ transaction.resolvedPaths

/-- The counter of fresh ids saturates at the largest 64-bit number, so the merge takes a
new path of the walk for the indexed file with that id. It leaves the record of the file as
it is when the two look unchanged and the record resolves to its path below the new
directories too. -/
structure TakenForUnchanged (file : FileRecord) : Prop where
  largest : file.id.val.toNat = maxValue
  unchanged : ∃ scanned ∈ (state.remapByPath transaction).snapshotFilesWithPaths,
    scanned.id = file.id ∧ file.unchangedFrom scanned
  path : ∃ stored ∈ state.files.records, stored.id = file.id ∧
    stored.withPath (state.remapByPath transaction).directories = file

variable {state transaction}

/-- The id of an indexed file is handed to the rescan only for its own path,
up to saturation. -/
theorem reachedByScan_of_mem_remapped {file : FileRecord}
    (hfile : file ∈ state.snapshotFilesWithPaths)
    (hid : file.id ∈ (state.remapByPath transaction).fileIds) :
    ReachedByScan transaction file ∨ file.id.val.toNat = maxValue := by
  obtain ⟨record, hrecord, heq⟩ := (mem_fileIds_remapByPath state transaction file.id).mp hid
  obtain ⟨scanned, hscanned, _, hassigned⟩ := exists_scanned_of_mem_remapped hrecord
  have hpath : scanned.fullPath ∈ transaction.resolvedPaths := List.mem_map_of_mem hscanned
  rw [heq] at hassigned
  rcases hassigned with ⟨old, hold, holdPath, holdId⟩ | ⟨_, hle, _⟩
  · have hsame : old = file :=
      List.inj_on_of_nodup_map state.nodup_snapshotFilesWithPaths hold hfile holdId
    rw [← holdPath, hsame] at hpath
    exact Or.inl hpath
  · right
    by_contra hmax
    have hmem : file ∈ state.snapshotFilesWithPaths ++ transaction.snapshotFilesWithPaths :=
      List.mem_append_left _ hfile
    have hlt := lt_nextFileId hmem (Nat.lt_of_le_of_ne (toNat_le_maxValue file.id.val) hmax)
    omega

/-- An indexed file is in the merged index, with its id, its path and everything else, when
the rescan has its id, no change to it, and directories that leave its path as it was. -/
theorem mem_merged_iff {file : FileRecord} (hfile : file ∈ state.snapshotFilesWithPaths) :
    file ∈ (state.mergePathMatched transaction).2.snapshotFilesWithPaths ↔
      (∃ scanned ∈ (state.remapByPath transaction).snapshotFilesWithPaths,
        scanned.id = file.id ∧ file.unchangedFrom scanned) ∧
      ∃ stored ∈ state.files.records, stored.id = file.id ∧
        stored.withPath (state.remapByPath transaction).directories = file := by
  have hprevious : (KeyedArena.ofList state.snapshotFilesWithPaths : FileRecords).get? file.id =
      some file := KeyedArena.get?_ofList_of_mem state.nodup_snapshotFilesWithPaths hfile
  have hscan := KeyedArena.get?_ofList_eq_some_iff
    (state.remapByPath transaction).nodup_snapshotFilesWithPaths file.id
  have hmerged := get?_mergeIncremental state (state.remapByPath transaction) file.id
  rw [hprevious] at hmerged
  have hmem : file ∈ (state.mergePathMatched transaction).2.snapshotFilesWithPaths ↔
      ∃ merged, (state.mergePathMatched transaction).2.files.get? file.id = some merged ∧
        merged.withPath (state.remapByPath transaction).directories = file := by
    rw [mem_snapshotFilesWithPaths, mergePathMatched, directories_mergeIncremental]
    refine exists_congr fun merged ↦ and_congr_left fun hpath ↦ ?_
    rw [KeyedArena.get?_eq_some_iff, ← hpath, FileRecord.withPath_id]
    exact (and_iff_left rfl).symm
  rw [hmem, mergePathMatched, hmerged]
  cases hc : (KeyedArena.ofList (state.remapByPath transaction).snapshotFilesWithPaths :
      FileRecords).get? file.id with
  | none =>
      refine iff_of_false (by simp [mergedFile]) ?_
      rintro ⟨⟨scanned, hscanned, hid, -⟩, -⟩
      have hsome := (hscan scanned).mpr ⟨hscanned, hid⟩
      rw [hc] at hsome
      cases hsome
  | some scanned =>
      obtain ⟨hscanned, hid⟩ := (hscan scanned).mp hc
      have honly : ∀ other ∈ (state.remapByPath transaction).snapshotFilesWithPaths,
          other.id = file.id → other = scanned := fun other hother hother' ↦
        Option.some.inj (((hscan other).mpr ⟨hother, hother'⟩).symm.trans hc)
      by_cases hsame : file.unchangedFrom scanned
      · simp only [mergedFile, if_pos hsame]
        rw [and_iff_right ⟨scanned, hscanned, hid, hsame⟩]
        simp only [KeyedArena.get?_eq_some_iff, and_assoc]
      · -- The record of the rescan replaces a file that it is not.
        simp only [mergedFile, if_neg hsame]
        refine iff_of_false ?_ ?_
        · rintro ⟨merged, hmerged, hpath⟩
          obtain rfl := Option.some.inj hmerged
          obtain ⟨raw, -, rfl⟩ := (mem_snapshotFilesWithPaths _ _).mp hscanned
          rw [FileRecord.withPath_withPath] at hpath
          rw [hpath] at hsame
          exact hsame file.unchangedFrom_refl
        · rintro ⟨⟨other, hother, hid', hunchanged⟩, -⟩
          rw [honly other hother hid'] at hunchanged
          exact hsame hunchanged

end Merge

/-- After the session, every indexed file the scan did not visit is still in
the repository state and in whatever snapshot the disk loads, with its id, its
path and everything else, and no removal of it is recorded. -/
def KeepsUnvisited (storage : StorageFiles BufferedIndexTransaction)
    (saveOutcomes : List (List Bool)) (events : List ScanEvent) : Prop :=
  let before := openState storage
  let after := (forwardEvents .incrementalRescan storage saveOutcomes events).repository
  ∀ file ∈ before.snapshotFilesWithPaths,
    file.fullPath ∉ (foldScanEvents {} events).resolvedPaths →
      file ∈ after.state.snapshotFilesWithPaths ∧
      (∀ saved, Recovers after.storage saved → file ∈ saved.snapshotFilesWithPaths) ∧
      ∀ recorded, after.state.fileChanges = before.fileChanges ++ recorded →
        ∀ changeSet ∈ recorded, ∀ change ∈ changeSet.changes,
          change.kind = .removed → change.fileId ≠ file.id

section Unfinished

variable (storage : StorageFiles BufferedIndexTransaction) (saveOutcomes : List (List Bool))
  {events : List ScanEvent}

theorem state_forwardEvents_unfinished (hsummary : ∀ event ∈ events, event.isSummary = false) :
    (forwardEvents .incrementalRescan storage saveOutcomes events).repository.state =
      ((openState storage).mergePathMatched (foldScanEvents {} events)).2 := by
  rw [forwardEvents_unfinished storage saveOutcomes hsummary]
  rfl

/-- The disk loads the state before the session or the state after it. -/
theorem recovers_forwardEvents_unfinished
    (hsummary : ∀ event ∈ events, event.isSummary = false) {saved : BufferedIndexTransaction}
    (hsaved : Recovers
      (forwardEvents .incrementalRescan storage saveOutcomes events).repository.storage saved) :
    saved = openState storage ∨
      saved = ((openState storage).mergePathMatched (foldScanEvents {} events)).2 := by
  rw [forwardEvents_unfinished storage saveOutcomes hsummary] at hsaved
  exact recovers_persistSnapshotWith (fun state hstate ↦ (openState_of_recovers hstate).symm) _
    hsaved

/-- An unfinished rescan keeps the files it did not visit exactly when it
reached every indexed file, but for one with the largest id that it takes for
unchanged. -/
theorem unfinished_rescan_keeps_iff (hsummary : ∀ event ∈ events, event.isSummary = false) :
    KeepsUnvisited storage saveOutcomes events ↔
      ∀ file ∈ (openState storage).snapshotFilesWithPaths,
        ReachedByScan (foldScanEvents {} events) file ∨
          TakenForUnchanged (openState storage) (foldScanEvents {} events) file := by
  have hstate := state_forwardEvents_unfinished storage saveOutcomes hsummary
  have hids : ∀ file, (∃ scanned ∈ ((openState storage).remapByPath
      (foldScanEvents {} events)).snapshotFilesWithPaths, scanned.id = file.id ∧
        FileRecord.unchangedFrom file scanned) →
      file.id ∈ ((openState storage).remapByPath (foldScanEvents {} events)).fileIds := by
    rintro file ⟨scanned, hscanned, hid, -⟩
    rw [← hid, ← mem_map_id_snapshotFilesWithPaths]
    exact List.mem_map_of_mem hscanned
  constructor
  · intro hkeeps file hfile
    by_cases hvisited : file.fullPath ∈ (foldScanEvents {} events).resolvedPaths
    · exact Or.inl hvisited
    · have hkept := (hkeeps file hfile hvisited).1
      rw [hstate] at hkept
      obtain ⟨hunchanged, hpath⟩ := (mem_merged_iff hfile).mp hkept
      have hlargest := (reachedByScan_of_mem_remapped hfile (hids file hunchanged)).resolve_left
        hvisited
      exact Or.inr ⟨hlargest, hunchanged, hpath⟩
  · intro hreached file hfile hunvisited
    obtain ⟨-, hunchanged, hpath⟩ := (hreached file hfile).resolve_left hunvisited
    have hkept := (mem_merged_iff hfile).mpr ⟨hunchanged, hpath⟩
    refine ⟨hstate ▸ hkept, ?_, ?_⟩
    · intro saved hsaved
      rcases recovers_forwardEvents_unfinished storage saveOutcomes hsummary hsaved with rfl | rfl
      · exact hfile
      · exact hkept
    · intro recorded hrecorded changeSet hchangeSet change hchange hkind hid
      rw [hstate, mergePathMatched, fileChanges_mergeIncremental] at hrecorded
      rw [← List.append_cancel_left hrecorded, List.mem_singleton] at hchangeSet
      subst hchangeSet
      exact ((removed_mem_mergeIncremental_iff _ _ file.id).mp ⟨change, hchange, hkind, hid⟩).2
        (hids file hunchanged)

end Unfinished

/-- The index of `C:\` with one file. -/
def reportIndex : BufferedIndexTransaction :=
  let tx := insertDirectory {} ⟨⟨5⟩, none, "C:\\", "C:\\", 0, 0, 0, 0⟩
  tx.insertFile ⟨⟨1⟩, ⟨5⟩, "report.txt", "", 10, 4096, .archive, ⟨none, none, none⟩⟩

def reportStorage : StorageFiles BufferedIndexTransaction :=
  ⟨some (.complete reportIndex), none, none⟩

/-- The walk was cancelled after it emitted the root. -/
def cancelledWalk : List ScanEvent := [
  .sessionStarted ⟨⟨0⟩, "C:\\", none, .unknown, 0, 0, ⟨0⟩⟩,
  .directoryFound ⟨⟨5⟩, none, "C:\\", "C:\\", 0, 0, 0, 0⟩,
  .progress ⟨1, 0, 0, 0⟩,
  .cancelled]

/-- The walk was cancelled right after it emitted the file. -/
def lateCancelledWalk : List ScanEvent := [
  .sessionStarted ⟨⟨0⟩, "C:\\", none, .unknown, 0, 0, ⟨0⟩⟩,
  .directoryFound ⟨⟨5⟩, none, "C:\\", "C:\\", 0, 0, 0, 0⟩,
  .fileFound ⟨⟨9⟩, ⟨5⟩, "report.txt", "", 12, 4096, .archive, ⟨none, none, none⟩⟩,
  .cancelled]

theorem unfinished_rescan_keeps_late : KeepsUnvisited reportStorage [] lateCancelledWalk := by
  refine (unfinished_rescan_keeps_iff reportStorage [] (by decide)).mpr ?_
  intro file hfile
  have hpath : ∀ file ∈ (openState reportStorage).snapshotFilesWithPaths,
      file.fullPath ∈ (foldScanEvents {} lateCancelledWalk).resolvedPaths := by decide
  exact Or.inl (hpath file hfile)

theorem unfinished_rescan_loses_report :
    ¬ ∀ (storage : StorageFiles BufferedIndexTransaction) (saveOutcomes : List (List Bool))
      (events : List ScanEvent), (∀ event ∈ events, event.isSummary = false) →
        KeepsUnvisited storage saveOutcomes events := by
  intro h
  have hkeeps := h reportStorage [] cancelledWalk (by decide)
  have hpaths : ∀ file ∈ (openState reportStorage).snapshotFilesWithPaths,
      file.fullPath ∉ (foldScanEvents {} cancelledWalk).resolvedPaths := by decide
  have hlost : ∀ file ∈ (openState reportStorage).snapshotFilesWithPaths, file ∉
      (forwardEvents .incrementalRescan reportStorage []
        cancelledWalk).repository.state.snapshotFilesWithPaths := by
    decide
  have hfile : (openState reportStorage).snapshotFilesWithPaths ≠ [] := by decide
  obtain ⟨file, rest, hcons⟩ := List.exists_cons_of_ne_nil hfile
  have hmem : file ∈ (openState reportStorage).snapshotFilesWithPaths := by
    rw [hcons]
    exact List.mem_cons_self
  exact hlost file hmem (hkeeps file hmem (hpaths file hmem)).1

end WinBlaze
