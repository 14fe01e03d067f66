import WinBlaze.Scanner.Ntfs.RecordGraph
import WinBlaze.Scanner.Ntfs.StreamRuns

/-!
# Feeding records to the streaming backend

The streaming backend takes in entries and extensions in any order. It counts
every file entry and every directory it emits.
-/

namespace WinBlaze

namespace Ntfs

open Saturating

theorem entriesOf_append (first second : List ParsedRecordOutcome) :
    entriesOf (first ++ second) = entriesOf first ++ entriesOf second := List.filterMap_append

theorem extensionsOf_append (first second : List ParsedRecordOutcome) :
    extensionsOf (first ++ second) = extensionsOf first ++ extensionsOf second :=
  List.filterMap_append

/-- Entries in the same places. -/
theorem countP_isStreamed_of_keys {seen entries : List ParsedNtfsEntry}
    (h : seen.map entryKey = entries.map entryKey) :
    seen.countP isStreamed = entries.countP isStreamed := by
  have hkey : ∀ l : List ParsedNtfsEntry, l.countP isStreamed =
      (l.map entryKey).countP (fun key ↦ key.2.isDirectory && key.1 ≠ ntfsRootRecord) := by
    intro l
    rw [List.countP_map]
    rfl
  rw [hkey, h, ← hkey]

namespace NtfsStreamState

/-- Takes in what a record was parsed to. -/
def ingestOutcome (state : NtfsStreamState) : ParsedRecordOutcome → NtfsStreamState
  | .entry parsed => state.ingestEntry parsed
  | .extension sizes => state.ingestExtension sizes
  | .none => state

/-- The state behind `finish`, when `fed` was taken in after the root. -/
def enumerateOutcomes (rootText : String) (fed : List ParsedRecordOutcome) : NtfsStreamState :=
  finish (fed.foldl ingestOutcome (emitRoot { rootText := rootText }))

/-- The state after taking in the outcomes `fed`. -/
structure Fed (rootText : String) (fed : List ParsedRecordOutcome) (state : NtfsStreamState) :
    Prop where
  settled : ∃ seen done, Settled rootText seen done state ∧
    seen.map entryKey = (entriesOf fed).map entryKey
  drained : state.cascade = []

theorem entryKey_pendingEntry (state : NtfsStreamState) (entry : ParsedNtfsEntry) :
    entryKey (state.pendingEntry entry) = entryKey entry := by
  rw [pendingEntry]
  split <;> rfl

theorem withSizes_eq_self {entry : ParsedNtfsEntry} {sizes : ExtensionSizes}
    (hsize : (entry.withSizes sizes).sizeBytes = entry.sizeBytes)
    (hallocation : (entry.withSizes sizes).allocationBytes = entry.allocationBytes) :
    entry.withSizes sizes = entry := by
  have heta : entry.withSizes sizes = { entry with
      sizeBytes := (entry.withSizes sizes).sizeBytes
      allocationBytes := (entry.withSizes sizes).allocationBytes } := rfl
  rw [heta, hsize, hallocation]

/-- What an extension does: it grows a retained file, or nothing when its base
needs no sizes, or it waits for its base. -/
theorem ingestExtension_cases (state : NtfsStreamState) (extension : ExtensionSizes) :
    (∃ entry, state.retainedFiles.get? extension.baseRecord = some entry ∧
      ((entry.withSizes extension = entry ∧ state.ingestExtension extension = state) ∨
        state.ingestExtension extension = state.growFile entry (entry.withSizes extension))) ∨
    (state.retainedFiles.get? extension.baseRecord = none ∧
      (state.resolvedPaths.find? extension.baseRecord).isSome = true ∧
        state.ingestExtension extension = state) ∨
    (state.retainedFiles.get? extension.baseRecord = none ∧
      state.resolvedPaths.find? extension.baseRecord = none ∧
        state.ingestExtension extension = { state with
          pendingExtensions := state.pendingExtensions.insert (state.mergePending extension) }) := by
  rw [ingestExtension]
  cases hretained : state.retainedFiles.get? extension.baseRecord with
  | some entry =>
      refine Or.inl ⟨entry, rfl, ?_⟩
      dsimp only
      split
      case isTrue hsame => exact Or.inl ⟨withSizes_eq_self hsame.1 hsame.2, rfl⟩
      case isFalse => exact Or.inr rfl
  | none =>
      right
      dsimp only
      split
      case isTrue hresolved => exact Or.inl ⟨rfl, hresolved, rfl⟩
      case isFalse hresolved =>
        exact Or.inr ⟨rfl, Option.not_isSome_iff_eq_none.mp hresolved, rfl⟩

theorem sameDirectories_ingestExtension (state : NtfsStreamState) (extension : ExtensionSizes) :
    SameDirectories state (state.ingestExtension extension) := by
  obtain ⟨entry, -, ⟨-, h⟩ | h⟩ | ⟨-, -, h⟩ | ⟨-, -, h⟩ := ingestExtension_cases state extension
  · rw [h]
    exact ⟨rfl, rfl, rfl, rfl, rfl⟩
  · rw [h]
    refine ⟨rfl, rfl, rfl, rfl, ?_⟩
    rw [growFile, List.filterMap_append]
    exact List.append_nil _
  · rw [h]
    exact ⟨rfl, rfl, rfl, rfl, rfl⟩
  · rw [h]
    exact ⟨rfl, rfl, rfl, rfl, rfl⟩

/-- Extensions count nothing. -/
theorem counts_ingestExtension (state : NtfsStreamState) (extension : ExtensionSizes) :
    (state.ingestExtension extension).filesSeen = state.filesSeen ∧
      (state.ingestExtension extension).directoriesSeen = state.directoriesSeen := by
  obtain ⟨entry, -, ⟨-, h⟩ | h⟩ | ⟨-, -, h⟩ | ⟨-, -, h⟩ := ingestExtension_cases state extension
  all_goals
    rw [h]
    exact ⟨rfl, rfl⟩

theorem Fed.ingestOutcome {rootText : String} {fed : List ParsedRecordOutcome}
    {state : NtfsStreamState} (h : Fed rootText fed state) (outcome : ParsedRecordOutcome) :
    Fed rootText (fed ++ [outcome]) (state.ingestOutcome outcome) := by
  obtain ⟨seen, done, hsettled, hkeys⟩ := h.settled
  cases outcome with
  | none =>
      refine ⟨⟨seen, done, hsettled, ?_⟩, h.drained⟩
      rw [entriesOf_append, hkeys]
      simp [entriesOf, ParsedRecordOutcome.entry?]
  | extension extension =>
      have hsame := sameDirectories_ingestExtension state extension
      refine ⟨⟨seen, done, hsettled.frame hsame rfl, ?_⟩, hsame.cascade.trans h.drained⟩
      rw [entriesOf_append, hkeys]
      simp [entriesOf, ParsedRecordOutcome.entry?]
  | entry entry =>
      have hsame : SameDirectories state { state with
          pendingExtensions := state.pendingExtensions.remove entry.fileId.val } :=
        ⟨rfl, rfl, rfl, rfl, rfl⟩
      obtain ⟨⟨next, hnext⟩, hdrained⟩ := (hsettled.frame hsame rfl).ingestSized h.drained
        (state.pendingEntry entry)
      refine ⟨⟨_, next, hnext, ?_⟩, hdrained⟩
      rw [List.map_append, hkeys, List.map_singleton, entryKey_pendingEntry, entriesOf_append,
        List.map_append]
      rfl

theorem Fed.foldl {rootText : String} {fed : List ParsedRecordOutcome} {state : NtfsStreamState}
    (h : Fed rootText fed state) (rest : List ParsedRecordOutcome) :
    Fed rootText (fed ++ rest) (rest.foldl NtfsStreamState.ingestOutcome state) := by
  induction rest generalizing fed state with
  | nil => rwa [List.append_nil]
  | cons outcome rest ih =>
      have hrest := ih (h.ingestOutcome outcome)
      rwa [List.append_assoc, List.singleton_append] at hrest

theorem fed_emitRoot (rootText : String) : Fed rootText [] (emitRoot { rootText := rootText }) :=
  ⟨⟨[], [], settled_emitRoot rootText, rfl⟩, rfl⟩

theorem fed_foldl (rootText : String) (fed : List ParsedRecordOutcome) :
    Fed rootText fed (fed.foldl ingestOutcome (emitRoot { rootText := rootText })) := by
  have h := (fed_emitRoot rootText).foldl fed
  rwa [List.nil_append] at h

/-! ## Counts -/

theorem toNat_filesSeen_ingestOutcome (state : NtfsStreamState) (outcome : ParsedRecordOutcome) :
    (state.ingestOutcome outcome).filesSeen.toNat =
      min (state.filesSeen.toNat + fileCount [outcome]) maxValue := by
  have hmax := toNat_le_maxValue state.filesSeen
  cases outcome with
  | none =>
      have hcount : fileCount [ParsedRecordOutcome.none] = 0 := rfl
      rw [hcount, Nat.add_zero, Nat.min_eq_left hmax]
      rfl
  | extension extension =>
      have hcount : fileCount [ParsedRecordOutcome.extension extension] = 0 := rfl
      rw [hcount, Nat.add_zero, Nat.min_eq_left hmax]
      exact congrArg UInt64.toNat (counts_ingestExtension state extension).1
  | entry entry =>
      have hcount : fileCount [ParsedRecordOutcome.entry entry] =
          if entry.isDirectory then 0 else 1 := by
        cases hdirectory : entry.isDirectory <;>
          simp [fileCount, entriesOf, ParsedRecordOutcome.entry?, hdirectory]
      have hkind : (state.pendingEntry entry).isDirectory = entry.isDirectory :=
        congrArg (fun key ↦ key.2.isDirectory) (entryKey_pendingEntry state entry)
      rw [hcount, ingestOutcome, ingestEntry]
      cases hdirectory : entry.isDirectory with
      | true =>
          rw [hdirectory] at hkind
          rw [(sameFiles_ingestSized _ hkind).filesSeen, if_pos rfl, Nat.add_zero,
            Nat.min_eq_left hmax]
      | false =>
          rw [hdirectory] at hkind
          rw [ingestSized, hkind, if_neg Bool.false_ne_true, emitFile, toNat_satAdd]
          rfl

theorem toNat_filesSeen_foldl (fed : List ParsedRecordOutcome) (state : NtfsStreamState) :
    (fed.foldl ingestOutcome state).filesSeen.toNat =
      min (state.filesSeen.toNat + fileCount fed) maxValue := by
  induction fed generalizing state with
  | nil =>
      have hmax := toNat_le_maxValue state.filesSeen
      exact (Nat.min_eq_left hmax).symm
  | cons outcome rest ih =>
      have hcount : fileCount (outcome :: rest) = fileCount [outcome] + fileCount rest := by
        rw [fileCount, ← List.singleton_append, entriesOf_append, List.countP_append]
        rfl
      rw [List.foldl_cons, ih, toNat_filesSeen_ingestOutcome, hcount]
      omega

/-- Every emitted directory is counted. -/
def CountsDirectories (state : NtfsStreamState) : Prop :=
  state.directoriesSeen.toNat = min state.emittedDirectories.length maxValue

theorem CountsDirectories.emitDirectory {state : NtfsStreamState} (h : CountsDirectories state)
    (entry : ParsedNtfsEntry) : CountsDirectories (state.emitDirectory entry) := by
  have hemitted : (state.emitDirectory entry).emittedDirectories =
      state.emittedDirectories ++ [streamDirectory entry (state.cascadePath entry)] :=
    List.filterMap_append
  have hone : (1 : UInt64).toNat = 1 := rfl
  unfold CountsDirectories at h ⊢
  rw [hemitted, NtfsStreamState.emitDirectory, toNat_satAdd, h, List.length_append,
    List.length_singleton, hone]
  omega

/-- Steps that emit no directory and count none. -/
theorem CountsDirectories.frame {state next : NtfsStreamState} (h : CountsDirectories state)
    (hcount : next.directoriesSeen = state.directoriesSeen)
    (hemitted : next.emittedDirectories = state.emittedDirectories) : CountsDirectories next := by
  unfold CountsDirectories at h ⊢
  rw [hcount, hemitted, h]

theorem CountsDirectories.drainCascade {state : NtfsStreamState} (h : CountsDirectories state) :
    CountsDirectories state.drainCascade := by
  refine (drainCascade_induction (P := CountsDirectories) ?_ state h).1
  intro s entry _ hs
  have hpop : CountsDirectories s.popCascade := hs.frame rfl rfl
  exact hpop.emitDirectory entry

theorem CountsDirectories.finish {state : NtfsStreamState} (h : CountsDirectories state) :
    CountsDirectories state.finish :=
  finish_induction (P := CountsDirectories) (fun _ entry hs ↦ hs.emitDirectory entry)
    (fun _ _ _ hs ↦ hs.frame rfl rfl) state h

theorem CountsDirectories.ingestOutcome {state : NtfsStreamState} (h : CountsDirectories state)
    (outcome : ParsedRecordOutcome) : CountsDirectories (state.ingestOutcome outcome) := by
  cases outcome with
  | none => exact h
  | extension extension =>
      exact h.frame (counts_ingestExtension state extension).2
        (sameDirectories_ingestExtension state extension).emitted
  | entry entry =>
      rw [NtfsStreamState.ingestOutcome, ingestEntry, ingestSized]
      split
      case isTrue =>
        split
        case isTrue => exact h.frame rfl rfl
        case isFalse =>
          split
          case isTrue =>
            apply CountsDirectories.drainCascade
            exact h.frame rfl rfl
          case isFalse => exact h.frame rfl rfl
      case isFalse => exact h.frame rfl (sameDirectories_emitFile _ _).emitted

theorem countsDirectories_enumerateOutcomes (rootText : String) (fed : List ParsedRecordOutcome) :
    CountsDirectories (enumerateOutcomes rootText fed) := by
  have hroot : CountsDirectories (emitRoot { rootText := rootText }) := rfl
  apply CountsDirectories.finish
  generalize emitRoot { rootText := rootText } = state at hroot ⊢
  induction fed generalizing state with
  | nil => exact hroot
  | cons outcome rest ih => exact ih _ (hroot.ingestOutcome outcome)

/-- The directories emitted at the end. -/
theorem Fed.exists_placed {rootText : String} {fed : List ParsedRecordOutcome}
    {state : NtfsStreamState} (h : Fed rootText fed state) :
    ∃ placed : List (ParsedNtfsEntry × String), placed.length = directoryCount fed ∧
      state.finish.emittedDirectories = rootDirectory rootText ::
        placed.map (fun placed ↦ streamDirectory placed.1 placed.2) := by
  obtain ⟨seen, done, hsettled, hkeys⟩ := h.settled
  obtain ⟨⟨later, hfinal⟩, hcascade, horphans⟩ := hsettled.toStreamed.finish h.drained
  refine ⟨done ++ later, ?_, hfinal.emitted⟩
  have hwaiting : state.finish.waiting = [] := by
    rw [waiting, IdMap.elements, horphans]
    rfl
  have hlength := hfinal.accounted.length_eq
  rw [hcascade, hwaiting, List.append_nil, List.append_nil, List.length_map,
    ← List.countP_eq_length_filter, countP_isStreamed_of_keys hkeys] at hlength
  exact hlength

/-- The streaming backend counts file entries, and directory entries with the root. -/
theorem toNat_counts_enumerateOutcomes (rootText : String) (fed : List ParsedRecordOutcome) :
    (enumerateOutcomes rootText fed).filesSeen.toNat = min (fileCount fed) maxValue ∧
      (enumerateOutcomes rootText fed).directoriesSeen.toNat =
        min (directoryCount fed + 1) maxValue := by
  constructor
  · rw [enumerateOutcomes, (sameFiles_finish _).filesSeen, toNat_filesSeen_foldl]
    congr 1
    exact Nat.zero_add _
  · obtain ⟨placed, hlength, hemitted⟩ := (fed_foldl rootText fed).exists_placed
    have hcounts : (enumerateOutcomes rootText fed).directoriesSeen.toNat = _ :=
      countsDirectories_enumerateOutcomes rootText fed
    rw [hcounts, enumerateOutcomes, hemitted, List.length_cons, List.length_map, hlength]

end NtfsStreamState

end Ntfs

end WinBlaze
