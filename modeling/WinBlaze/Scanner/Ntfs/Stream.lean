import WinBlaze.Scanner.Ntfs.Batch

/-!
# Enumerating an MFT while it is read

The streaming backend emits files as they parse. A directory is emitted once
the path of its parent is known; until then it waits in a bucket under its
parent, and directories that never see their parent resolve under the root at
the end.
-/

namespace WinBlaze

namespace Ntfs

open Saturating

/-- Directories waiting for a parent, by that parent. -/
abbrev OrphanDirs := IdMap UInt64 (List ParsedNtfsEntry)

structure NtfsStreamState where
  rootText : String
  /-- The path of every directory emitted so far. -/
  resolvedPaths : ResolvedPaths := .empty
  orphanDirs : OrphanDirs := .empty
  /-- Emitted files whose sizes an extension record can still correct. -/
  retainedFiles : Entries := .empty
  pendingExtensions : KeyedArena ExtensionSizes.baseRecord := .empty
  /-- The worklist; its end is the next directory to emit. -/
  cascade : List ParsedNtfsEntry := []
  filesSeen : UInt64 := 0
  directoriesSeen : UInt64 := 0
  totalSizeBytes : UInt64 := 0
  totalAllocationBytes : UInt64 := 0
  /-- The events handed to the callback so far. -/
  events : List ScanEvent := []

/-- The parent a record resolves under: the root, when the record names itself
or nothing. -/
def normalizedParent (entry : ParsedNtfsEntry) : UInt64 :=
  match entry.parentDirectoryId with
  | some parent => if parent ≠ entry.fileId.val then parent else ntfsRootRecord
  | none => ntfsRootRecord

def rootDirectory (rootText : String) : DirectoryRecord where
  id := ⟨ntfsRootRecord⟩
  parentDirectoryId := none
  name := rootText
  fullPath := rootText

def streamDirectory (entry : ParsedNtfsEntry) (fullPath : String) : DirectoryRecord where
  id := ⟨entry.fileId.val⟩
  parentDirectoryId := entry.parentDirectoryId.map DirectoryId.mk
  name := entry.name
  fullPath := fullPath

namespace NtfsStreamState

def emitRoot (state : NtfsStreamState) : NtfsStreamState :=
  { state with
    resolvedPaths := state.resolvedPaths.set ntfsRootRecord state.rootText
    directoriesSeen := satAdd state.directoriesSeen 1
    events := state.events ++ [.directoryFound (rootDirectory state.rootText)] }

/-- All directories waiting for a parent. -/
def waiting (state : NtfsStreamState) : List ParsedNtfsEntry := state.orphanDirs.elements

/-! ## The cascade -/

/-- The path of a directory taken from the worklist. -/
def cascadePath (state : NtfsStreamState) (entry : ParsedNtfsEntry) : String :=
  joinPath ((state.resolvedPaths.find? (normalizedParent entry)).getD state.rootText) entry.name

/-- The loop body of `drainCascade`, after `entry` was taken from the worklist. -/
def emitDirectory (state : NtfsStreamState) (entry : ParsedNtfsEntry) : NtfsStreamState :=
  { state with
    directoriesSeen := satAdd state.directoriesSeen 1
    events := state.events ++ [.directoryFound (streamDirectory entry (state.cascadePath entry))]
    resolvedPaths := state.resolvedPaths.set entry.fileId.val (state.cascadePath entry)
    orphanDirs := state.orphanDirs.erase entry.fileId.val
    cascade := state.cascade ++ state.orphanDirs.bucket entry.fileId.val }

/-- The worklist without its end. -/
def popCascade (state : NtfsStreamState) : NtfsStreamState :=
  { state with cascade := state.cascade.dropLast }

/-- Emitting a directory takes it off the directories on the worklist and in buckets. -/
theorem pending_emitDirectory {state : NtfsStreamState} {entry : ParsedNtfsEntry}
    (h : state.cascade.getLast? = some entry) :
    (state.popCascade.emitDirectory entry).cascade.length +
        (state.popCascade.emitDirectory entry).waiting.length <
      state.cascade.length + state.waiting.length := by
  obtain ⟨front, hfront⟩ := List.getLast?_eq_some_iff.mp h
  have hperm := (IdMap.elements_perm_erase state.orphanDirs entry.fileId.val).length_eq
  rw [List.length_append] at hperm
  simp only [emitDirectory, popCascade, waiting, hfront, List.dropLast_concat, List.length_append,
    List.length_singleton]
  omega

def drainCascade (state : NtfsStreamState) : NtfsStreamState :=
  match _hlast : state.cascade.getLast? with
  | none => state
  | some entry => drainCascade (state.popCascade.emitDirectory entry)
termination_by state.cascade.length + state.waiting.length
decreasing_by exact pending_emitDirectory _hlast

/-- What emitting the end of the worklist preserves holds once it is drained. -/
theorem drainCascade_induction {P : NtfsStreamState → Prop}
    (step : ∀ state entry, state.cascade.getLast? = some entry → P state →
      P (state.popCascade.emitDirectory entry))
    (state : NtfsStreamState) (h : P state) :
    P state.drainCascade ∧ state.drainCascade.cascade = [] := by
  induction state using drainCascade.induct with
  | case1 state hlast =>
      rw [drainCascade]
      split
      case h_1 => exact ⟨h, List.getLast?_eq_none_iff.mp hlast⟩
      case h_2 entry hentry => rw [hlast] at hentry; cases hentry
  | case2 state entry hlast ih =>
      rw [drainCascade]
      split
      case h_1 hnone => rw [hlast] at hnone; cases hnone
      case h_2 other hother =>
        rw [hlast] at hother
        cases hother
        exact ih (step state entry hlast h)

/-! ## Entries and extensions -/

def emitFile (state : NtfsStreamState) (entry : ParsedNtfsEntry) : NtfsStreamState :=
  { state with
    filesSeen := satAdd state.filesSeen 1
    totalSizeBytes := satAdd state.totalSizeBytes entry.sizeBytes
    totalAllocationBytes := satAdd state.totalAllocationBytes entry.allocationBytes
    events := state.events ++ [.fileFound entry.toFileRecord]
    retainedFiles :=
      if entry.hasAttributeList then state.retainedFiles.insert entry else state.retainedFiles }

/-- The entry with the sizes of extensions that came before it. -/
def pendingEntry (state : NtfsStreamState) (entry : ParsedNtfsEntry) : ParsedNtfsEntry :=
  match state.pendingExtensions.get? entry.fileId.val with
  | some sizes => entry.withSizes sizes
  | none => entry

/-- `ingestEntry` once the pending extensions of the entry are applied. -/
def ingestSized (state : NtfsStreamState) (entry : ParsedNtfsEntry) : NtfsStreamState :=
  if entry.isDirectory then
    -- The root was emitted up front.
    if entry.fileId.val = ntfsRootRecord then state
    else if (state.resolvedPaths.find? (normalizedParent entry)).isSome then
      drainCascade { state with cascade := state.cascade ++ [entry] }
    else { state with orphanDirs := state.orphanDirs.push (normalizedParent entry) entry }
  else state.emitFile entry

def ingestEntry (state : NtfsStreamState) (entry : ParsedNtfsEntry) : NtfsStreamState :=
  ingestSized { state with pendingExtensions := state.pendingExtensions.remove entry.fileId.val }
    (state.pendingEntry entry)

/-- The sizes that wait for a base record, with those of one more extension. -/
def mergePending (state : NtfsStreamState) (extension : ExtensionSizes) : ExtensionSizes :=
  match state.pendingExtensions.get? extension.baseRecord with
  | some sizes => { sizes with
      sizeBytes := max sizes.sizeBytes extension.sizeBytes
      allocationBytes := max sizes.allocationBytes extension.allocationBytes }
  | none => extension

/-- A retained file is emitted again with the sizes of an extension. -/
def growFile (state : NtfsStreamState) (entry grown : ParsedNtfsEntry) : NtfsStreamState :=
  { state with
    totalSizeBytes := satAdd state.totalSizeBytes (grown.sizeBytes - entry.sizeBytes)
    totalAllocationBytes :=
      satAdd state.totalAllocationBytes (grown.allocationBytes - entry.allocationBytes)
    retainedFiles := state.retainedFiles.insert grown
    events := state.events ++ [.fileFound grown.toFileRecord] }

def ingestExtension (state : NtfsStreamState) (extension : ExtensionSizes) : NtfsStreamState :=
  match state.retainedFiles.get? extension.baseRecord with
  | some entry =>
      let grown := entry.withSizes extension
      if grown.sizeBytes = entry.sizeBytes ∧ grown.allocationBytes = entry.allocationBytes then state
      else state.growFile entry grown
  | none =>
      -- Directories have no sizes.
      if (state.resolvedPaths.find? extension.baseRecord).isSome then state
      else { state with
        pendingExtensions := state.pendingExtensions.insert (state.mergePending extension) }

/-! ## The final pass -/

/-- Parents that are waited for. -/
def orphanKeys (state : NtfsStreamState) : List UInt64 := state.orphanDirs.records.map Prod.fst

/-- Parents that are waited for and do not wait themselves; when all wait for
each other, the smallest. -/
def stuckKeys (state : NtfsStreamState) : List UInt64 :=
  let waitingIds := state.waiting.map (fun entry ↦ entry.fileId.val)
  let stuck := state.orphanKeys.filter (fun key ↦ key ∉ waitingIds)
  KeyOrder.sortByKey UInt64.toNat (if stuck.isEmpty then state.orphanKeys.min?.toList else stuck)

/-- Emits the directories waiting for `parent`, and all that wait for those. -/
def releaseBucket (state : NtfsStreamState) (parent : UInt64) : NtfsStreamState :=
  match state.orphanDirs.find? parent with
  | some children => drainCascade { state with
      orphanDirs := state.orphanDirs.erase parent
      cascade := state.cascade ++ children }
  | none => state

def finishRound (state : NtfsStreamState) : NtfsStreamState :=
  state.stuckKeys.foldl releaseBucket state

theorem length_orphanDirs_drainCascade (state : NtfsStreamState) :
    state.drainCascade.orphanDirs.records.length ≤ state.orphanDirs.records.length := by
  refine (drainCascade_induction (P := fun s ↦
    s.orphanDirs.records.length ≤ state.orphanDirs.records.length) ?_ state le_rfl).1
  intro s entry _ h
  exact (IdMap.length_erase_le s.orphanDirs entry.fileId.val).trans h

theorem length_orphanDirs_releaseBucket (state : NtfsStreamState) (parent : UInt64) :
    (state.releaseBucket parent).orphanDirs.records.length ≤ state.orphanDirs.records.length := by
  rw [releaseBucket]
  split
  case h_1 =>
    apply (length_orphanDirs_drainCascade _).trans
    exact IdMap.length_erase_le state.orphanDirs parent
  case h_2 => exact le_rfl

theorem length_orphanDirs_releaseBucket_lt {state : NtfsStreamState} {parent : UInt64}
    (h : parent ∈ state.orphanKeys) :
    (state.releaseBucket parent).orphanDirs.records.length < state.orphanDirs.records.length := by
  obtain ⟨pair, hpair, rfl⟩ := List.mem_map.mp h
  have hfind := (IdMap.find?_eq_some_iff state.orphanDirs pair.1 pair.2).mpr hpair
  rw [releaseBucket, hfind]
  apply (length_orphanDirs_drainCascade _).trans_lt
  exact IdMap.length_erase_lt state.orphanDirs hfind

theorem stuckKeys_ne_nil {state : NtfsStreamState} (h : state.orphanDirs.records ≠ []) :
    ∃ key rest, state.stuckKeys = key :: rest ∧ key ∈ state.orphanKeys := by
  have hkeys : state.orphanKeys ≠ [] := fun hnil ↦ h (List.map_eq_nil_iff.mp hnil)
  have hsubset : ∀ key ∈ state.stuckKeys, key ∈ state.orphanKeys := by
    intro key hkey
    rw [stuckKeys, KeyOrder.mem_sortByKey] at hkey
    split at hkey
    case isTrue => exact List.min?_mem (Option.mem_toList.mp hkey)
    case isFalse => exact List.mem_of_mem_filter hkey
  have hne : state.stuckKeys ≠ [] := by
    intro hnil
    have hlength := congrArg List.length hnil
    rw [stuckKeys, KeyOrder.length_sortByKey] at hlength
    split at hlength
    case isTrue =>
      obtain ⟨least, hleast⟩ := Option.isSome_iff_exists.mp (List.isSome_min?_of_ne_nil hkeys)
      rw [hleast] at hlength
      cases hlength
    case isFalse hstuck => exact hstuck (List.isEmpty_iff_length_eq_zero.mpr hlength)
  obtain ⟨key, rest, heq⟩ := List.exists_cons_of_ne_nil hne
  exact ⟨key, rest, heq, hsubset key (heq ▸ List.mem_cons_self)⟩

theorem length_orphanDirs_finishRound {state : NtfsStreamState}
    (h : state.orphanDirs.records.isEmpty = false) :
    state.finishRound.orphanDirs.records.length < state.orphanDirs.records.length := by
  have hfold : ∀ (keys : List UInt64) (s : NtfsStreamState),
      (keys.foldl releaseBucket s).orphanDirs.records.length ≤ s.orphanDirs.records.length := by
    intro keys
    induction keys with
    | nil => exact fun s ↦ le_rfl
    | cons key rest ih =>
        intro s
        exact (ih (s.releaseBucket key)).trans (length_orphanDirs_releaseBucket s key)
  have hne : state.orphanDirs.records ≠ [] := fun hnil ↦ by simp [hnil] at h
  obtain ⟨key, rest, hstuck, hkey⟩ := stuckKeys_ne_nil hne
  rw [finishRound, hstuck, List.foldl_cons]
  exact (hfold rest _).trans_lt (length_orphanDirs_releaseBucket_lt hkey)

/-- The loop over rounds; each round empties a bucket. -/
def finish (state : NtfsStreamState) : NtfsStreamState :=
  if _hempty : state.orphanDirs.records.isEmpty = true then state else finish state.finishRound
termination_by state.orphanDirs.records.length
decreasing_by exact length_orphanDirs_finishRound (Bool.eq_false_iff.mpr _hempty)

/-- What emitting a directory and moving waiting directories preserve holds
once nothing waits. -/
theorem finish_induction {P : NtfsStreamState → Prop}
    (emit : ∀ state entry, P state → P (emitDirectory state entry))
    (move : ∀ state orphanDirs cascade, P state →
      P { state with orphanDirs := orphanDirs, cascade := cascade })
    (state : NtfsStreamState) (h : P state) : P state.finish := by
  have hdrain : ∀ s : NtfsStreamState, P s → P s.drainCascade := fun s hs ↦
    (drainCascade_induction (fun t entry _ ht ↦ emit _ entry (move t t.orphanDirs _ ht)) s hs).1
  have hrelease : ∀ (s : NtfsStreamState) parent, P s → P (s.releaseBucket parent) := by
    intro s parent hs
    rw [releaseBucket]
    split
    case h_1 => exact hdrain _ (move s _ _ hs)
    case h_2 => exact hs
  have hround : ∀ (keys : List UInt64) (s : NtfsStreamState), P s → P (keys.foldl releaseBucket s) := by
    intro keys
    induction keys with
    | nil => exact fun s hs ↦ hs
    | cons key rest ih => exact fun s hs ↦ ih _ (hrelease s key hs)
  induction state using finish.induct with
  | case1 state hempty =>
      rw [finish, dif_pos hempty]
      exact h
  | case2 state hempty ih =>
      rw [finish, dif_neg hempty]
      exact ih (hround state.stuckKeys state h)

def intoSummary (state : NtfsStreamState) : ScanSummary where
  filesSeen := state.filesSeen
  directoriesSeen := state.directoriesSeen
  totalSizeBytes := state.totalSizeBytes
  totalAllocationBytes := state.totalAllocationBytes

end NtfsStreamState

end Ntfs

end WinBlaze
