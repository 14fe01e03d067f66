import WinBlaze.Scanner.Ntfs.StreamEmission

/-!
# Whole streaming runs

A run takes in all entries and then releases what still waits. It emits every
directory and every file once, and every directory that hangs on the root
behind its parent and under its parent's path.
-/

namespace WinBlaze

namespace Ntfs

/-- Following parents through the directories of `parsed` leads to the root. -/
inductive ReachesRoot (parsed : List ParsedNtfsEntry) : ParsedNtfsEntry → Prop
  | root {entry : ParsedNtfsEntry} : normalizedParent entry = ntfsRootRecord →
      ReachesRoot parsed entry
  | step {entry parent : ParsedNtfsEntry} : parent ∈ parsed → parent.isDirectory = true →
      parent.fileId.val = normalizedParent entry → ReachesRoot parsed parent →
        ReachesRoot parsed entry

namespace NtfsStreamState

def emittedDirectories (state : NtfsStreamState) : List DirectoryRecord :=
  state.events.filterMap ScanEvent.directory?

def emittedFiles (state : NtfsStreamState) : List FileRecord :=
  state.events.filterMap ScanEvent.file?

section Settled

variable {rootText : String} {seen : List ParsedNtfsEntry}
  {done : List (ParsedNtfsEntry × String)} {state : NtfsStreamState}

/-- Once the worklist is empty, a directory that hangs on the root is emitted. -/
theorem Settled.mem_done_of_reachesRoot (h : Settled rootText seen done state)
    (hcascade : state.cascade = []) {entry : ParsedNtfsEntry} (hreach : ReachesRoot seen entry)
    (hmem : entry ∈ seen) (hentry : isStreamed entry = true) : entry ∈ done.map Prod.fst := by
  have hdone : ∀ other ∈ seen, isStreamed other = true →
      (state.resolvedPaths.find? (normalizedParent other)).isSome = true →
        other ∈ done.map Prod.fst := by
    intro other hother hstreamed hparent
    have haccounted := h.accounted.mem_iff.mpr (List.mem_filter.mpr ⟨hother, hstreamed⟩)
    rw [hcascade, List.nil_append] at haccounted
    rcases List.mem_append.mp haccounted with hdone | hwaiting
    · exact hdone
    · rw [h.unresolved other hwaiting] at hparent
      cases hparent
  induction hreach with
  | root hroot =>
      apply hdone _ hmem hentry
      rw [hroot, h.rootResolved]
      rfl
  | @step entry parent hparent hdirectory hid hreach ih =>
      apply hdone _ hmem hentry
      rw [← hid]
      by_cases hroot : parent.fileId.val = ntfsRootRecord
      · rw [hroot, h.rootResolved]
        rfl
      · have hstreamed : isStreamed parent = true := by
          rw [isStreamed, hdirectory]
          exact decide_eq_true hroot
        obtain ⟨placed, hplaced, rfl⟩ := List.mem_map.mp (ih hparent hstreamed)
        exact h.doneResolved placed hplaced

/-- A directory emitted under its parent stands behind it in the emitted records. -/
theorem Settled.exists_split (h : Settled rootText seen done state) {entry : ParsedNtfsEntry}
    (hdone : entry ∈ done.map Prod.fst) (later : List (ParsedNtfsEntry × String)) :
    ∃ earlier parent rest, rootDirectory rootText ::
          (done ++ later).map (fun placed ↦ streamDirectory placed.1 placed.2) =
        earlier ++ streamDirectory entry (joinPath parent.fullPath entry.name) :: rest ∧
      parent ∈ earlier ∧ parent.id = ⟨normalizedParent entry⟩ := by
  obtain ⟨⟨entry, path⟩, hplaced, rfl⟩ := List.mem_map.mp hdone
  obtain ⟨before, after, rfl, parentPath, hpath, hparent⟩ := h.placed.exists_split hplaced
  dsimp only at hpath hparent ⊢
  subst hpath
  rcases hparent with ⟨hroot, hroottext⟩ | ⟨parent, hbefore, hid⟩
  · rw [hroottext]
    refine ⟨rootDirectory rootText ::
      before.map (fun placed ↦ streamDirectory placed.1 placed.2), rootDirectory rootText,
      (after ++ later).map (fun placed ↦ streamDirectory placed.1 placed.2), ?_,
      List.mem_cons_self, ?_⟩
    · simp [rootDirectory]
    · rw [hroot]
      rfl
  · refine ⟨rootDirectory rootText ::
      before.map (fun placed ↦ streamDirectory placed.1 placed.2),
      streamDirectory parent parentPath,
      (after ++ later).map (fun placed ↦ streamDirectory placed.1 placed.2), ?_, ?_, ?_⟩
    · simp [streamDirectory]
    · exact List.mem_cons_of_mem _ (List.mem_map_of_mem hbefore)
    · rw [← hid]
      rfl

end Settled

/-! ## Runs without extension records -/

/-- Nothing about files changed. -/
structure SameFiles (state next : NtfsStreamState) : Prop where
  filesSeen : next.filesSeen = state.filesSeen
  totalSizeBytes : next.totalSizeBytes = state.totalSizeBytes
  totalAllocationBytes : next.totalAllocationBytes = state.totalAllocationBytes
  retainedFiles : next.retainedFiles = state.retainedFiles
  pendingExtensions : next.pendingExtensions = state.pendingExtensions
  emitted : next.emittedFiles = state.emittedFiles

theorem SameFiles.refl (state : NtfsStreamState) : SameFiles state state :=
  ⟨rfl, rfl, rfl, rfl, rfl, rfl⟩

theorem SameFiles.emitDirectory {state next : NtfsStreamState} (h : SameFiles state next)
    (entry : ParsedNtfsEntry) : SameFiles state (next.emitDirectory entry) := by
  refine ⟨h.filesSeen, h.totalSizeBytes, h.totalAllocationBytes, h.retainedFiles,
    h.pendingExtensions, ?_⟩
  rw [← h.emitted, emittedFiles, NtfsStreamState.emitDirectory, List.filterMap_append]
  exact List.append_nil _

theorem SameFiles.drainCascade {state start : NtfsStreamState} (h : SameFiles state start) :
    SameFiles state start.drainCascade := by
  refine (drainCascade_induction (P := fun s ↦ SameFiles state s) ?_ start h).1
  intro s entry _ hs
  have hpop : SameFiles state s.popCascade := ⟨hs.1, hs.2, hs.3, hs.4, hs.5, hs.6⟩
  exact hpop.emitDirectory entry

theorem sameFiles_finish (state : NtfsStreamState) : SameFiles state state.finish :=
  finish_induction (P := fun s ↦ SameFiles state s) (fun _ entry h ↦ h.emitDirectory entry)
    (fun _ _ _ h ↦ ⟨h.1, h.2, h.3, h.4, h.5, h.6⟩) state (SameFiles.refl state)

theorem sameFiles_ingestSized (state : NtfsStreamState) {entry : ParsedNtfsEntry}
    (hdirectory : entry.isDirectory = true) : SameFiles state (state.ingestSized entry) := by
  rw [ingestSized, if_pos hdirectory]
  split
  case isTrue => exact SameFiles.refl state
  case isFalse =>
    split
    case isTrue => exact SameFiles.drainCascade ⟨rfl, rfl, rfl, rfl, rfl, rfl⟩
    case isFalse => exact ⟨rfl, rfl, rfl, rfl, rfl, rfl⟩

/-- The state after taking in `seen` without any extension record. -/
structure Ingested (rootText : String) (seen : List ParsedNtfsEntry) (state : NtfsStreamState) :
    Prop where
  settled : ∃ done, Settled rootText seen done state
  drained : state.cascade = []
  noPending : state.pendingExtensions.records = []
  files : state.emittedFiles =
    (seen.filter (fun entry ↦ !entry.isDirectory)).map ParsedNtfsEntry.toFileRecord

theorem emittedFiles_ingestSized (state : NtfsStreamState) (entry : ParsedNtfsEntry) :
    (state.ingestSized entry).pendingExtensions = state.pendingExtensions ∧
      (state.ingestSized entry).emittedFiles = state.emittedFiles ++
        ([entry].filter (fun entry ↦ !entry.isDirectory)).map ParsedNtfsEntry.toFileRecord := by
  cases hdirectory : entry.isDirectory with
  | false =>
      rw [ingestSized, hdirectory, if_neg Bool.false_ne_true]
      refine ⟨rfl, ?_⟩
      rw [emittedFiles, emitFile, List.filterMap_append]
      simp [hdirectory, emittedFiles, ScanEvent.file?]
  | true =>
      have hsame := sameFiles_ingestSized state hdirectory
      refine ⟨hsame.pendingExtensions, hsame.emitted.trans ?_⟩
      simp [hdirectory]

theorem Ingested.ingestEntry {rootText : String} {seen : List ParsedNtfsEntry}
    {state : NtfsStreamState} (h : Ingested rootText seen state) (entry : ParsedNtfsEntry) :
    Ingested rootText (seen ++ [entry]) (state.ingestEntry entry) := by
  obtain ⟨done, hsettled⟩ := h.settled
  have hpending : state.pendingExtensions.get? entry.fileId.val = none := by
    apply (KeyedArena.get?_eq_none_iff _ _).mpr
    rw [h.noPending]
    exact fun _ hmem ↦ by cases hmem
  have hentry : state.pendingEntry entry = entry := by rw [pendingEntry, hpending]
  have hremoved : (state.pendingExtensions.remove entry.fileId.val).records = [] := by
    have hperm := KeyedArena.remove_of_get?_eq_none _ hpending
    rw [h.noPending] at hperm
    exact hperm.eq_nil
  have hsame : SameDirectories state { state with
      pendingExtensions := state.pendingExtensions.remove entry.fileId.val } :=
    ⟨rfl, rfl, rfl, rfl, rfl⟩
  have hstart := hsettled.frame hsame rfl
  obtain ⟨hnext, hdrained⟩ := hstart.ingestSized h.drained entry
  obtain ⟨hkept, hfiles⟩ := emittedFiles_ingestSized { state with
    pendingExtensions := state.pendingExtensions.remove entry.fileId.val } entry
  rw [NtfsStreamState.ingestEntry, hentry]
  refine ⟨hnext, hdrained, ?_, ?_⟩
  · rw [hkept]
    exact hremoved
  · rw [hfiles, List.filter_append, List.map_append, ← h.files]
    rfl

theorem Ingested.foldl {rootText : String} {seen : List ParsedNtfsEntry} {state : NtfsStreamState}
    (h : Ingested rootText seen state) (parsed : List ParsedNtfsEntry) :
    Ingested rootText (seen ++ parsed) (parsed.foldl NtfsStreamState.ingestEntry state) := by
  induction parsed generalizing seen state with
  | nil => rwa [List.append_nil]
  | cons entry rest ih =>
      have hrest := ih (h.ingestEntry entry)
      rwa [List.append_assoc, List.singleton_append] at hrest

/-- The state behind `finish`, when `parsed` was taken in after the root. -/
def enumerateEntries (rootText : String) (parsed : List ParsedNtfsEntry) : NtfsStreamState :=
  finish (parsed.foldl ingestEntry (emitRoot { rootText := rootText }))

theorem ingested_emitRoot (rootText : String) :
    Ingested rootText [] (emitRoot { rootText := rootText }) :=
  ⟨⟨[], settled_emitRoot rootText⟩, rfl, rfl, rfl⟩

/-- Every directory and file of `parsed` is emitted once, directories that hang
on the root behind their parents, and nothing is left waiting. -/
structure EmitsEveryEntry (rootText : String) (parsed : List ParsedNtfsEntry)
    (final : NtfsStreamState) : Prop where
  directories : ∃ placed : List (ParsedNtfsEntry × String),
    (placed.map Prod.fst).Perm (parsed.filter isStreamed) ∧
      final.emittedDirectories = rootDirectory rootText ::
        placed.map (fun placed ↦ streamDirectory placed.1 placed.2)
  directoriesOnce : (final.emittedDirectories.map DirectoryRecord.id).Nodup
  files : final.emittedFiles =
    (parsed.filter (fun entry ↦ !entry.isDirectory)).map ParsedNtfsEntry.toFileRecord
  filesOnce : (final.emittedFiles.map FileRecord.id).Nodup
  afterParent : ∀ entry ∈ parsed, isStreamed entry = true → ReachesRoot parsed entry →
    ∃ earlier parent later, final.emittedDirectories =
        earlier ++ streamDirectory entry (joinPath parent.fullPath entry.name) :: later ∧
      parent ∈ earlier ∧ parent.id = ⟨normalizedParent entry⟩
  noneWaiting : final.orphanDirs.records = [] ∧ final.cascade = []

/-- The ids of the emitted directories are those of the root and of the
directories taken in. -/
theorem nodup_emitted_ids {rootText : String} {parsed : List ParsedNtfsEntry}
    {placed : List (ParsedNtfsEntry × String)}
    (hids : (parsed.map (fun entry ↦ entry.fileId)).Nodup)
    (hperm : (placed.map Prod.fst).Perm (parsed.filter isStreamed)) :
    ((rootDirectory rootText ::
      placed.map (fun placed ↦ streamDirectory placed.1 placed.2)).map DirectoryRecord.id).Nodup := by
  have hmap : (placed.map (fun placed ↦ streamDirectory placed.1 placed.2)).map DirectoryRecord.id =
      (placed.map Prod.fst).map (fun entry ↦ DirectoryId.mk entry.fileId.val) := by
    rw [List.map_map, List.map_map]
    rfl
  have hwrapped : ((parsed.filter isStreamed).map
      (fun entry ↦ DirectoryId.mk entry.fileId.val)).Nodup := by
    have hfiltered : ((parsed.filter isStreamed).map (fun entry ↦ entry.fileId)).Nodup :=
      hids.sublist (List.filter_sublist.map _)
    have hinjective : Function.Injective (fun id : FileId ↦ DirectoryId.mk id.val) :=
      fun a b hab ↦ FileId.val_injective (congrArg DirectoryId.val hab)
    have h := hfiltered.map hinjective
    rwa [List.map_map] at h
  rw [List.map_cons, hmap, List.nodup_cons]
  refine ⟨?_, ((hperm.map _).nodup_iff).mpr hwrapped⟩
  intro hroot
  obtain ⟨entry, hentry, hid⟩ := List.mem_map.mp ((hperm.map _).mem_iff.mp hroot)
  exact isStreamed_ne_root (List.mem_filter.mp hentry).2 (congrArg DirectoryId.val hid)

theorem enumerateEntries_emits_every_entry (rootText : String) (parsed : List ParsedNtfsEntry)
    (hids : (parsed.map (fun entry ↦ entry.fileId)).Nodup) :
    EmitsEveryEntry rootText parsed (enumerateEntries rootText parsed) := by
  have hingested := (ingested_emitRoot rootText).foldl parsed
  rw [List.nil_append] at hingested
  obtain ⟨done, hsettled⟩ := hingested.settled
  obtain ⟨⟨later, hfinal⟩, hcascade, horphans⟩ := hsettled.toStreamed.finish hingested.drained
  have hempty : (enumerateEntries rootText parsed).waiting = [] := by
    rw [waiting, IdMap.elements, enumerateEntries, horphans]
    rfl
  have hperm : ((done ++ later).map Prod.fst).Perm (parsed.filter isStreamed) := by
    have haccounted := hfinal.accounted
    rwa [hcascade, List.nil_append, show waiting (finish _) = [] from hempty,
      List.append_nil] at haccounted
  have hemitted : (enumerateEntries rootText parsed).emittedDirectories = _ := hfinal.emitted
  have hfiles : (enumerateEntries rootText parsed).emittedFiles =
      (parsed.filter (fun entry ↦ !entry.isDirectory)).map ParsedNtfsEntry.toFileRecord :=
    (sameFiles_finish _).emitted.trans hingested.files
  refine ⟨⟨done ++ later, hperm, hemitted⟩, ?_, hfiles, ?_, ?_, horphans, hcascade⟩
  · rw [hemitted]
    exact nodup_emitted_ids hids hperm
  · rw [hfiles, List.map_map]
    exact hids.sublist (List.filter_sublist.map _)
  · intro entry hmem hentry hreach
    have hdone := hsettled.mem_done_of_reachesRoot hingested.drained hreach hmem hentry
    rw [hemitted]
    obtain ⟨earlier, parent, rest, hsplit, hparent⟩ := hsettled.exists_split hdone later
    exact ⟨earlier, parent, rest, hsplit, hparent⟩

/-- A directory entry with the given id, parent and name. -/
def sampleDirectory (id : UInt64) (parent : Option UInt64) (name : String) : ParsedNtfsEntry :=
  { rootEntry with fileId := ⟨id⟩, parentDirectoryId := parent, name := name }

/-- A child before its parent, a file, an orphan, a directory naming itself and
two naming each other. -/
def sampleArrivals : List ParsedNtfsEntry :=
  [sampleDirectory 20 (some 10) "child", sampleDirectory 10 (some 5) "top",
    { sampleDirectory 40 (some 20) "file" with isDirectory := false },
    sampleDirectory 30 (some 99) "orphan", sampleDirectory 31 (some 31) "self",
    sampleDirectory 50 (some 51) "even", sampleDirectory 51 (some 50) "odd"]

theorem enumerateEntries_sampleArrivals :
    EmitsEveryEntry "C:\\" sampleArrivals (enumerateEntries "C:\\" sampleArrivals) :=
  enumerateEntries_emits_every_entry "C:\\" sampleArrivals (by decide)

end NtfsStreamState

end Ntfs

end WinBlaze
