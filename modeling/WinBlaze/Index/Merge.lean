import WinBlaze.Index.Incremental

/-!
# What a merge by id stores

With pairwise different ids on both sides, the change set of a merge has one
change for every id that differs, and the merged files are those of the
rescan, except that an unchanged file keeps its stored record.
-/

namespace WinBlaze

theorem FileRecord.unchangedFrom_refl (file : FileRecord) : file.unchangedFrom file :=
  ⟨rfl, rfl, rfl, rfl, rfl, rfl⟩

/-! ## One change per id -/

theorem currentChange_fileId {previousById : FileRecords} {current : FileRecord}
    {change : FileChangeRecord} (h : currentChange previousById current = some change) :
    change.fileId = current.id := by
  unfold currentChange at h
  split at h
  case h_1 => cases h; rfl
  case h_2 =>
    split at h
    · cases h
    · cases h; rfl

theorem removedChange_eq_some_iff (currentById : FileRecords) (previous : FileRecord)
    (change : FileChangeRecord) :
    removedChange currentById previous = some change ↔
      currentById.get? previous.id = none ∧
        change = ⟨previous.id, .removed, some previous.fullPath, none⟩ := by
  unfold removedChange
  cases h : currentById.get? previous.id <;> simp [eq_comm]

theorem changeKind_ne_removed (previous current : FileRecord) :
    changeKind previous current ≠ .removed := by
  unfold changeKind
  split
  · split
    · decide
    · split
      · decide
      · split <;> decide
  · decide

theorem currentChange_eq_some_iff (previousById : FileRecords) (current : FileRecord)
    (change : FileChangeRecord) :
    currentChange previousById current = some change ↔
      (previousById.get? current.id = none ∧
        change = ⟨current.id, .added, none, some current.fullPath⟩) ∨
      (∃ previous, previousById.get? current.id = some previous ∧
        ¬previous.unchangedFrom current ∧
        change = ⟨current.id, changeKind previous current, some previous.fullPath,
          some current.fullPath⟩) := by
  unfold currentChange
  cases h : previousById.get? current.id with
  | none => simp [eq_comm]
  | some previous =>
      by_cases hsame : previous.unchangedFrom current
      · simp [hsame]
      · simp [hsame, eq_comm]

theorem currentChange_kind_ne_removed {previousById : FileRecords} {current : FileRecord}
    {change : FileChangeRecord} (h : currentChange previousById current = some change) :
    change.kind ≠ .removed := by
  rcases (currentChange_eq_some_iff ..).mp h with ⟨_, rfl⟩ | ⟨previous, _, _, rfl⟩
  · intro heq
    cases heq
  · exact changeKind_ne_removed previous current

/-- The shortcut for equal lists agrees with the two loops. -/
theorem nodup_of_strictlyIncreasingIds {files : List FileRecord}
    (h : strictlyIncreasingIds files = true) : (files.map FileRecord.id).Nodup := by
  have hsorted : files.IsChain fun a b ↦ a.id.val < b.id.val := by
    induction files with
    | nil => exact .nil
    | cons file rest ih =>
        cases rest with
        | nil => exact .singleton file
        | cons next rest =>
            simp only [strictlyIncreasingIds, List.tail_cons, List.zip_cons_cons, List.all_cons,
              Bool.and_eq_true, decide_eq_true_eq] at h
            exact .cons_cons h.1 (ih h.2)
  have hpairwise : files.Pairwise fun a b ↦ a.id.val.toNat < b.id.val.toNat := by
    refine List.isChain_iff_pairwise.mp (hsorted.imp fun a b hlt ↦ ?_)
    exact UInt64.lt_iff_toNat_lt.mp hlt
  refine List.pairwise_map.mpr (hpairwise.imp fun {a b} hlt heq ↦ ?_)
  rw [heq] at hlt
  exact hlt.false

/-- Comparing equal lists by their ids finds no change either. -/
theorem diffFileRecords_changes (previous current : List FileRecord) :
    (diffFileRecords previous current).changes =
      current.filterMap (currentChange (.ofList previous)) ++
        previous.filterMap (removedChange (.ofList current)) := by
  unfold diffFileRecords
  split
  case isTrue h =>
    obtain ⟨rfl, hincreasing⟩ := h
    have hfound : ∀ file ∈ previous,
        (KeyedArena.ofList previous : FileRecords).get? file.id = some file := fun file hfile ↦
      KeyedArena.get?_ofList_of_mem (nodup_of_strictlyIncreasingIds hincreasing) hfile
    have hcurrent : previous.filterMap (currentChange (.ofList previous)) = [] := by
      rw [List.filterMap_eq_nil_iff]
      intro file hfile
      simp [currentChange, hfound file hfile, file.unchangedFrom_refl]
    have hremoved : previous.filterMap (removedChange (.ofList previous)) = [] := by
      rw [List.filterMap_eq_nil_iff]
      intro file hfile
      simp [removedChange, hfound file hfile]
    rw [hcurrent, hremoved]
    rfl
  case isFalse => rfl

section Diff

variable {previous current : List FileRecord}

theorem mem_diffFileRecords_iff (change : FileChangeRecord) :
    change ∈ (diffFileRecords previous current).changes ↔
      (∃ file ∈ current, currentChange (.ofList previous) file = some change) ∨
        ∃ file ∈ previous, removedChange (.ofList current) file = some change := by
  rw [diffFileRecords_changes, List.mem_append, List.mem_filterMap, List.mem_filterMap]

theorem nodup_filterMap_fileId {change : FileRecord → Option FileChangeRecord}
    (hchange : ∀ file record, change file = some record → record.fileId = file.id)
    {files : List FileRecord} (hfiles : (files.map FileRecord.id).Nodup) :
    ((files.filterMap change).map FileChangeRecord.fileId).Nodup := by
  induction files with
  | nil => exact List.nodup_nil
  | cons file rest ih =>
      rw [List.map_cons, List.nodup_cons] at hfiles
      cases h : change file with
      | none =>
          rw [List.filterMap_cons_none h]
          exact ih hfiles.2
      | some record =>
          rw [List.filterMap_cons_some h, List.map_cons, List.nodup_cons, hchange file record h]
          refine ⟨?_, ih hfiles.2⟩
          intro hmem
          obtain ⟨other, hother, hid⟩ := List.mem_map.mp hmem
          obtain ⟨source, hsource, hsome⟩ := List.mem_filterMap.mp hother
          rw [hchange source other hsome] at hid
          exact hfiles.1 (hid ▸ List.mem_map_of_mem hsource)

/-- No id is listed twice in a change set. -/
theorem nodup_diffFileRecords (hprevious : (previous.map FileRecord.id).Nodup)
    (hcurrent : (current.map FileRecord.id).Nodup) :
    ((diffFileRecords previous current).changes.map FileChangeRecord.fileId).Nodup := by
  rw [diffFileRecords_changes, List.map_append, List.nodup_append]
  have hremoved : ∀ file record,
      removedChange (KeyedArena.ofList current : FileRecords) file = some record →
        record.fileId = file.id := by
    intro file record h
    rw [((removedChange_eq_some_iff ..).mp h).2]
  refine ⟨nodup_filterMap_fileId (fun _ _ ↦ currentChange_fileId) hcurrent,
    nodup_filterMap_fileId hremoved hprevious, ?_⟩
  intro id hid other hother heq
  subst heq
  obtain ⟨change, hchange, hid⟩ := List.mem_map.mp hid
  obtain ⟨file, hfile, hsome⟩ := List.mem_filterMap.mp hchange
  obtain ⟨removed, hmem, hother⟩ := List.mem_map.mp hother
  obtain ⟨old, _, hnone⟩ := List.mem_filterMap.mp hmem
  have habsent := ((removedChange_eq_some_iff ..).mp hnone).1
  rw [KeyedArena.get?_ofList_eq_none_iff, ← hremoved old removed hnone, hother, ← hid,
    currentChange_fileId hsome] at habsent
  exact habsent (List.mem_map_of_mem hfile)

end Diff

/-! ## The files after a merge -/

namespace BufferedIndexTransaction

/-- What a change makes of the file stored under its id. -/
def changeEffect (currentById : FileRecords) (change : FileChangeRecord)
    (stored : Option FileRecord) : Option FileRecord :=
  match change.kind with
  | .removed => none
  | _ => (currentById.get? change.fileId).or stored

/-- A change touches the files and the lineages only. -/
theorem applyFileChange_eq (previousById currentById : FileRecords)
    (tx : BufferedIndexTransaction) (change : FileChangeRecord) :
    ∃ lineages, applyFileChange previousById currentById tx change = { tx with
      lineages := lineages
      files := match change.kind with
        | .removed => tx.files.remove change.fileId
        | _ =>
            match currentById.get? change.fileId with
            | none => tx.files
            | some current => tx.files.insert current } := by
  unfold applyFileChange
  cases change.kind
  case removed => exact ⟨tx.lineages, rfl⟩
  all_goals
    cases currentById.get? change.fileId with
    | none => exact ⟨tx.lineages, rfl⟩
    | some current =>
        cases previousById.get? change.fileId with
        | none => exact ⟨tx.lineages, rfl⟩
        | some previous =>
            cases h : detectFileLineageChange previous current <;> simp only [h] <;> exact ⟨_, rfl⟩

theorem files_applyFileChange (previousById currentById : FileRecords)
    (tx : BufferedIndexTransaction) (change : FileChangeRecord) :
    (applyFileChange previousById currentById tx change).files =
      match change.kind with
      | .removed => tx.files.remove change.fileId
      | _ =>
          match currentById.get? change.fileId with
          | none => tx.files
          | some current => tx.files.insert current := by
  obtain ⟨lineages, heq⟩ := applyFileChange_eq previousById currentById tx change
  rw [heq]

theorem get?_applyFileChange_of_ne (previousById currentById : FileRecords)
    (tx : BufferedIndexTransaction) (change : FileChangeRecord) {id : FileId}
    (hid : id ≠ change.fileId) :
    (applyFileChange previousById currentById tx change).files.get? id = tx.files.get? id := by
  rw [files_applyFileChange]
  have hinsert : ∀ current, currentById.get? change.fileId = some current →
      (tx.files.insert current).get? id = tx.files.get? id := by
    intro current h
    have hcurrent : current.id = change.fileId := ((KeyedArena.get?_eq_some_iff ..).mp h).2
    exact KeyedArena.get?_insert_of_ne _ _ (hcurrent ▸ hid)
  cases change.kind
  case removed => exact KeyedArena.get?_remove_of_ne _ hid
  all_goals
    cases h : currentById.get? change.fileId with
    | none => rfl
    | some current => exact hinsert current h

theorem get?_applyFileChange_self (previousById currentById : FileRecords)
    (tx : BufferedIndexTransaction) (change : FileChangeRecord) :
    (applyFileChange previousById currentById tx change).files.get? change.fileId =
      changeEffect currentById change (tx.files.get? change.fileId) := by
  rw [files_applyFileChange]
  have hinsert : ∀ current, currentById.get? change.fileId = some current →
      (tx.files.insert current).get? change.fileId = some current := by
    intro current h
    have hcurrent : current.id = change.fileId := ((KeyedArena.get?_eq_some_iff ..).mp h).2
    rw [← hcurrent]
    exact KeyedArena.get?_insert_self _ _
  unfold changeEffect
  cases change.kind
  case removed => exact KeyedArena.get?_remove_self _ _
  all_goals
    cases h : currentById.get? change.fileId with
    | none => rfl
    | some current => exact hinsert current h

theorem get?_foldl_applyFileChange_of_notMem (previousById currentById : FileRecords)
    (changes : List FileChangeRecord) (tx : BufferedIndexTransaction) {id : FileId}
    (hid : ∀ change ∈ changes, change.fileId ≠ id) :
    (changes.foldl (applyFileChange previousById currentById) tx).files.get? id =
      tx.files.get? id := by
  induction changes generalizing tx with
  | nil => rfl
  | cons change rest ih =>
      rw [List.foldl_cons, ih _ fun other hother ↦ hid other (List.mem_cons_of_mem _ hother)]
      exact get?_applyFileChange_of_ne _ _ _ _ (Ne.symm (hid change List.mem_cons_self))

/-- Changes of one id that all leave the same record leave it after the loop. -/
theorem get?_foldl_applyFileChange_of_mem (previousById currentById : FileRecords)
    {changes : List FileChangeRecord} (tx : BufferedIndexTransaction) {id : FileId}
    {result : Option FileRecord}
    (heffect : ∀ change ∈ changes, change.fileId = id →
      ∀ stored, changeEffect currentById change stored = result)
    (hmem : ∃ change ∈ changes, change.fileId = id) :
    (changes.foldl (applyFileChange previousById currentById) tx).files.get? id = result := by
  induction changes generalizing tx with
  | nil => simp at hmem
  | cons head rest ih =>
      rw [List.foldl_cons]
      by_cases hrest : ∃ change ∈ rest, change.fileId = id
      · exact ih _ (fun change hchange ↦ heffect change (List.mem_cons_of_mem _ hchange)) hrest
      · obtain ⟨change, hchange, rfl⟩ := hmem
        have hlast : ∀ other ∈ rest, other.fileId ≠ change.fileId := fun other hother heq ↦
          hrest ⟨other, hother, heq⟩
        obtain rfl : change = head := by
          rcases List.mem_cons.mp hchange with heq | hmem
          · exact heq
          · exact absurd rfl (hlast change hmem)
        rw [get?_foldl_applyFileChange_of_notMem _ _ _ _ hlast, get?_applyFileChange_self]
        exact heffect change List.mem_cons_self rfl _

/-- The loop over a change set touches the files and the lineages only. -/
theorem foldl_applyFileChange_eq (previousById currentById : FileRecords)
    (changes : List FileChangeRecord) (tx : BufferedIndexTransaction) :
    ∃ files lineages, changes.foldl (applyFileChange previousById currentById) tx =
      { tx with files := files, lineages := lineages } := by
  induction changes generalizing tx with
  | nil => exact ⟨tx.files, tx.lineages, rfl⟩
  | cons change rest ih =>
      obtain ⟨lineages, heq⟩ := applyFileChange_eq previousById currentById tx change
      obtain ⟨files, lineages', hrest⟩ := ih (applyFileChange previousById currentById tx change)
      rw [List.foldl_cons, hrest, heq]
      exact ⟨files, lineages', rfl⟩

section ApplyIncrementalFiles

variable (tx : BufferedIndexTransaction) (previous current : List FileRecord)

/-- Without changes the loop over the change set does nothing. -/
theorem applyIncrementalFiles_eq :
    tx.applyIncrementalFiles previous current =
      (diffFileRecords previous current,
        let merged := (diffFileRecords previous current).changes.foldl
          (applyFileChange (.ofList previous) (.ofList current)) tx
        { merged with fileChanges := merged.fileChanges ++ [diffFileRecords previous current] }) := by
  by_cases h : (diffFileRecords previous current).changes.isEmpty = true
  · simp [applyIncrementalFiles, List.isEmpty_iff.mp h]
  · simp only [applyIncrementalFiles, h, if_false, Bool.false_eq_true]

theorem files_applyIncrementalFiles :
    (tx.applyIncrementalFiles previous current).2.files =
      ((diffFileRecords previous current).changes.foldl
        (applyFileChange (.ofList previous) (.ofList current)) tx).files := by
  rw [applyIncrementalFiles_eq]

/-- A merge keeps volumes, sessions and directories, and adds its change set to
the history. -/
theorem applyIncrementalFiles_frame :
    ∃ files lineages, (tx.applyIncrementalFiles previous current).2 = { tx with
      files := files
      lineages := lineages
      fileChanges := tx.fileChanges ++ [diffFileRecords previous current] } := by
  obtain ⟨files, lineages, heq⟩ := foldl_applyFileChange_eq (.ofList previous) (.ofList current)
    (diffFileRecords previous current).changes tx
  rw [applyIncrementalFiles_eq, heq]
  exact ⟨files, lineages, rfl⟩

theorem directories_applyIncrementalFiles :
    (tx.applyIncrementalFiles previous current).2.directories = tx.directories := by
  obtain ⟨files, lineages, heq⟩ := applyIncrementalFiles_frame tx previous current
  rw [heq]

theorem volumes_applyIncrementalFiles :
    (tx.applyIncrementalFiles previous current).2.volumes = tx.volumes := by
  obtain ⟨files, lineages, heq⟩ := applyIncrementalFiles_frame tx previous current
  rw [heq]

theorem sessions_applyIncrementalFiles :
    (tx.applyIncrementalFiles previous current).2.sessions = tx.sessions := by
  obtain ⟨files, lineages, heq⟩ := applyIncrementalFiles_frame tx previous current
  rw [heq]

theorem fileChanges_applyIncrementalFiles :
    (tx.applyIncrementalFiles previous current).2.fileChanges =
      tx.fileChanges ++ [diffFileRecords previous current] := by
  obtain ⟨files, lineages, heq⟩ := applyIncrementalFiles_frame tx previous current
  rw [heq]

theorem changes_applyIncrementalFiles :
    (tx.applyIncrementalFiles previous current).1 = diffFileRecords previous current := by
  rw [applyIncrementalFiles_eq]

end ApplyIncrementalFiles

/-- A current record with this id is new or differs from the previous one. -/
def ReplacedById (previous current : List FileRecord) (id : FileId) : Prop :=
  ∃ file ∈ current, file.id = id ∧
    ∀ old, (KeyedArena.ofList previous : FileRecords).get? id = some old → ¬ old.unchangedFrom file

/-- The id occurs in the previous list only. -/
def RemovedById (previous current : List FileRecord) (id : FileId) : Prop :=
  id ∈ previous.map FileRecord.id ∧ id ∉ current.map FileRecord.id

theorem exists_currentChange_iff (previousById : FileRecords) (file : FileRecord) :
    (∃ change, currentChange previousById file = some change) ↔
      ∀ old, previousById.get? file.id = some old → ¬ old.unchangedFrom file := by
  simp only [currentChange_eq_some_iff]
  cases h : previousById.get? file.id with
  | none => simp
  | some old => simp

section Merged

variable (tx : BufferedIndexTransaction) {previous current : List FileRecord} {id : FileId}

theorem get?_of_replacedById (h : ReplacedById previous current id) :
    (tx.applyIncrementalFiles previous current).2.files.get? id =
      (KeyedArena.ofList current : FileRecords).get? id := by
  obtain ⟨file, hfile, rfl, hdiffers⟩ := h
  obtain ⟨change, hchange⟩ := (exists_currentChange_iff (.ofList previous) file).mpr hdiffers
  rw [files_applyIncrementalFiles]
  refine get?_foldl_applyFileChange_of_mem _ _ tx ?_
    ⟨change, (mem_diffFileRecords_iff _).mpr (.inl ⟨file, hfile, hchange⟩),
      currentChange_fileId hchange⟩
  intro other hother hid stored
  have hpresent : (KeyedArena.ofList current : FileRecords).get? file.id ≠ none := fun hnone ↦
    (KeyedArena.get?_ofList_eq_none_iff current file.id).mp hnone (List.mem_map_of_mem hfile)
  rcases (mem_diffFileRecords_iff other).mp hother with ⟨_, _, hsome⟩ | ⟨_, _, hsome⟩
  · unfold changeEffect
    have hkind := currentChange_kind_ne_removed hsome
    split
    · exact absurd ‹_› hkind
    · obtain ⟨record, hrecord⟩ := Option.ne_none_iff_exists'.mp hpresent
      rw [hid, hrecord, Option.some_or]
  · obtain ⟨habsent, rfl⟩ := (removedChange_eq_some_iff ..).mp hsome
    exact absurd (hid ▸ habsent) hpresent

theorem get?_of_removedById (h : RemovedById previous current id) :
    (tx.applyIncrementalFiles previous current).2.files.get? id = none := by
  obtain ⟨hprevious, habsent⟩ := h
  obtain ⟨old, hold, rfl⟩ := List.mem_map.mp hprevious
  have hnone := (KeyedArena.get?_ofList_eq_none_iff current old.id).mpr habsent
  rw [files_applyIncrementalFiles]
  refine get?_foldl_applyFileChange_of_mem _ _ tx ?_ ⟨_, (mem_diffFileRecords_iff _).mpr
    (.inr ⟨old, hold, (removedChange_eq_some_iff ..).mpr ⟨hnone, rfl⟩⟩), rfl⟩
  intro other hother hid stored
  rcases (mem_diffFileRecords_iff other).mp hother with ⟨file, hfile, hsome⟩ | ⟨_, _, hsome⟩
  · rw [currentChange_fileId hsome] at hid
    exact absurd (hid ▸ List.mem_map_of_mem hfile) habsent
  · obtain ⟨_, rfl⟩ := (removedChange_eq_some_iff ..).mp hsome
    rfl

theorem get?_of_untouched (hkept : ¬ ReplacedById previous current id)
    (hpresent : ¬ RemovedById previous current id) :
    (tx.applyIncrementalFiles previous current).2.files.get? id = tx.files.get? id := by
  rw [files_applyIncrementalFiles]
  refine get?_foldl_applyFileChange_of_notMem _ _ _ _ ?_
  rintro change hchange rfl
  rcases (mem_diffFileRecords_iff change).mp hchange with ⟨file, hfile, hsome⟩ | ⟨old, hold, hsome⟩
  · have hid := currentChange_fileId hsome
    exact hkept ⟨file, hfile, hid.symm, hid ▸ (exists_currentChange_iff ..).mp ⟨change, hsome⟩⟩
  · obtain ⟨habsent, rfl⟩ := (removedChange_eq_some_iff ..).mp hsome
    exact hpresent ⟨List.mem_map_of_mem hold, (KeyedArena.get?_ofList_eq_none_iff ..).mp habsent⟩

end Merged

/-- The file stored under an id after a merge. -/
def mergedFile (stored previous current : Option FileRecord) : Option FileRecord :=
  match previous, current with
  | _, none => none
  | none, some current => some current
  | some previous, some current => if previous.unchangedFrom current then stored else some current

theorem get?_applyIncrementalFiles (tx : BufferedIndexTransaction)
    {previous current : List FileRecord} (hcurrent : (current.map FileRecord.id).Nodup)
    (hstored : ∀ file ∈ tx.files.records, file.id ∈ previous.map FileRecord.id) (id : FileId) :
    (tx.applyIncrementalFiles previous current).2.files.get? id =
      mergedFile (tx.files.get? id) ((KeyedArena.ofList previous : FileRecords).get? id)
        ((KeyedArena.ofList current : FileRecords).get? id) := by
  cases hc : (KeyedArena.ofList current : FileRecords).get? id with
  | none =>
      have habsent := (KeyedArena.get?_ofList_eq_none_iff current id).mp hc
      by_cases hp : id ∈ previous.map FileRecord.id
      · rw [get?_of_removedById tx ⟨hp, habsent⟩]
        rfl
      · -- The id is on neither side, so nothing is stored under it.
        have hunstored : tx.files.get? id = none := by
          rw [KeyedArena.get?_eq_none_iff]
          exact fun file hfile hid ↦ hp (hid ▸ hstored file hfile)
        rw [get?_of_untouched tx _ fun h ↦ hp h.1, hunstored]
        · rfl
        · rintro ⟨file, hfile, rfl, _⟩
          exact habsent (List.mem_map_of_mem hfile)
  | some file =>
      obtain ⟨hfile, rfl⟩ := (KeyedArena.get?_ofList_eq_some_iff hcurrent id file).mp hc
      cases hp : (KeyedArena.ofList previous : FileRecords).get? file.id with
      | none =>
          have hnew : ReplacedById previous current file.id := ⟨file, hfile, rfl, by simp [hp]⟩
          rw [get?_of_replacedById tx hnew, hc]
          rfl
      | some old =>
          by_cases hsame : old.unchangedFrom file
          · rw [get?_of_untouched tx]
            · simp only [mergedFile, if_pos hsame]
            · rintro ⟨other, hother, hid, hdiffers⟩
              obtain rfl := List.inj_on_of_nodup_map hcurrent hother hfile hid
              exact hdiffers old hp hsame
            · exact fun h ↦ h.2 (List.mem_map_of_mem hfile)
          · have hchanged : ReplacedById previous current file.id :=
              ⟨file, hfile, rfl, by simpa [hp] using hsame⟩
            simp only [mergedFile, if_neg hsame]
            rw [get?_of_replacedById tx hchanged, hc]

/-! ## Merging whole transactions -/

section MergeIncremental

variable (state transaction : BufferedIndexTransaction)

theorem changes_mergeIncremental :
    (state.mergeIncremental transaction).1 =
      diffFileRecords state.snapshotFilesWithPaths transaction.snapshotFilesWithPaths :=
  changes_applyIncrementalFiles _ _ _

theorem fileChanges_mergeIncremental :
    (state.mergeIncremental transaction).2.fileChanges =
      state.fileChanges ++ [(state.mergeIncremental transaction).1] := by
  rw [changes_mergeIncremental]
  exact fileChanges_applyIncrementalFiles _ _ _

theorem directories_mergeIncremental :
    (state.mergeIncremental transaction).2.directories = transaction.directories :=
  directories_applyIncrementalFiles _ _ _

theorem sessions_mergeIncremental :
    (state.mergeIncremental transaction).2.sessions = transaction.sessions :=
  sessions_applyIncrementalFiles _ _ _

theorem get?_mergeIncremental (id : FileId) :
    (state.mergeIncremental transaction).2.files.get? id =
      mergedFile (state.files.get? id)
        ((KeyedArena.ofList state.snapshotFilesWithPaths : FileRecords).get? id)
        ((KeyedArena.ofList transaction.snapshotFilesWithPaths : FileRecords).get? id) := by
  refine get?_applyIncrementalFiles _ transaction.nodup_snapshotFilesWithPaths ?_ id
  intro file hfile
  exact (state.mem_map_id_snapshotFilesWithPaths file.id).mpr (List.mem_map_of_mem hfile)

theorem get?_ofList_snapshotFilesWithPaths_ne_none (tx : BufferedIndexTransaction) (id : FileId) :
    (KeyedArena.ofList tx.snapshotFilesWithPaths : FileRecords).get? id ≠ none ↔
      id ∈ tx.fileIds := by
  rw [Ne, KeyedArena.get?_ofList_eq_none_iff, not_not, mem_map_id_snapshotFilesWithPaths]

/-- The ids that remain after a merge are those of the rescan. -/
theorem mem_fileIds_mergeIncremental (id : FileId) :
    id ∈ (state.mergeIncremental transaction).2.fileIds ↔ id ∈ transaction.fileIds := by
  have hcurrent := get?_ofList_snapshotFilesWithPaths_ne_none transaction id
  have hprevious := get?_ofList_snapshotFilesWithPaths_ne_none state id
  rw [mem_fileIds_iff_get?, get?_mergeIncremental]
  rw [mem_fileIds_iff_get?] at hprevious
  cases hc : (KeyedArena.ofList transaction.snapshotFilesWithPaths : FileRecords).get? id with
  | none =>
      rw [hc] at hcurrent
      simpa [mergedFile] using hcurrent
  | some current =>
      rw [hc] at hcurrent
      refine iff_of_true ?_ (hcurrent.mp (by simp))
      cases hp : (KeyedArena.ofList state.snapshotFilesWithPaths : FileRecords).get? id with
      | none => simp [mergedFile]
      | some previous =>
          rw [hp] at hprevious
          by_cases hsame : previous.unchangedFrom current
          · simpa [mergedFile, hsame] using hprevious.mp (by simp)
          · simp [mergedFile, hsame]

/-- A file is reported as removed exactly when the rescan lacks its id. -/
theorem removed_mem_mergeIncremental_iff (id : FileId) :
    (∃ change ∈ (state.mergeIncremental transaction).1.changes,
        change.kind = .removed ∧ change.fileId = id) ↔
      id ∈ state.fileIds ∧ id ∉ transaction.fileIds := by
  rw [changes_mergeIncremental]
  constructor
  · rintro ⟨change, hchange, hkind, rfl⟩
    rcases (mem_diffFileRecords_iff change).mp hchange with
      ⟨file, _, hsome⟩ | ⟨file, hfile, hsome⟩
    · exact (currentChange_kind_ne_removed hsome hkind).elim
    · obtain ⟨hnone, rfl⟩ := (removedChange_eq_some_iff ..).mp hsome
      refine ⟨(state.mem_map_id_snapshotFilesWithPaths _).mp (List.mem_map_of_mem hfile), ?_⟩
      intro hmem
      exact (get?_ofList_snapshotFilesWithPaths_ne_none transaction _).mpr hmem hnone
  · rintro ⟨hstate, htransaction⟩
    obtain ⟨file, hfile, rfl⟩ :=
      List.mem_map.mp ((state.mem_map_id_snapshotFilesWithPaths id).mpr hstate)
    have hnone : (KeyedArena.ofList transaction.snapshotFilesWithPaths : FileRecords).get?
        file.id = none := by
      by_contra h
      exact htransaction ((get?_ofList_snapshotFilesWithPaths_ne_none transaction _).mp h)
    refine ⟨⟨file.id, .removed, some file.fullPath, none⟩, ?_, rfl, rfl⟩
    exact (mem_diffFileRecords_iff _).mpr
      (.inr ⟨file, hfile, (removedChange_eq_some_iff ..).mpr ⟨hnone, rfl⟩⟩)

theorem mem_fileIds_remapByPath (id : FileId) :
    id ∈ (state.remapByPath transaction).fileIds ↔
      ∃ file ∈ remapCurrentFilesByPath state.snapshotFilesWithPaths
        transaction.snapshotFilesWithPaths, file.id = id := by
  unfold fileIds remapByPath remapCurrentDirectoryIdsByPath
  rw [KeyedArena.mem_keys_ofList, List.map_map, List.mem_map]
  rfl

end MergeIncremental

end BufferedIndexTransaction

end WinBlaze
