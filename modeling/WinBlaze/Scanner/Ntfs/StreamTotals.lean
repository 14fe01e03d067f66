import WinBlaze.Scanner.Ntfs.StreamOutcomes

/-!
# The byte totals of the streaming backend

A file is totalled with the sizes of the extensions fed before it. One fed
after it is added only if the file has an attribute list, since other files are
not kept. So a total falls short of the batch backend's by what late extensions
would add, unless it saturates.
-/

namespace WinBlaze

namespace Ntfs

open Saturating

def fileEntries (records : List ParsedRecordOutcome) : List ParsedNtfsEntry :=
  (entriesOf records).filter (fun entry ↦ !entry.isDirectory)

/-- The files with the sizes that are known once the records are fed, when
`before` was fed before them. -/
def knownFilesFrom (before : List ExtensionSizes) : List ParsedRecordOutcome → List ParsedNtfsEntry
  | [] => []
  | .entry entry :: rest =>
      if entry.isDirectory then knownFilesFrom before rest
      else
        growBy (extensionsFor entry.fileId.val
          (before ++ if entry.hasAttributeList then extensionsOf rest else [])) entry ::
            knownFilesFrom before rest
  | .extension sizes :: rest => knownFilesFrom (before ++ [sizes]) rest
  | .none :: rest => knownFilesFrom before rest

def knownFiles (fed : List ParsedRecordOutcome) : List ParsedNtfsEntry := knownFilesFrom [] fed

/-- What a later record changes about a file. -/
def learn (outcome : ParsedRecordOutcome) (entry : ParsedNtfsEntry) : ParsedNtfsEntry :=
  if entry.hasAttributeList then
    growBy (extensionsFor entry.fileId.val (extensionsOf [outcome])) entry
  else entry

theorem extensionsFor_append (id : UInt64) (first second : List ExtensionSizes) :
    extensionsFor id (first ++ second) = extensionsFor id first ++ extensionsFor id second :=
  List.filter_append ..

theorem knownFilesFrom_concat (before : List ExtensionSizes) (fed : List ParsedRecordOutcome)
    (outcome : ParsedRecordOutcome) :
    knownFilesFrom before (fed ++ [outcome]) =
      (knownFilesFrom before fed).map (learn outcome) ++
        knownFilesFrom (before ++ extensionsOf fed) [outcome] := by
  induction fed generalizing before with
  | nil =>
      rw [List.nil_append, knownFilesFrom, List.map_nil, List.nil_append]
      exact congrArg (knownFilesFrom · [outcome]) (List.append_nil before).symm
  | cons first rest ih =>
      rw [List.cons_append]
      cases first with
      | none =>
          rw [knownFilesFrom, knownFilesFrom, ih]
          rfl
      | extension extension =>
          rw [knownFilesFrom, knownFilesFrom, ih, List.append_assoc]
          rfl
      | entry entry =>
          have hextensions : extensionsOf (.entry entry :: rest) = extensionsOf rest := rfl
          rw [knownFilesFrom, knownFilesFrom, hextensions, ih]
          split
          case isTrue => rfl
          case isFalse =>
            rw [List.map_cons, List.cons_append]
            refine congrArg (· :: _) ?_
            rw [learn, growBy_hasAttributeList, growBy_fileId]
            split
            case isTrue =>
              rw [extensionsOf_append, ← List.append_assoc, extensionsFor_append, growBy_append]
            case isFalse => rfl

theorem knownFilesFrom_fileId (before : List ExtensionSizes) (fed : List ParsedRecordOutcome) :
    (knownFilesFrom before fed).map (fun entry ↦ entry.fileId.val) =
      (fileEntries fed).map (fun entry ↦ entry.fileId.val) := by
  induction fed generalizing before with
  | nil => rfl
  | cons first rest ih =>
      cases first with
      | none => exact ih before
      | extension extension => exact ih _
      | entry entry =>
          rw [knownFilesFrom]
          cases hdirectory : entry.isDirectory with
          | true =>
              rw [if_pos rfl, ih]
              simp [fileEntries, entriesOf, ParsedRecordOutcome.entry?, hdirectory]
          | false =>
              rw [if_neg Bool.false_ne_true, List.map_cons, ih]
              simp [fileEntries, entriesOf, ParsedRecordOutcome.entry?, hdirectory]

/-! ## Records with different numbers -/

theorem DistinctRecords.of_append {fed rest : List ParsedRecordOutcome}
    (h : DistinctRecords (fed ++ rest)) : DistinctRecords fed := by
  refine List.Nodup.sublist (List.Sublist.cons_cons _ (List.Sublist.map _ ?_)) h
  rw [keptEntries, keptEntries, entriesOf_append, List.filter_append]
  exact List.sublist_append_left _ _

theorem DistinctRecords.nodup_knownFiles {fed : List ParsedRecordOutcome} (h : DistinctRecords fed) :
    ((knownFiles fed).map (fun entry ↦ entry.fileId.val)).Nodup := by
  have hfiles : fileEntries fed = (keptEntries fed).filter (fun entry ↦ !entry.isDirectory) := by
    rw [fileEntries, keptEntries, List.filter_filter]
    apply List.filter_congr
    intro entry _
    rw [isKept_eq]
    cases entry.isDirectory <;> simp
  rw [knownFiles, knownFilesFrom_fileId, hfiles]
  exact (List.nodup_cons.mp h).2.sublist (List.filter_sublist.map _)

/-- A new file has a number that no entry fed so far has. -/
theorem DistinctRecords.fresh {fed : List ParsedRecordOutcome} {entry : ParsedNtfsEntry}
    (h : DistinctRecords (fed ++ [.entry entry])) (hfile : entry.isDirectory = false) :
    entry.fileId.val ≠ ntfsRootRecord ∧
      entry.fileId.val ∉ (entriesOf fed).map (fun entry ↦ entry.fileId.val) := by
  have hentries : entriesOf (fed ++ [.entry entry]) = entriesOf fed ++ [entry] := entriesOf_append _ _
  have hkept : keptEntries (fed ++ [.entry entry]) = keptEntries fed ++ [entry] := by
    rw [keptEntries, hentries, List.filter_append, keptEntries]
    simp [isKept, hfile]
  have hroot : entry.fileId.val ≠ ntfsRootRecord := by
    intro hid
    have hmem : entry ∈ entriesOf (fed ++ [.entry entry]) := by simp [hentries]
    rw [h.isDirectory_of_root hmem hid] at hfile
    cases hfile
  refine ⟨hroot, fun hmem ↦ ?_⟩
  obtain ⟨other, hother, hid⟩ := List.mem_map.mp hmem
  have hnodup := (List.nodup_cons.mp h).2
  rw [hkept, List.map_append, List.nodup_append] at hnodup
  apply hnodup.2.2 other.fileId.val _ entry.fileId.val (List.mem_singleton.mpr rfl) hid
  apply List.mem_map_of_mem
  exact List.mem_filter.mpr ⟨hother, isKept_of_ne (hid ▸ hroot)⟩

theorem mem_entries_of_mem_knownFiles {fed : List ParsedRecordOutcome} {entry : ParsedNtfsEntry}
    (h : entry ∈ knownFiles fed) :
    entry.fileId.val ∈ (entriesOf fed).map (fun entry ↦ entry.fileId.val) := by
  have hid := List.mem_map_of_mem (f := fun entry : ParsedNtfsEntry ↦ entry.fileId.val) h
  rw [knownFiles, knownFilesFrom_fileId] at hid
  obtain ⟨other, hother, hsame⟩ := List.mem_map.mp hid
  exact List.mem_map.mpr ⟨other, List.mem_of_mem_filter hother, hsame⟩

/-! ## What one more record changes -/

theorem knownFiles_concat (fed : List ParsedRecordOutcome) (outcome : ParsedRecordOutcome) :
    knownFiles (fed ++ [outcome]) =
      (knownFiles fed).map (learn outcome) ++ knownFilesFrom (extensionsOf fed) [outcome] :=
  knownFilesFrom_concat [] fed outcome

theorem learn_of_extensionsOf_nil {outcome : ParsedRecordOutcome} (h : extensionsOf [outcome] = [])
    (entry : ParsedNtfsEntry) : learn outcome entry = entry := by
  rw [learn, h]
  exact ite_self entry

theorem knownFiles_concat_none (fed : List ParsedRecordOutcome) :
    knownFiles (fed ++ [.none]) = knownFiles fed := by
  have hlearn : learn .none = id := funext (learn_of_extensionsOf_nil rfl)
  rw [knownFiles_concat, hlearn, List.map_id]
  exact List.append_nil _

theorem knownFiles_concat_entry (fed : List ParsedRecordOutcome) (entry : ParsedNtfsEntry) :
    knownFiles (fed ++ [.entry entry]) = knownFiles fed ++
      if entry.isDirectory then []
      else [growBy (extensionsFor entry.fileId.val (extensionsOf fed)) entry] := by
  have hlearn : learn (.entry entry) = id := funext (learn_of_extensionsOf_nil rfl)
  have hnil : (if entry.hasAttributeList then extensionsOf [] else []) = [] := ite_self _
  rw [knownFiles_concat, hlearn, List.map_id, knownFilesFrom, hnil, List.append_nil]
  rfl

theorem knownFiles_concat_extension (fed : List ParsedRecordOutcome) (extension : ExtensionSizes) :
    knownFiles (fed ++ [.extension extension]) =
      (knownFiles fed).map (learn (.extension extension)) := by
  rw [knownFiles_concat]
  exact List.append_nil _

theorem learn_extension (extension : ExtensionSizes) (entry : ParsedNtfsEntry) :
    learn (.extension extension) entry =
      if entry.hasAttributeList = true ∧ extension.baseRecord = entry.fileId.val then
        entry.withSizes extension
      else entry := by
  have hextensions : extensionsOf [ParsedRecordOutcome.extension extension] = [extension] := rfl
  rw [learn, hextensions]
  by_cases hbase : extension.baseRecord = entry.fileId.val
  · simp [extensionsFor, hbase, growBy]
  · simp [extensionsFor, hbase, growBy]

/-- An extension without a kept file changes no known file. -/
theorem map_learn_eq_self {known : List ParsedNtfsEntry} {extension : ExtensionSizes}
    (h : ∀ entry ∈ known, entry.hasAttributeList = true →
      extension.baseRecord = entry.fileId.val → entry.withSizes extension = entry) :
    known.map (learn (.extension extension)) = known := by
  refine (List.map_congr_left fun entry hmem ↦ ?_).trans (List.map_id known)
  rw [learn_extension]
  split
  case isTrue hgrows => exact h entry hmem hgrows.1 hgrows.2
  case isFalse => rfl

/-- An extension of a kept file changes this one alone. -/
theorem exists_map_learn {known : List ParsedNtfsEntry} {extension : ExtensionSizes}
    {entry : ParsedNtfsEntry} (hids : (known.map (fun entry ↦ entry.fileId.val)).Nodup)
    (hmem : entry ∈ known) (hlist : entry.hasAttributeList = true)
    (hbase : extension.baseRecord = entry.fileId.val) :
    ∃ front back, known = front ++ entry :: back ∧
      known.map (learn (.extension extension)) = front ++ entry.withSizes extension :: back := by
  obtain ⟨front, back, rfl⟩ := List.append_of_mem hmem
  refine ⟨front, back, rfl, ?_⟩
  rw [List.map_append, List.map_cons, List.nodup_append, List.nodup_cons] at hids
  obtain ⟨-, ⟨hback, -⟩, hfront⟩ := hids
  have hother : ∀ other : ParsedNtfsEntry, other.fileId.val ≠ entry.fileId.val →
      other.hasAttributeList = true → extension.baseRecord = other.fileId.val →
        other.withSizes extension = other := fun other hne _ hother ↦
    (hne (hother.symm.trans hbase)).elim
  rw [List.map_append, List.map_cons, learn_extension, if_pos ⟨hlist, hbase⟩]
  rw [map_learn_eq_self fun other hmem ↦ hother other ?_, map_learn_eq_self fun other hmem ↦ hother other ?_]
  · intro hid
    exact hback (List.mem_map.mpr ⟨other, hmem, hid⟩)
  · exact hfront _ (List.mem_map_of_mem hmem) _ List.mem_cons_self

namespace NtfsStreamState

/-- The totals are those of the known files, and what is kept suffices to go on. -/
structure Tallied (fed : List ParsedRecordOutcome) (state : NtfsStreamState) : Prop where
  totalSizeBytes : state.totalSizeBytes.toNat =
    min ((knownFiles fed).map (fun entry ↦ entry.sizeBytes.toNat)).sum maxValue
  totalAllocationBytes : state.totalAllocationBytes.toNat =
    min ((knownFiles fed).map (fun entry ↦ entry.allocationBytes.toNat)).sum maxValue
  retained : ∀ id entry, state.retainedFiles.get? id = some entry ↔
    entry ∈ knownFiles fed ∧ entry.hasAttributeList = true ∧ entry.fileId.val = id
  pending : ∀ entry : ParsedNtfsEntry, entry.fileId.val ≠ ntfsRootRecord →
    entry.fileId.val ∉ (entriesOf fed).map (fun entry ↦ entry.fileId.val) →
      state.pendingEntry entry =
        growBy (extensionsFor entry.fileId.val (extensionsOf fed)) entry

theorem pendingEntry_congr {state next : NtfsStreamState} {entry : ParsedNtfsEntry}
    (h : next.pendingExtensions.get? entry.fileId.val =
      state.pendingExtensions.get? entry.fileId.val) :
    next.pendingEntry entry = state.pendingEntry entry := by
  rw [pendingEntry, h, pendingEntry]

section Step

variable {fed : List ParsedRecordOutcome} {state : NtfsStreamState}

theorem Tallied.ingestNone (h : Tallied fed state) : Tallied (fed ++ [.none]) state := by
  have hentries : entriesOf (fed ++ [.none]) = entriesOf fed := by
    rw [entriesOf_append]
    exact List.append_nil _
  have hextensions : extensionsOf (fed ++ [.none]) = extensionsOf fed := by
    rw [extensionsOf_append]
    exact List.append_nil _
  constructor
  · rw [knownFiles_concat_none]
    exact h.totalSizeBytes
  · rw [knownFiles_concat_none]
    exact h.totalAllocationBytes
  · rw [knownFiles_concat_none]
    exact h.retained
  · rw [hentries, hextensions]
    exact h.pending

/-- Extensions that wait for other entries still wait. -/
theorem Tallied.pending_ingestEntry (h : Tallied fed state) {entry : ParsedNtfsEntry}
    {next : NtfsStreamState}
    (hnext : next.pendingExtensions = state.pendingExtensions.remove entry.fileId.val)
    (other : ParsedNtfsEntry) (hroot : other.fileId.val ≠ ntfsRootRecord)
    (hfresh : other.fileId.val ∉
      (entriesOf (fed ++ [.entry entry])).map (fun entry ↦ entry.fileId.val)) :
    next.pendingEntry other =
      growBy (extensionsFor other.fileId.val (extensionsOf (fed ++ [.entry entry]))) other := by
  have hentries : entriesOf (fed ++ [.entry entry]) = entriesOf fed ++ [entry] := entriesOf_append _ _
  have hextensions : extensionsOf (fed ++ [.entry entry]) = extensionsOf fed := by
    rw [extensionsOf_append]
    exact List.append_nil _
  rw [hentries, List.map_append, List.mem_append, not_or] at hfresh
  obtain ⟨hold, hne⟩ := hfresh
  rw [hextensions, ← h.pending other hroot hold]
  apply pendingEntry_congr
  rw [hnext]
  exact KeyedArena.get?_remove_of_ne _ fun hid ↦ hne (List.mem_singleton.mpr hid)

theorem Tallied.ingestEntry (h : Tallied fed state) {entry : ParsedNtfsEntry}
    (hdistinct : DistinctRecords (fed ++ [.entry entry])) :
    Tallied (fed ++ [.entry entry]) (state.ingestEntry entry) := by
  have hkind : (state.pendingEntry entry).isDirectory = entry.isDirectory :=
    congrArg (fun key ↦ key.2.isDirectory) (entryKey_pendingEntry state entry)
  cases hdirectory : entry.isDirectory with
  | true =>
      rw [hdirectory] at hkind
      have hknown : knownFiles (fed ++ [.entry entry]) = knownFiles fed := by
        rw [knownFiles_concat_entry, hdirectory, if_pos rfl, List.append_nil]
      have hsame := sameFiles_ingestSized { state with
        pendingExtensions := state.pendingExtensions.remove entry.fileId.val } hkind
      constructor
      · rw [hknown, NtfsStreamState.ingestEntry, hsame.totalSizeBytes]
        exact h.totalSizeBytes
      · rw [hknown, NtfsStreamState.ingestEntry, hsame.totalAllocationBytes]
        exact h.totalAllocationBytes
      · rw [hknown, NtfsStreamState.ingestEntry, hsame.retainedFiles]
        exact h.retained
      · exact h.pending_ingestEntry hsame.pendingExtensions
  | false =>
      rw [hdirectory] at hkind
      obtain ⟨hroot, hfresh⟩ := hdistinct.fresh hdirectory
      have hgrown := h.pending entry hroot hfresh
      have hid : (state.pendingEntry entry).fileId.val = entry.fileId.val :=
        congrArg Prod.fst (entryKey_pendingEntry state entry)
      have hknown : knownFiles (fed ++ [.entry entry]) =
          knownFiles fed ++ [state.pendingEntry entry] := by
        rw [knownFiles_concat_entry, hdirectory, if_neg Bool.false_ne_true, hgrown]
      have hnext : state.ingestEntry entry = emitFile { state with
          pendingExtensions := state.pendingExtensions.remove entry.fileId.val }
            (state.pendingEntry entry) := by
        rw [NtfsStreamState.ingestEntry, ingestSized, hkind, if_neg Bool.false_ne_true]
      have hnotKnown : ∀ known ∈ knownFiles fed, known.fileId.val ≠ entry.fileId.val := by
        intro known hmem heq
        exact hfresh (heq ▸ mem_entries_of_mem_knownFiles hmem)
      rw [hnext]
      constructor
      · rw [emitFile, toNat_satAdd, h.totalSizeBytes, hknown, List.map_append, List.sum_append,
          List.map_singleton, List.sum_singleton]
        omega
      · rw [emitFile, toNat_satAdd, h.totalAllocationBytes, hknown, List.map_append, List.sum_append,
          List.map_singleton, List.sum_singleton]
        omega
      · intro id known
        rw [hknown, List.mem_append, List.mem_singleton, emitFile]
        dsimp only
        by_cases hnew : id = entry.fileId.val
        · have hnone : state.retainedFiles.get? id = none := by
            refine Option.eq_none_iff_forall_ne_some.mpr fun found hfound ↦ ?_
            obtain ⟨hmem, -, hfoundId⟩ := (h.retained id found).mp hfound
            exact hnotKnown found hmem (hfoundId.trans hnew)
          have honly : (known ∈ knownFiles fed ∨ known = state.pendingEntry entry) ∧
              known.hasAttributeList = true ∧ known.fileId.val = id ↔
                (state.pendingEntry entry).hasAttributeList = true ∧
                  state.pendingEntry entry = known := by
            constructor
            · rintro ⟨hmem | rfl, hlist, hknownId⟩
              · exact (hnotKnown known hmem (hknownId.trans hnew)).elim
              · exact ⟨hlist, rfl⟩
            · rintro ⟨hlist, rfl⟩
              exact ⟨Or.inr rfl, hlist, hid.trans hnew.symm⟩
          rw [honly]
          split
          case isTrue hlist =>
            have hself := KeyedArena.get?_insert_self state.retainedFiles (state.pendingEntry entry)
            rw [hid, ← hnew] at hself
            rw [hself, Option.some.injEq, and_iff_right hlist]
          case isFalse hlist =>
            rw [hnone]
            exact iff_of_false (fun heq ↦ by cases heq) fun hgrown ↦ hlist hgrown.1
        · have hsame : (if (state.pendingEntry entry).hasAttributeList = true then
              state.retainedFiles.insert (state.pendingEntry entry)
              else state.retainedFiles).get? id = state.retainedFiles.get? id := by
            split
            case isTrue =>
              apply KeyedArena.get?_insert_of_ne
              exact fun heq ↦ hnew (heq.trans hid)
            case isFalse => rfl
          rw [hsame, h.retained]
          constructor
          · rintro ⟨hmem, hrest⟩
            exact ⟨Or.inl hmem, hrest⟩
          · rintro ⟨hmem | rfl, hlist, hknownId⟩
            · exact ⟨hmem, hlist, hknownId⟩
            · exact (hnew (hknownId.symm.trans hid)).elim
      · exact h.pending_ingestEntry rfl

/-- An extension for `id` waits among those for `id` alone. -/
theorem extensionsFor_concat (id : UInt64) (extensions : List ExtensionSizes)
    (extension : ExtensionSizes) :
    extensionsFor id (extensions ++ [extension]) = extensionsFor id extensions ++
      if extension.baseRecord = id then [extension] else [] := by
  rw [extensionsFor_append]
  by_cases hbase : extension.baseRecord = id <;> simp [extensionsFor, hbase]

/-- Sizes that wait grow an entry as the extensions one after the other do. -/
theorem withSizes_mergePending (state : NtfsStreamState) (extension : ExtensionSizes)
    {entry : ParsedNtfsEntry} (hid : extension.baseRecord = entry.fileId.val) :
    entry.withSizes (state.mergePending extension) =
      (state.pendingEntry entry).withSizes extension := by
  rw [mergePending, pendingEntry, hid]
  cases state.pendingExtensions.get? entry.fileId.val with
  | none => rfl
  | some sizes =>
      dsimp only
      simp only [ParsedNtfsEntry.withSizes, Saturating.max_assoc]

theorem mergePending_baseRecord (state : NtfsStreamState) (extension : ExtensionSizes) :
    (state.mergePending extension).baseRecord = extension.baseRecord := by
  rw [mergePending]
  cases hpending : state.pendingExtensions.get? extension.baseRecord with
  | none => rfl
  | some sizes => exact ((KeyedArena.get?_eq_some_iff _ _ sizes).mp hpending).2

theorem toNat_grow {before after : UInt64} (h : before ≤ after) {total : UInt64} {sum : ℕ}
    (htotal : total.toNat = min (sum + before.toNat) maxValue) :
    (satAdd total (after - before)).toNat = min (sum + after.toNat) maxValue := by
  have hle := UInt64.le_iff_toNat_le.mp h
  rw [toNat_satAdd, UInt64.toNat_sub_of_le _ _ h, htotal]
  omega

/-- Paths are known of the root and of entries that were fed. -/
theorem Fed.mem_entries_of_resolved {rootText : String} (h : Fed rootText fed state) {id : UInt64}
    (hresolved : (state.resolvedPaths.find? id).isSome = true) :
    id = ntfsRootRecord ∨ id ∈ (entriesOf fed).map (fun entry ↦ entry.fileId.val) := by
  obtain ⟨seen, done, hsettled, hkeys⟩ := h.settled
  obtain ⟨path, hpath⟩ := Option.isSome_iff_exists.mp hresolved
  rcases hsettled.resolved id path hpath with ⟨hroot, -⟩ | ⟨entry, hdone, rfl⟩
  · exact Or.inl hroot
  · right
    have haccounted : entry ∈ seen.filter isStreamed := by
      apply hsettled.accounted.mem_iff.mp
      exact List.mem_append_left _ (List.mem_map.mpr ⟨_, hdone, rfl⟩)
    have hkey := List.mem_map_of_mem (f := entryKey) (List.mem_of_mem_filter haccounted)
    rw [hkeys] at hkey
    obtain ⟨other, hother, hsame⟩ := List.mem_map.mp hkey
    exact List.mem_map.mpr ⟨other, hother, congrArg Prod.fst hsame⟩

/-- For other entries nothing more waits. -/
theorem Tallied.pending_ingestExtension (h : Tallied fed state) {extension : ExtensionSizes}
    {next : NtfsStreamState} {other : ParsedNtfsEntry} (hroot : other.fileId.val ≠ ntfsRootRecord)
    (hfresh : other.fileId.val ∉ (entriesOf fed).map (fun entry ↦ entry.fileId.val))
    (hbase : extension.baseRecord ≠ other.fileId.val)
    (hnext : next.pendingExtensions.get? other.fileId.val =
      state.pendingExtensions.get? other.fileId.val) :
    next.pendingEntry other = growBy (extensionsFor other.fileId.val
      (extensionsOf (fed ++ [.extension extension]))) other := by
  have hextensions : extensionsOf (fed ++ [.extension extension]) = extensionsOf fed ++ [extension] :=
    extensionsOf_append _ _
  rw [hextensions, extensionsFor_concat, if_neg hbase, List.append_nil,
    ← h.pending other hroot hfresh]
  exact pendingEntry_congr hnext

/-- An extension of a file that is kept. -/
theorem Tallied.growFile (h : Tallied fed state) {extension : ExtensionSizes}
    (hdistinct : DistinctRecords fed) {entry : ParsedNtfsEntry}
    (hretained : state.retainedFiles.get? extension.baseRecord = some entry) :
    (entry.withSizes extension = entry → Tallied (fed ++ [.extension extension]) state) ∧
      Tallied (fed ++ [.extension extension])
        (state.growFile entry (entry.withSizes extension)) := by
  obtain ⟨hmem, hlist, hid⟩ := (h.retained _ entry).mp hretained
  have hnodup := hdistinct.nodup_knownFiles
  obtain ⟨front, back, hknown, hgrown⟩ := exists_map_learn hnodup hmem hlist hid.symm
  rw [← knownFiles_concat_extension] at hgrown
  have hentries : entriesOf (fed ++ [.extension extension]) = entriesOf fed := by
    rw [entriesOf_append]
    exact List.append_nil _
  have hpending : ∀ next : NtfsStreamState, next.pendingExtensions = state.pendingExtensions →
      ∀ other : ParsedNtfsEntry, other.fileId.val ≠ ntfsRootRecord →
        other.fileId.val ∉ (entriesOf (fed ++ [.extension extension])).map
          (fun entry ↦ entry.fileId.val) →
        next.pendingEntry other = growBy (extensionsFor other.fileId.val
          (extensionsOf (fed ++ [.extension extension]))) other := by
    intro next hnext other hroot hfresh
    rw [hentries] at hfresh
    refine h.pending_ingestExtension hroot hfresh ?_ (by rw [hnext])
    rintro hbase
    apply hfresh
    rw [← hbase, ← hid]
    exact mem_entries_of_mem_knownFiles hmem
  constructor
  · intro hsame
    have hunchanged : knownFiles (fed ++ [.extension extension]) = knownFiles fed := by
      rw [hgrown, hsame, hknown]
    constructor
    · rw [hunchanged]
      exact h.totalSizeBytes
    · rw [hunchanged]
      exact h.totalAllocationBytes
    · rw [hunchanged]
      exact h.retained
    · exact hpending state rfl
  · have hsum : ∀ (size : ParsedNtfsEntry → ℕ) (other : ParsedNtfsEntry),
        ((front ++ other :: back).map size).sum =
          (front.map size).sum + (back.map size).sum + size other := by
      intro size other
      rw [List.map_append, List.map_cons, List.sum_append, List.sum_cons]
      omega
    constructor
    · have htotal := h.totalSizeBytes
      rw [hknown, hsum] at htotal
      rw [hgrown, hsum]
      exact toNat_grow (Saturating.le_max_left _ _) htotal
    · have htotal := h.totalAllocationBytes
      rw [hknown, hsum] at htotal
      rw [hgrown, hsum]
      exact toNat_grow (Saturating.le_max_left _ _) htotal
    · intro id other
      have hothers := hnodup
      rw [hknown, List.map_append, List.map_cons, List.nodup_append, List.nodup_cons] at hothers
      obtain ⟨-, ⟨hback, -⟩, hfront⟩ := hothers
      rw [NtfsStreamState.growFile, hgrown]
      by_cases hbase : id = entry.fileId.val
      · have hself := KeyedArena.get?_insert_self state.retainedFiles (entry.withSizes extension)
        rw [ParsedNtfsEntry.withSizes_fileId, ← hbase] at hself
        rw [hself, Option.some.injEq]
        constructor
        · rintro rfl
          exact ⟨by simp, hlist, hbase.symm⟩
        · rintro ⟨hother, -, hotherId⟩
          rcases List.mem_append.mp hother with hin | hin
          · exact (hfront _ (List.mem_map_of_mem hin) _ List.mem_cons_self
              (hotherId.trans hbase)).elim
          · rcases List.mem_cons.mp hin with rfl | hin
            · rfl
            · exact (hback (List.mem_map.mpr ⟨other, hin, hotherId.trans hbase⟩)).elim
      · have hsame : (state.retainedFiles.insert (entry.withSizes extension)).get? id =
            state.retainedFiles.get? id :=
          KeyedArena.get?_insert_of_ne state.retainedFiles (entry.withSizes extension) hbase
        rw [hsame, h.retained, hknown]
        simp only [List.mem_append, List.mem_cons]
        constructor
        · rintro ⟨hin | rfl | hin, hrest⟩
          · exact ⟨Or.inl hin, hrest⟩
          · exact (hbase hrest.2.symm).elim
          · exact ⟨Or.inr (Or.inr hin), hrest⟩
        · rintro ⟨hin | rfl | hin, hrest⟩
          · exact ⟨Or.inl hin, hrest⟩
          · exact (hbase hrest.2.symm).elim
          · exact ⟨Or.inr (Or.inr hin), hrest⟩
    · exact hpending _ rfl

theorem Tallied.ingestExtension (h : Tallied fed state) {rootText : String}
    (hfed : Fed rootText fed state) (extension : ExtensionSizes) (hdistinct : DistinctRecords fed) :
    Tallied (fed ++ [.extension extension]) (state.ingestExtension extension) := by
  have hentries : entriesOf (fed ++ [.extension extension]) = entriesOf fed := by
    rw [entriesOf_append]
    exact List.append_nil _
  have hunchanged : state.retainedFiles.get? extension.baseRecord = none →
      knownFiles (fed ++ [.extension extension]) = knownFiles fed := by
    intro hnone
    rw [knownFiles_concat_extension]
    refine map_learn_eq_self fun entry hmem hlist hbase ↦ ?_
    rw [(h.retained _ entry).mpr ⟨hmem, hlist, hbase.symm⟩] at hnone
    cases hnone
  obtain ⟨entry, hretained, ⟨hsame, hnext⟩ | hnext⟩ | ⟨hnone, hresolved, hnext⟩ |
    ⟨hnone, hresolved, hnext⟩ := ingestExtension_cases state extension
  · rw [hnext]
    exact (h.growFile hdistinct hretained).1 hsame
  · rw [hnext]
    exact (h.growFile hdistinct hretained).2
  · rw [hnext]
    refine ⟨?_, ?_, ?_, fun other hroot hfresh ↦ ?_⟩
    · rw [hunchanged hnone]
      exact h.totalSizeBytes
    · rw [hunchanged hnone]
      exact h.totalAllocationBytes
    · rw [hunchanged hnone]
      exact h.retained
    · rw [hentries] at hfresh
      refine h.pending_ingestExtension hroot hfresh ?_ rfl
      rintro hbase
      rcases hfed.mem_entries_of_resolved hresolved with hid | hid
      · exact hroot (hbase.symm.trans hid)
      · exact hfresh (hbase ▸ hid)
  · rw [hnext]
    refine ⟨?_, ?_, ?_, fun other hroot hfresh ↦ ?_⟩
    · rw [hunchanged hnone]
      exact h.totalSizeBytes
    · rw [hunchanged hnone]
      exact h.totalAllocationBytes
    · rw [hunchanged hnone]
      exact h.retained
    · rw [hentries] at hfresh
      by_cases hbase : extension.baseRecord = other.fileId.val
      · have hextensions : extensionsOf (fed ++ [.extension extension]) =
            extensionsOf fed ++ [extension] := extensionsOf_append _ _
        have hself := KeyedArena.get?_insert_self state.pendingExtensions
          (state.mergePending extension)
        rw [mergePending_baseRecord, hbase] at hself
        rw [hextensions, extensionsFor_concat, if_pos hbase, growBy_append,
          ← h.pending other hroot hfresh]
        rw [pendingEntry, hself]
        exact withSizes_mergePending state extension hbase
      · apply h.pending_ingestExtension hroot hfresh hbase
        apply KeyedArena.get?_insert_of_ne
        rw [mergePending_baseRecord]
        exact Ne.symm hbase

end Step

theorem Tallied.foldl {rootText : String} {fed : List ParsedRecordOutcome} {state : NtfsStreamState}
    (h : Tallied fed state) (hfed : Fed rootText fed state) (rest : List ParsedRecordOutcome)
    (hdistinct : DistinctRecords (fed ++ rest)) :
    Tallied (fed ++ rest) (rest.foldl NtfsStreamState.ingestOutcome state) := by
  induction rest generalizing fed state with
  | nil => rwa [List.append_nil]
  | cons outcome rest ih =>
      rw [← List.singleton_append, ← List.append_assoc] at hdistinct ⊢
      rw [List.singleton_append, List.foldl_cons]
      have hnext : Tallied (fed ++ [outcome]) (state.ingestOutcome outcome) := by
        cases outcome with
        | none => exact h.ingestNone
        | entry entry => exact h.ingestEntry hdistinct.of_append
        | extension extension => exact h.ingestExtension hfed extension hdistinct.of_append.of_append
      exact ih hnext (hfed.ingestOutcome outcome) hdistinct

theorem tallied_emitRoot (rootText : String) : Tallied [] (emitRoot { rootText := rootText }) := by
  refine ⟨rfl, rfl, fun id entry ↦ ?_, fun entry _ _ ↦ rfl⟩
  refine iff_of_false (fun h ↦ ?_) fun h ↦ ?_
  · cases h
  · cases h.1

/-- The totals of the streaming backend. -/
theorem toNat_totals_enumerateOutcomes (rootText : String) {fed : List ParsedRecordOutcome}
    (hdistinct : DistinctRecords fed) :
    (enumerateOutcomes rootText fed).totalSizeBytes.toNat =
        min ((knownFiles fed).map (fun entry ↦ entry.sizeBytes.toNat)).sum maxValue ∧
      (enumerateOutcomes rootText fed).totalAllocationBytes.toNat =
        min ((knownFiles fed).map (fun entry ↦ entry.allocationBytes.toNat)).sum maxValue := by
  have htallied := (tallied_emitRoot rootText).foldl (fed_emitRoot rootText) fed hdistinct
  have hsame := sameFiles_finish (fed.foldl ingestOutcome (emitRoot { rootText := rootText }))
  rw [enumerateOutcomes, hsame.totalSizeBytes, hsame.totalAllocationBytes]
  exact ⟨htallied.totalSizeBytes, htallied.totalAllocationBytes⟩

end NtfsStreamState

end Ntfs

end WinBlaze
