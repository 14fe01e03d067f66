import WinBlaze.Scanner.Ntfs.Interleavings

/-!
# Files that are emitted more than once

An extension that enlarges an emitted file emits the file again. Where records
have different numbers, nothing else does.
-/

namespace WinBlaze

namespace Ntfs

/-- No extension that comes after a file with an attribute list enlarges it
beyond the sizes known by then. -/
def NoLateGrowth (fed : List ParsedRecordOutcome) : Prop :=
  ∀ before extension rest, fed = before ++ .extension extension :: rest →
    ∀ entry ∈ knownFiles before, entry.hasAttributeList = true →
      extension.baseRecord = entry.fileId.val →
        extension.sizeBytes ≤ entry.sizeBytes ∧ extension.allocationBytes ≤ entry.allocationBytes

/-- The last record enlarges no emitted file. -/
def EnlargesNone (known : List ParsedNtfsEntry) : ParsedRecordOutcome → Prop
  | .extension extension => ∀ entry ∈ known, entry.hasAttributeList = true →
      extension.baseRecord = entry.fileId.val →
        extension.sizeBytes ≤ entry.sizeBytes ∧ extension.allocationBytes ≤ entry.allocationBytes
  | _ => True

theorem noLateGrowth_nil : NoLateGrowth [] := by
  intro before extension rest h
  cases before <;> cases h

theorem noLateGrowth_concat (fed : List ParsedRecordOutcome) (outcome : ParsedRecordOutcome) :
    NoLateGrowth (fed ++ [outcome]) ↔ NoLateGrowth fed ∧ EnlargesNone (knownFiles fed) outcome := by
  constructor
  · intro h
    constructor
    · intro before extension rest hfed
      refine h before extension (rest ++ [outcome]) ?_
      rw [hfed, List.append_assoc, List.cons_append]
    · cases outcome with
      | extension extension => exact h fed extension [] rfl
      | entry entry => trivial
      | none => trivial
  · rintro ⟨hfed, hlast⟩ before extension rest heq
    rcases List.eq_nil_or_concat rest with rfl | ⟨front, last, rfl⟩
    · obtain ⟨rfl, hone⟩ := List.append_inj' heq rfl
      rw [(List.cons.inj hone).1] at hlast
      exact hlast
    · refine hfed before extension front ?_
      have hsplit : fed ++ [outcome] = (before ++ .extension extension :: front) ++ [last] := by
        rw [heq, List.concat_eq_append, List.append_assoc, List.cons_append]
      exact (List.append_inj' hsplit rfl).1

theorem withSizes_eq_self_iff (entry : ParsedNtfsEntry) (sizes : ExtensionSizes) :
    entry.withSizes sizes = entry ↔
      sizes.sizeBytes ≤ entry.sizeBytes ∧ sizes.allocationBytes ≤ entry.allocationBytes := by
  have hmax : ∀ a b : UInt64, max a b = a ↔ b ≤ a := by
    intro a b
    rw [← UInt64.toNat_inj, UInt64.le_iff_toNat_le, Saturating.toNat_max]
    exact max_eq_left_iff
  rw [← hmax, ← hmax]
  constructor
  · intro h
    exact ⟨congrArg ParsedNtfsEntry.sizeBytes h, congrArg ParsedNtfsEntry.allocationBytes h⟩
  · rintro ⟨hsize, hallocation⟩
    exact NtfsStreamState.withSizes_eq_self hsize hallocation

namespace NtfsStreamState

/-- A known file was emitted, and nothing else. -/
theorem EmitsLast.mem_emitted_iff {fed : List ParsedRecordOutcome} {state : NtfsStreamState}
    (h : EmitsLast fed state) (id : FileId) :
    id ∈ state.emittedFiles.map FileRecord.id ↔ id ∈ (knownFiles fed).map ParsedNtfsEntry.fileId := by
  have hlast : id ∈ state.emittedFiles.map FileRecord.id ↔
      ∃ file, lastFile state.emittedFiles id = some file := by
    unfold lastFile
    rw [← Option.isSome_iff_exists, List.find?_isSome]
    simp
  rw [hlast, List.mem_map]
  constructor
  · rintro ⟨file, hfile⟩
    obtain ⟨entry, hmem, hid, -⟩ := (h id file).mp hfile
    exact ⟨entry, hmem, hid⟩
  · rintro ⟨entry, hmem, hid⟩
    exact ⟨_, (h id _).mpr ⟨entry, hmem, hid, rfl⟩⟩

/-- Every file was emitted once so far exactly when none was enlarged late. -/
def EmitsOnce (fed : List ParsedRecordOutcome) (state : NtfsStreamState) : Prop :=
  (state.emittedFiles.map FileRecord.id).Nodup ↔ NoLateGrowth fed

section Step

variable {fed : List ParsedRecordOutcome} {state : NtfsStreamState}

/-- A record that emits no file. -/
theorem EmitsOnce.frame (h : EmitsOnce fed state) {next : NtfsStreamState}
    {outcome : ParsedRecordOutcome} (hlast : EnlargesNone (knownFiles fed) outcome)
    (hemitted : next.emittedFiles = state.emittedFiles) : EmitsOnce (fed ++ [outcome]) next := by
  rw [EmitsOnce, hemitted, noLateGrowth_concat]
  exact Iff.trans h (and_iff_left hlast).symm

theorem EmitsOnce.ingestEntry (h : EmitsOnce fed state) (hlast : EmitsLast fed state)
    {entry : ParsedNtfsEntry} (hdistinct : DistinctRecords (fed ++ [.entry entry])) :
    EmitsOnce (fed ++ [.entry entry]) (state.ingestEntry entry) := by
  have hemitted := (emittedFiles_ingestSized { state with
    pendingExtensions := state.pendingExtensions.remove entry.fileId.val } (state.pendingEntry entry)).2
  have hkind : (state.pendingEntry entry).isDirectory = entry.isDirectory :=
    congrArg (fun key ↦ key.2.isDirectory) (entryKey_pendingEntry state entry)
  have hid : (state.pendingEntry entry).fileId = entry.fileId :=
    FileId.val_injective (congrArg Prod.fst (entryKey_pendingEntry state entry))
  cases hdirectory : entry.isDirectory with
  | true =>
      refine h.frame trivial (hemitted.trans ?_)
      simp only [hkind, hdirectory, List.filter_cons, List.filter_nil, Bool.not_true]
      exact List.append_nil _
  | false =>
      have hfresh : entry.fileId ∉ state.emittedFiles.map FileRecord.id := by
        rw [hlast.mem_emitted_iff]
        intro hmem
        obtain ⟨known, hknown, hsame⟩ := List.mem_map.mp hmem
        apply (hdistinct.fresh hdirectory).2
        rw [← hsame]
        exact mem_entries_of_mem_knownFiles hknown
      have hnext : (state.ingestEntry entry).emittedFiles =
          state.emittedFiles ++ [(state.pendingEntry entry).toFileRecord] := by
        refine hemitted.trans ?_
        simp only [hkind, hdirectory, List.filter_cons, List.filter_nil, Bool.not_false, if_true]
        rfl
      have hrecord : (state.pendingEntry entry).toFileRecord.id = entry.fileId := hid
      rw [EmitsOnce, hnext, List.map_append, List.map_singleton, hrecord, noLateGrowth_concat]
      refine Iff.trans ?_ (Iff.trans h (and_iff_left trivial).symm)
      rw [← List.concat_eq_append, List.nodup_concat]
      exact and_iff_right hfresh

theorem EmitsOnce.ingestExtension (h : EmitsOnce fed state) (hlast : EmitsLast fed state)
    (htallied : Tallied fed state) (hdistinct : DistinctRecords fed) (extension : ExtensionSizes) :
    EmitsOnce (fed ++ [.extension extension]) (state.ingestExtension extension) := by
  have hmissing : state.retainedFiles.get? extension.baseRecord = none →
      EnlargesNone (knownFiles fed) (.extension extension) := by
    intro hnone entry hmem hlist hbase
    rw [(htallied.retained _ entry).mpr ⟨hmem, hlist, hbase.symm⟩] at hnone
    cases hnone
  obtain ⟨entry, hretained, hnext⟩ | ⟨hnone, -, hnext⟩ | ⟨hnone, -, hnext⟩ :=
    ingestExtension_cases state extension
  · obtain ⟨hmem, hlist, hid⟩ := (htallied.retained _ entry).mp hretained
    by_cases hsame : entry.withSizes extension = entry
    · have hnone : EnlargesNone (knownFiles fed) (.extension extension) := by
        intro other hother _ hbase
        have heq : other = entry := List.inj_on_of_nodup_map hdistinct.nodup_knownFiles hother hmem
          (hbase.symm.trans hid.symm)
        rw [heq]
        exact (withSizes_eq_self_iff entry extension).mp hsame
      refine h.frame hnone ?_
      rw [NtfsStreamState.ingestExtension, hretained]
      dsimp only
      rw [if_pos ⟨congrArg _ hsame, congrArg _ hsame⟩]
    · have hgrown : state.ingestExtension extension =
          state.growFile entry (entry.withSizes extension) := hnext.resolve_left (hsame ·.1)
      have hemitted : (state.growFile entry (entry.withSizes extension)).emittedFiles =
          state.emittedFiles ++ [(entry.withSizes extension).toFileRecord] := List.filterMap_append
      have hagain : entry.fileId ∈ state.emittedFiles.map FileRecord.id :=
        (hlast.mem_emitted_iff entry.fileId).mpr (List.mem_map_of_mem hmem)
      rw [EmitsOnce, hgrown, hemitted, noLateGrowth_concat]
      apply iff_of_false
      · intro hnodup
        rw [List.map_append, List.map_singleton, ← List.concat_eq_append, List.nodup_concat] at hnodup
        exact hnodup.1 hagain
      · intro hfed
        exact hsame ((withSizes_eq_self_iff entry extension).mpr (hfed.2 entry hmem hlist hid.symm))
  · rw [hnext]
    exact h.frame (hmissing hnone) rfl
  · rw [hnext]
    exact h.frame (hmissing hnone) rfl

end Step

theorem EmitsOnce.foldl {rootText : String} {fed : List ParsedRecordOutcome} {state : NtfsStreamState}
    (h : EmitsOnce fed state) (hlast : EmitsLast fed state) (htallied : Tallied fed state)
    (hfed : Fed rootText fed state) (rest : List ParsedRecordOutcome)
    (hdistinct : DistinctRecords (fed ++ rest)) :
    EmitsOnce (fed ++ rest) (rest.foldl NtfsStreamState.ingestOutcome state) := by
  induction rest generalizing fed state with
  | nil => rwa [List.append_nil]
  | cons outcome rest ih =>
      rw [← List.singleton_append, ← List.append_assoc] at hdistinct ⊢
      rw [List.singleton_append, List.foldl_cons]
      have hstep := hdistinct.of_append
      refine ih ?_ (hlast.foldl htallied hfed [outcome] hstep) (htallied.foldl hfed [outcome] hstep)
        (hfed.ingestOutcome outcome) hdistinct
      cases outcome with
      | none => exact h.frame trivial rfl
      | entry entry => exact h.ingestEntry hlast hstep
      | extension extension => exact h.ingestExtension hlast htallied hstep.of_append extension

/-- A whole run emits every file once exactly when no extension enlarges one late. -/
theorem nodup_emittedFiles_iff (rootText : String) {fed : List ParsedRecordOutcome}
    (hdistinct : DistinctRecords fed) :
    ((enumerateOutcomes rootText fed).emittedFiles.map FileRecord.id).Nodup ↔ NoLateGrowth fed := by
  have hroot : EmitsOnce [] (emitRoot { rootText := rootText }) :=
    iff_of_true List.nodup_nil noLateGrowth_nil
  have hrun := hroot.foldl (emitsLast_emitRoot rootText) (tallied_emitRoot rootText)
    (fed_emitRoot rootText) fed hdistinct
  rw [List.nil_append] at hrun
  rw [enumerateOutcomes, (sameFiles_finish _).emitted]
  exact hrun

end NtfsStreamState

end Ntfs

end WinBlaze
