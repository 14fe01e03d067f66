import WinBlaze.Native.AbortedPass
import WinBlaze.Native.UiForwarder
import WinBlaze.Scanner.Ntfs.Reemission

/-!
# The live and the final breakdown by extension

The forwarder counts every file event, while the index keeps one record per
file. The two breakdowns of a scan are equal exactly when no file is emitted
twice.
-/

namespace WinBlaze

open Saturating

/-! ## Totals as a monoid -/

instance instAddExtensionTotal : Add ExtensionTotal where
  add a b := ⟨satAdd a.bytes b.bytes, satAdd a.files b.files⟩

instance instZeroExtensionTotal : Zero ExtensionTotal where
  zero := {}

namespace ExtensionTotal

theorem ext_fields {a b : ExtensionTotal} (hbytes : a.bytes = b.bytes) (hfiles : a.files = b.files) :
    a = b := by
  cases a
  cases b
  simp_all

theorem add_comm (a b : ExtensionTotal) : a + b = b + a :=
  ext_fields (satAdd_comm _ _) (satAdd_comm _ _)

theorem add_assoc (a b c : ExtensionTotal) : a + b + c = a + (b + c) :=
  ext_fields (satAdd_assoc _ _ _) (satAdd_assoc _ _ _)

theorem add_zero (a : ExtensionTotal) : a + 0 = a := ext_fields (satAdd_zero _) (satAdd_zero _)

end ExtensionTotal

instance instAddCommMonoidExtensionTotal : AddCommMonoid ExtensionTotal where
  add_assoc := ExtensionTotal.add_assoc
  zero_add a := (ExtensionTotal.add_comm 0 a).trans a.add_zero
  add_zero := ExtensionTotal.add_zero
  add_comm := ExtensionTotal.add_comm
  nsmul := nsmulRec

/-- What a file adds to its extension. -/
def fileTotal (file : FileRecord) : ExtensionTotal := ⟨file.sizeBytes, 1⟩

/-- The extension a file is counted under. -/
def extensionKey (file : FileRecord) : String := toAsciiLowercase (rawExtension file.name)

/-- The totals of the files of a list by extension. -/
def extensionTotal (files : List FileRecord) (extension : String) : Option ExtensionTotal :=
  Tally.total extensionKey fileTotal files extension

/-! ## Both count by lower-case extension -/

theorem toAsciiLowercase_eq_self {text : String} (h : hasAsciiUppercase text = false) :
    toAsciiLowercase text = text := by
  have hchars : text.toList.map Char.toLower = text.toList := by
    refine (List.map_congr_left fun c hc ↦ ?_).trans (List.map_id _)
    have hupper : c.isUpper = false := by
      rw [hasAsciiUppercase, List.any_eq_false] at h
      simpa using h c hc
    have houtside : ¬(c.val ≥ 'A'.val ∧ c.val ≤ 'Z'.val) := by
      rintro ⟨hlow, hhigh⟩
      have hinside : c.isUpper = true := decide_eq_true ⟨hlow, hhigh⟩
      rw [hinside] at hupper
      cases hupper
    exact dif_neg houtside
  rw [toAsciiLowercase, hchars, String.ofList_toList]

theorem countExtension_eq_add (totals : ExtensionTotals) (file : FileRecord) :
    countExtension totals file = Tally.add totals (extensionKey file) (fileTotal file) := by
  rw [countExtension, Tally.add, extensionKey]
  cases hupper : hasAsciiUppercase (rawExtension file.name) with
  | true => rfl
  | false =>
      rw [toAsciiLowercase_eq_self hupper]
      cases totals.find? (rawExtension file.name) <;> rfl

theorem extensionTotals_recordExtension (forwarder : UiEventForwarder) (file : FileRecord) :
    (forwarder.recordExtension file).extensionTotals =
      Tally.add forwarder.extensionTotals (extensionKey file) (fileTotal file) := by
  rw [UiEventForwarder.recordExtension, Tally.add, extensionKey]
  cases hupper : hasAsciiUppercase (rawExtension file.name) with
  | true => rfl
  | false =>
      rw [toAsciiLowercase_eq_self hupper]
      dsimp only
      cases forwarder.extensionTotals.find? (rawExtension file.name) with
      | some totals => rfl
      | none =>
          refine congrArg (forwarder.extensionTotals.set (rawExtension file.name)) ?_
          exact (zero_add (fileTotal file)).symm

theorem aggregateExtensionChunk_eq (files : List FileRecord) :
    aggregateExtensionChunk files = Tally.ofList extensionKey fileTotal files := by
  have hcount : countExtension = fun totals file ↦
      Tally.add totals (extensionKey file) (fileTotal file) :=
    funext₂ countExtension_eq_add
  rw [aggregateExtensionChunk, hcount]
  rfl

/-- Splitting the files into chunks changes no total. -/
theorem find?_aggregateExtensionTotals (availableParallelism : ℕ) (files : List FileRecord)
    (extension : String) :
    (aggregateExtensionTotals availableParallelism files).find? extension =
      extensionTotal files extension := by
  have hchunk : aggregateExtensionChunk = Tally.ofList extensionKey fileTotal :=
    funext aggregateExtensionChunk_eq
  have hparts : ∀ parts : List (List FileRecord), parts.flatten = files →
      ((parts.map aggregateExtensionChunk).dropLast.foldl
        (fun totals more ↦ more.records.foldl mergeExtension totals)
          ((parts.map aggregateExtensionChunk).getLast?.getD .empty)).find? extension =
            extensionTotal files extension := by
    rintro parts rfl
    rcases List.eq_nil_or_concat parts with rfl | ⟨front, last, rfl⟩
    · rfl
    · rw [hchunk, List.concat_eq_append, List.map_append, List.map_singleton, List.dropLast_concat,
        List.getLast?_concat, Option.getD_some]
      refine (Tally.find?_foldl_merge extensionKey fileTotal _ front extension).trans ?_
      have hperm : (front ++ [last]).flatten.Perm (last ++ front.flatten) := by
        rw [List.flatten_append, List.flatten_singleton]
        exact List.perm_append_comm
      rw [Tally.find?_ofList, extensionTotal, Tally.total_perm _ _ hperm, Tally.total_append]
  rw [aggregateExtensionTotals]
  split
  case isTrue => exact hparts [files] List.flatten_singleton
  case isFalse => exact hparts _ (Blocks.flatten_chunks _ files)

namespace UiEventForwarder

@[simp] theorem extensionTotals_flushDirectoryBatch (forwarder : UiEventForwarder) :
    forwarder.flushDirectoryBatch.extensionTotals = forwarder.extensionTotals := by
  rw [flushDirectoryBatch]
  split <;> rfl

@[simp] theorem extensionTotals_forwardDirectory (clock : ForwardClock) (forwarder : UiEventForwarder)
    (directory : DirectoryRecord) :
    (forwarder.forwardDirectory clock directory).extensionTotals = forwarder.extensionTotals := by
  rw [forwardDirectory]
  dsimp only
  split
  case isTrue => exact extensionTotals_flushDirectoryBatch _
  case isFalse => rfl

@[simp] theorem extensionTotals_shouldForward (clock : ForwardClock) (forwarder : UiEventForwarder)
    (event : ScanEvent) :
    (forwarder.shouldForward clock event).2.extensionTotals = forwarder.extensionTotals := by
  unfold shouldForward
  split
  · rfl
  · split <;> rfl
  · split <;> rfl
  · rfl

@[simp] theorem extensionTotals_deliver (clock : ForwardClock) (forwarder : UiEventForwarder)
    (event : ScanEvent) :
    (forwarder.deliver clock event).extensionTotals = forwarder.extensionTotals := by
  rw [deliver]
  split
  case isTrue =>
    dsimp only
    split <;> exact extensionTotals_shouldForward clock forwarder event
  case isFalse => rfl

/-- Only a file event changes the totals. -/
theorem extensionTotals_forward (clock : ForwardClock) (forwarder : UiEventForwarder)
    (event : ScanEvent) :
    (forwarder.forward clock event).extensionTotals =
      Tally.addAll extensionKey fileTotal forwarder.extensionTotals (emittedFiles [event]) := by
  cases event with
  | fileFound file =>
      rw [forward, extensionTotals_deliver]
      exact extensionTotals_recordExtension forwarder file
  | _ => simp [forward, emittedFiles, Tally.addAll]

theorem extensionTotals_forwardAll (forwarder : UiEventForwarder)
    (events : List (ForwardClock × ScanEvent)) :
    (forwarder.forwardAll events).extensionTotals =
      Tally.addAll extensionKey fileTotal forwarder.extensionTotals
        (emittedFiles (events.map Prod.snd)) := by
  induction events generalizing forwarder with
  | nil => rfl
  | cons timed rest ih =>
      have hsplit : emittedFiles ((timed :: rest).map Prod.snd) =
          emittedFiles [timed.2] ++ emittedFiles (rest.map Prod.snd) := by
        rw [List.map_cons, ← List.singleton_append]
        exact List.filterMap_append
      rw [hsplit, Tally.addAll, List.foldl_append]
      refine (ih (forwarder.forward timed.1 timed.2)).trans ?_
      rw [extensionTotals_forward]
      rfl

end UiEventForwarder

/-! ## When the breakdowns agree -/

/-- The files counted under an extension, while the counter has room. -/
theorem toNat_files_extensionTotal (files : List FileRecord) (extension : String) :
    ((extensionTotal files extension).getD 0).files.toNat =
      min (files.countP (fun file ↦ extensionKey file = extension)) maxValue := by
  have hsum := toNat_sum ExtensionTotal.files rfl (fun _ _ ↦ rfl)
    ((files.filter (fun file ↦ extensionKey file = extension)).map fileTotal)
  have hone : ((fun total : ExtensionTotal ↦ total.files.toNat) ∘ fileTotal) = fun _ ↦ 1 := rfl
  rw [List.map_map, hone, List.map_const', List.sum_replicate, nsmul_eq_mul, mul_one, Nat.cast_id,
    ← List.countP_eq_length_filter] at hsum
  rw [extensionTotal, Tally.total]
  split
  case isTrue => exact hsum
  case isFalse hnone =>
    have hcount : files.countP (fun file ↦ extensionKey file = extension) = 0 := by
      rw [List.countP_eq_zero]
      intro file hfile hkey
      exact hnone (List.mem_map.mpr ⟨file, hfile, of_decide_eq_true hkey⟩)
    rw [hcount]
    rfl

/-- As many records as are kept by id have different ids. -/
theorem nodup_of_length_le_ofList {files : List FileRecord}
    (h : files.length ≤ (KeyedArena.ofList files : FileRecords).records.length) :
    (files.map FileRecord.id).Nodup := by
  have hkept := (KeyedArena.ofList files : FileRecords).nodup_keys
  have hset : ((KeyedArena.ofList files : FileRecords).records.map FileRecord.id).toFinset =
      (files.map FileRecord.id).toFinset := by
    ext id
    rw [List.mem_toFinset, List.mem_toFinset]
    exact KeyedArena.mem_keys_ofList files id
  have hcard := List.toFinset_card_of_nodup hkept
  rw [hset, List.length_map] at hcard
  rw [← Multiset.coe_nodup, ← Multiset.toFinset_card_eq_card_iff_nodup]
  apply le_antisymm (Multiset.toFinset_card_le _)
  rw [Multiset.coe_card, List.length_map]
  exact h.trans hcard.ge

/-- Totals by extension are kept when files are kept by id exactly when the ids differ. -/
theorem extensionTotal_ofList_iff {files : List FileRecord}
    (hfits : ∀ extension, files.countP (fun file ↦ extensionKey file = extension) ≤ maxValue) :
    (∀ extension, extensionTotal files extension =
        extensionTotal (KeyedArena.ofList files : FileRecords).records extension) ↔
      (files.map FileRecord.id).Nodup := by
  constructor
  · intro h
    apply nodup_of_length_le_ofList
    have hsubperm : (files.map extensionKey).Subperm
        ((KeyedArena.ofList files : FileRecords).records.map extensionKey) := by
      rw [List.subperm_iff_count]
      intro extension
      have hcount : ∀ l : List FileRecord, (l.map extensionKey).count extension =
          l.countP (fun file ↦ extensionKey file = extension) := by
        intro l
        rw [List.count, List.countP_map]
        exact List.countP_congr fun file _ ↦ by simp
      have hlive := toNat_files_extensionTotal files extension
      have hkept := toNat_files_extensionTotal (KeyedArena.ofList files : FileRecords).records extension
      rw [h extension, hkept, Nat.min_eq_left (hfits extension)] at hlive
      rw [hcount, hcount, ← hlive]
      exact Nat.min_le_left _ _
    simpa using hsubperm.length_le
  · intro hnodup extension
    rw [KeyedArena.ofList_records hnodup]

/-- The live breakdown of forwarded events is the final breakdown of `files`. -/
def BreakdownsAgree (events : List (ForwardClock × ScanEvent)) (hasCallback : Bool)
    (availableParallelism : ℕ) (files : List FileRecord) : Prop :=
  ∀ extension,
    (UiEventForwarder.forwardAll { hasCallback := hasCallback } events).extensionTotals.find?
        extension =
      (aggregateExtensionTotals availableParallelism files).find? extension

/-- The live breakdown is the final one exactly when no file id is emitted twice. -/
theorem breakdownsAgree_iff_nodup {events : List (ForwardClock × ScanEvent)} (hasCallback : Bool)
    (availableParallelism : ℕ) {files : List FileRecord}
    (hfiles : files.Perm (foldScanEvents {} (events.map Prod.snd)).files.records)
    (hfits : ∀ extension, (emittedFiles (events.map Prod.snd)).countP
      (fun file ↦ extensionKey file = extension) ≤ maxValue) :
    BreakdownsAgree events hasCallback availableParallelism files ↔
      ((emittedFiles (events.map Prod.snd)).map FileRecord.id).Nodup := by
  have hkept : (foldScanEvents {} (events.map Prod.snd)).files =
      KeyedArena.ofList (emittedFiles (events.map Prod.snd)) := (foldScanEvents_records {} _).2.2
  rw [hkept] at hfiles
  have hlive : ∀ extension,
      (UiEventForwarder.forwardAll { hasCallback := hasCallback } events).extensionTotals.find?
        extension = extensionTotal (emittedFiles (events.map Prod.snd)) extension := by
    intro extension
    rw [UiEventForwarder.extensionTotals_forwardAll]
    exact Tally.find?_ofList extensionKey fileTotal _ extension
  rw [← extensionTotal_ofList_iff hfits, BreakdownsAgree]
  refine forall_congr' fun extension ↦ ?_
  rw [hlive, find?_aggregateExtensionTotals, extensionTotal, extensionTotal,
    Tally.total_perm _ _ hfiles, extensionTotal]

open Ntfs NtfsStreamState in
/-- The breakdowns of a streaming enumeration agree exactly when it emits no
file twice. Where records have different numbers, that is when no extension
that comes after its file enlarges it. -/
theorem breakdownsAgree_iff (rootText : String) (fed : List ParsedRecordOutcome)
    (hasCallback : Bool) (availableParallelism : ℕ) (events : List (ForwardClock × ScanEvent))
    (hrun : emittedFiles (events.map Prod.snd) = (enumerateOutcomes rootText fed).emittedFiles)
    (files : List FileRecord)
    (hfiles : files.Perm (foldScanEvents {} (events.map Prod.snd)).files.records)
    (hfits : ∀ extension, (emittedFiles (events.map Prod.snd)).countP
      (fun file ↦ extensionKey file = extension) ≤ maxValue) :
    (BreakdownsAgree events hasCallback availableParallelism files ↔
        ((emittedFiles (events.map Prod.snd)).map FileRecord.id).Nodup) ∧
      (DistinctRecords fed →
        (BreakdownsAgree events hasCallback availableParallelism files ↔ NoLateGrowth fed)) := by
  have hiff := breakdownsAgree_iff_nodup hasCallback availableParallelism hfiles hfits
  refine ⟨hiff, fun hdistinct ↦ hiff.trans ?_⟩
  rw [hrun]
  exact nodup_emittedFiles_iff rootText hdistinct

section Samples

open Ntfs NtfsStreamState

/-- A file with an attribute list, between two of its extensions; the second one is smaller. -/
def earlyExtensions : List ParsedRecordOutcome :=
  [.extension ⟨40, 700, 800⟩,
    .entry { sampleDirectory 40 (some 5) "report.TXT" with
      isDirectory := false, hasAttributeList := true },
    .extension ⟨40, 500, 100⟩]

/-- The same file before its only extension. -/
def lateExtension : List ParsedRecordOutcome :=
  [.entry { sampleDirectory 40 (some 5) "report.TXT" with
      isDirectory := false, hasAttributeList := true },
    .extension ⟨40, 900, 1024⟩]

/-- The events of a run, forwarded while no batch is due. -/
def timedEvents (fed : List ParsedRecordOutcome) : List (ForwardClock × ScanEvent) :=
  (enumerateOutcomes "C:\\" fed).events.map fun event ↦ (⟨false, false⟩, event)

theorem map_snd_timedEvents (fed : List ParsedRecordOutcome) :
    (timedEvents fed).map Prod.snd = (enumerateOutcomes "C:\\" fed).events := by
  rw [timedEvents, List.map_map]
  exact List.map_id _

/-- Where no directory waits at the end, the final pass emits nothing. -/
theorem events_enumerateOutcomes {fed : List ParsedRecordOutcome}
    (h : (fed.foldl ingestOutcome (emitRoot { rootText := "C:\\" })).orphanDirs.records.isEmpty =
      true) :
    (enumerateOutcomes "C:\\" fed).events =
      (fed.foldl ingestOutcome (emitRoot { rootText := "C:\\" })).events := by
  rw [enumerateOutcomes, finish, dif_pos h]

theorem breakdownsAgree_iff_earlyExtensions :
    BreakdownsAgree (timedEvents earlyExtensions) true 8
      (foldScanEvents {} ((timedEvents earlyExtensions).map Prod.snd)).files.records := by
  have hevents : (enumerateOutcomes "C:\\" earlyExtensions).events = _ :=
    events_enumerateOutcomes rfl
  refine (breakdownsAgree_iff "C:\\" earlyExtensions true 8 (timedEvents earlyExtensions) ?_ _
    (List.Perm.refl _) ?_).1.mpr ?_
  · rw [map_snd_timedEvents]
    rfl
  · intro extension
    refine List.countP_le_length.trans ?_
    rw [map_snd_timedEvents, hevents]
    decide +kernel
  · rw [map_snd_timedEvents, hevents]
    decide +kernel

/-- The live breakdown counts the file twice. -/
theorem lateExtension_counted_twice :
    DistinctRecords lateExtension ∧
      (timedEvents lateExtension).map Prod.snd = (enumerateOutcomes "C:\\" lateExtension).events ∧
      (UiEventForwarder.forwardAll { hasCallback := true }
        (timedEvents lateExtension)).extensionTotals.find? "txt" = some ⟨900, 2⟩ ∧
      (aggregateExtensionTotals 8 (foldScanEvents {}
        ((timedEvents lateExtension).map Prod.snd)).files.records).find? "txt" = some ⟨900, 1⟩ ∧
      ¬ BreakdownsAgree (timedEvents lateExtension) true 8
        (foldScanEvents {} ((timedEvents lateExtension).map Prod.snd)).files.records := by
  have hevents : (enumerateOutcomes "C:\\" lateExtension).events = _ :=
    events_enumerateOutcomes rfl
  have hlive : (UiEventForwarder.forwardAll { hasCallback := true }
      (timedEvents lateExtension)).extensionTotals.find? "txt" = some ⟨900, 2⟩ := by
    rw [timedEvents, hevents]
    decide +kernel
  have hfinal : (aggregateExtensionTotals 8 (foldScanEvents {}
      ((timedEvents lateExtension).map Prod.snd)).files.records).find? "txt" = some ⟨900, 1⟩ := by
    rw [map_snd_timedEvents, hevents]
    decide +kernel
  refine ⟨by decide, map_snd_timedEvents lateExtension, hlive, hfinal, fun hagree ↦ ?_⟩
  have hsame := hagree "txt"
  rw [hlive, hfinal] at hsame
  cases hsame

end Samples

end WinBlaze
