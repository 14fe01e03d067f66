import WinBlaze.Index.ExportedTrees

/-!
# One table of three texts

The texts in columns separated by commas or tabs, and the one with further columns,
are read as the same rows.
-/

namespace WinBlaze

namespace CatalogText

open Attempts

/-! ## Values of columns -/

theorem parseU64_unsignedText (n : UInt64) : parseU64 (unsignedText n.toNat) = some n := by
  have hbound := n.toNat_lt
  have hparse : Decimal.parseUnsigned (2 ^ 64) (Decimal.writeDigits 20 n.toNat []) = some n.toNat :=
    Decimal.parseUnsigned_writeDigits (by decide) (by omega) (by omega)
  rw [parseU64, unsignedText, hparse, Option.map_some, UInt64.ofNat_toNat]

theorem parseU32_unsignedText (n : UInt32) : parseU32 (unsignedText n.toNat) = some n := by
  have hbound := n.toNat_lt
  have hparse : Decimal.parseUnsigned (2 ^ 32) (Decimal.writeDigits 20 n.toNat []) = some n.toNat :=
    Decimal.parseUnsigned_writeDigits (by decide) (by omega) (by omega)
  rw [parseU32, unsignedText, hparse, Option.map_some, UInt32.ofNat_toNat]

theorem parseI64_secondsText (ticks : Int64) :
    parseI64 (secondsText (some ticks)) = some (unixSeconds ticks) :=
  parseI64_writeDigits (unixSeconds ticks)

theorem isEmpty_secondsText (ticks : Int64) : (secondsText (some ticks)).isEmpty = false := by
  refine List.isEmpty_eq_false_iff.mpr fun hnil ↦ ?_
  have hparse := parseI64_secondsText ticks
  rw [hnil] at hparse
  cases hparse

/-- A time of the calendar is read as its whole seconds. -/
theorem modifiedTime_secondsText {time : Option Int64} (h : ∀ ticks, time = some ticks → InCalendar ticks) :
    modifiedTime true (secondsText time) = .ok (time.map wholeSeconds) := by
  cases time with
  | none => rfl
  | some ticks =>
      obtain ⟨hlow, hhigh⟩ := h ticks rfl
      rw [modifiedTime, isEmpty_secondsText, if_neg Bool.false_ne_true,
        importTimestamp_of_parse (parseI64_secondsText ticks), if_neg (by omega),
        unixToTicks_unixSeconds hlow]
      rfl

theorem optionalTime_secondsText {time : Option Int64} (h : ∀ ticks, time = some ticks → InCalendar ticks) :
    optionalTime (secondsText time) = .ok (time.map wholeSeconds) := by
  cases time with
  | none => rfl
  | some ticks =>
      have hticks : toTicks (unixSeconds ticks) = .ok (wholeSeconds ticks) := by
        rw [toTicks, unixToTicks_unixSeconds (h ticks rfl).1]
        rfl
      rw [optionalTime, isEmpty_secondsText, if_neg Bool.false_ne_true, parseI64_secondsText]
      exact bind_eq_ok_iff.mpr ⟨unixSeconds ticks, rfl, map_eq_ok_iff.mpr ⟨_, hticks, rfl⟩⟩

/-! ## Rows -/

def directoryRow (tree : TreeIndex) (directory : DirectoryRecord) : Row :=
  directoryKey directory :: directoryColumns (totalsOf tree directory)

def fileRow (tree : TreeIndex) (file : FileRecord) : Row :=
  (tree.fileDisplayPath file).toList :: fileColumns file

/-- The rows the tree is put together from. -/
def exportedRows (tree : TreeIndex) : List Row :=
  (exportedDirectories tree).map (directoryRow tree) ++ tree.files.map (fileRow tree)

theorem trimRow_catalogLines (tree : TreeIndex) :
    ((catalogLines tree).map Line.values).mapM trimRow = .ok (exportedRows tree) := by
  have hdirectories : ((exportedDirectories tree).map fun directory ↦
      (directoryLine tree directory).values).mapM trimRow =
        .ok ((exportedDirectories tree).map (directoryRow tree)) := by
    rw [List.mapM_map]
    refine mapM_eq_map fun directory _ ↦ ?_
    rw [Function.comp_apply, directoryLine, values_pathLine]
    rfl
  have hfiles : (tree.files.map fun file ↦ (fileLine tree file).values).mapM trimRow =
      .ok (tree.files.map (fileRow tree)) := by
    rw [List.mapM_map]
    refine mapM_eq_map fun file _ ↦ ?_
    rw [Function.comp_apply, fileLine, values_pathLine]
    rfl
  rw [catalogLines, List.map_append, List.map_map, List.map_map, List.mapM_append]
  exact bind_eq_ok_iff.mpr ⟨_, hdirectories, bind_eq_ok_iff.mpr ⟨_, hfiles, rfl⟩⟩

/-! ## Tables -/

section Tables

variable {localToUtc : ℤ → Import ℤ} {timezone : CsvTimeZone} {delimiter : Char}

theorem trimStartMark_eq_self {c : Char} {rest : List Char} (h : c.toNat ≠ 0xFEFF) :
    trimStartMark (c :: rest) = c :: rest := by
  rw [trimStartMark, List.dropWhile_cons_of_neg (by simpa using h)]

theorem rows_headerLine (hdelimiter : Separates delimiter) {header : Row} {lines : List Line}
    (hfirst : header.head? = some "Path".toList)
    (hlines : ∀ line ∈ headerLine header :: lines, line.Readable) :
    rows (trimStartMark ((headerLine header :: lines).flatMap (Line.text delimiter))) delimiter =
      .ok (header :: lines.map Line.values) := by
  obtain ⟨others, rfl⟩ : ∃ others, header = "Path".toList :: others :=
    ⟨header.tail, (List.cons_head?_tail hfirst).symm⟩
  have htext : ∃ rest, (headerLine ("Path".toList :: others) :: lines).flatMap (Line.text delimiter) =
      'P' :: rest := ⟨_, rfl⟩
  have hvalues : (headerLine ("Path".toList :: others)).values = "Path".toList :: others := by
    simp [headerLine, Line.values, Line.fields, Field.value, List.map_map, Function.comp_def]
  obtain ⟨rest, hrest⟩ := htext
  rw [hrest, trimStartMark_eq_self (by decide), ← hrest, rows_lines hdelimiter hlines, List.map_cons,
    hvalues]

theorem readTable_catalogLines (hdelimiter : Separates delimiter) (tree : TreeIndex) :
    readTable localToUtc timezone delimiter
        ((headerLine canonicalHeader :: catalogLines tree).flatMap (Line.text delimiter)) =
      .ok ⟨canonicalHeader :: (catalogLines tree).map Line.values, true, .empty⟩ :=
  readTable_canonical (rows_headerLine hdelimiter rfl (readable_all tree))

/-! ## Further columns -/

/-- Identities are empty or numbers of 64 and 128 bits. -/
structure HasIdentities (extras : FileExportMetadata) : Prop where
  volume : ∀ text, extras.volumeIdentity = some text → text = "" ∨ (parseU64 text.toList).isSome = true
  file : ∀ text, extras.fileIdentity = some text →
    text = "" ∨ (Decimal.parseUnsigned (2 ^ 128) text.toList).isSome = true

def optionalText (value : Option String) : List Char := value.elim [] String.toList

def linkText (extras : FileExportMetadata) : List Char :=
  extras.linkCount.elim [] fun count ↦ unsignedText count.toNat

def detailColumns (file : FileRecord) (extras : FileExportMetadata) : List (List Char) :=
  [unsignedText file.attributes.bits.toNat, secondsText file.timestamps.created,
    secondsText file.timestamps.accessed, optionalText extras.owner, optionalText extras.volumeIdentity,
    optionalText extras.fileIdentity, linkText extras]

theorem value_optionalField (value : Option String) : (optionalField value).value = optionalText value := by
  cases value <;> rfl

theorem values_detailedFileLine (tree : TreeIndex) (file : FileRecord) (extras : FileExportMetadata) :
    (detailedFileLine tree file extras).values = fileRow tree file ++ detailColumns file extras := by
  have hplain : ∀ text, (Field.plain text).value = text := fun _ ↦ rfl
  have hquoted : ∀ text, (Field.quoted text).value = text := fun _ ↦ rfl
  simp [detailedFileLine, Line.values, Line.fields, fileRow, fileColumns, detailColumns, hplain, hquoted,
    value_optionalField, linkText]

theorem values_detailedDirectoryLine (tree : TreeIndex) (directory : DirectoryRecord) :
    (detailedDirectoryLine tree directory).values =
      (directoryLine tree directory).values ++ [[], [], [], [], [], [], []] := by
  rw [detailedDirectoryLine, directoryLine, values_pathLine, values_pathLine, List.cons_append]

/-- Texts are left out where they are empty. -/
def keptExtras (extras : FileExportMetadata) : FileExportMetadata where
  owner := extras.owner.filter (· ≠ "")
  volumeIdentity := extras.volumeIdentity.filter (· ≠ "")
  fileIdentity := extras.fileIdentity.filter (· ≠ "")
  linkCount := extras.linkCount

/-- What the further columns keep of a file. -/
def keptDetails (file : FileRecord) (extras : FileExportMetadata) : ImportedMetadata where
  attributes := some file.attributes.bits
  created := file.timestamps.created.map wholeSeconds
  accessed := file.timestamps.accessed.map wholeSeconds
  exported := keptExtras extras

theorem optionalCount_linkText (extras : FileExportMetadata) :
    optionalCount (linkText extras) = .ok extras.linkCount := by
  rw [linkText]
  cases extras.linkCount with
  | none => rfl
  | some count =>
      have hempty : (unsignedText count.toNat).isEmpty = false :=
        List.isEmpty_eq_false_iff.mpr (unsignedText_ne_nil _)
      rw [Option.elim_some, optionalCount, hempty, if_neg Bool.false_ne_true, parseU32_unsignedText]
      rfl

theorem isEmpty_toList (text : String) : text.toList.isEmpty = decide (text = "") := by
  rw [Bool.eq_iff_iff, List.isEmpty_iff, String.toList_eq_nil_iff, decide_eq_true_iff]

theorem optionalText_owner (value : Option String) :
    (if (optionalText value).isEmpty then none else some (String.ofList (optionalText value))) =
      value.filter (· ≠ "") := by
  cases value with
  | none => rfl
  | some text =>
      rw [optionalText, Option.elim_some, isEmpty_toList, String.ofList_toList, Option.filter_some]
      by_cases hempty : text = "" <;> simp [hempty]

/-- A number is kept as its text. -/
theorem optionalNumber_optionalText {value : Option String} {bound : ℕ} (hbound : bound ≤ 2 ^ 128)
    (h : ∀ text, value = some text → text = "" ∨ (Decimal.parseUnsigned bound text.toList).isSome = true) :
    optionalNumber (optionalText value) = .ok ((value.filter (· ≠ "")).map String.toList) ∧
      ∀ text, value.filter (· ≠ "") = some text →
        (Decimal.parseUnsigned bound text.toList).isSome = true := by
  cases value with
  | none => exact ⟨rfl, fun text htext ↦ by cases htext⟩
  | some text =>
      rw [optionalText, Option.elim_some, Option.filter_some]
      by_cases hempty : text = ""
      · subst hempty
        exact ⟨rfl, fun text htext ↦ by cases htext⟩
      · have hparse := (h text rfl).resolve_left hempty
        have hkept : decide (text ≠ "") = true := decide_eq_true hempty
        obtain ⟨n, hn⟩ := Option.isSome_iff_exists.mp (Decimal.parseUnsigned_mono hbound hparse)
        rw [if_pos hkept]
        refine ⟨?_, fun other hother ↦ Option.some.inj hother ▸ hparse⟩
        rw [optionalNumber, isEmpty_toList, decide_eq_false hempty, if_neg Bool.false_ne_true, hn]
        rfl

/-- The further columns of a file are read as they were written. -/
theorem detailsOf_detailColumns {tree : TreeIndex} {file : FileRecord} {extras : FileExportMetadata}
    (hextras : HasIdentities extras)
    (hcreated : ∀ ticks, file.timestamps.created = some ticks → InCalendar ticks)
    (haccessed : ∀ ticks, file.timestamps.accessed = some ticks → InCalendar ticks) :
    detailsOf (fileRow tree file ++ detailColumns file extras) = .ok (keptDetails file extras) := by
  have hvolumes : ∀ text, extras.volumeIdentity = some text →
      text = "" ∨ (Decimal.parseUnsigned (2 ^ 64) text.toList).isSome = true := fun text htext ↦
    (hextras.volume text htext).imp_right fun hsome ↦ by rwa [parseU64, Option.isSome_map] at hsome
  obtain ⟨hvolume, hnumbers⟩ := optionalNumber_optionalText (by decide) hvolumes
  obtain ⟨hidentity, -⟩ := optionalNumber_optionalText le_rfl hextras.file
  have hwide : (((extras.volumeIdentity.filter (· ≠ "")).map String.toList).all
      fun value ↦ (parseU64 value).isSome) = true := by
    cases hkept : extras.volumeIdentity.filter (· ≠ "") with
    | none => rfl
    | some text => exact (Option.isSome_map ..).trans (hnumbers text hkept)
  have hattributes : orInvalid "Invalid attributes" (parseU32 (unsignedText file.attributes.bits.toNat)) =
      .ok file.attributes.bits := by
    rw [parseU32_unsignedText]
    rfl
  have htexts : ∀ value : Option String, (value.map String.toList).map String.ofList = value := by
    intro value
    rw [Option.map_map, Function.comp_def]
    simp
  refine bind_eq_ok_iff.mpr ⟨_, rfl, bind_eq_ok_iff.mpr ⟨_, hvolume, ?_⟩⟩
  refine bind_eq_ok_iff.mpr ⟨(), ensure_eq_ok_iff.mpr hwide, bind_eq_ok_iff.mpr ⟨_, rfl, ?_⟩⟩
  refine bind_eq_ok_iff.mpr ⟨_, hattributes, bind_eq_ok_iff.mpr ⟨_, rfl, ?_⟩⟩
  refine bind_eq_ok_iff.mpr ⟨_, optionalTime_secondsText hcreated, bind_eq_ok_iff.mpr ⟨_, rfl, ?_⟩⟩
  refine bind_eq_ok_iff.mpr ⟨_, optionalTime_secondsText haccessed, bind_eq_ok_iff.mpr ⟨_, rfl, ?_⟩⟩
  refine bind_eq_ok_iff.mpr ⟨_, rfl, bind_eq_ok_iff.mpr ⟨_, hidentity, ?_⟩⟩
  refine bind_eq_ok_iff.mpr ⟨_, rfl, bind_eq_ok_iff.mpr ⟨_, optionalCount_linkText extras, ?_⟩⟩
  rw [htexts, htexts, optionalText_owner]
  rfl

theorem detailedRow_directory (metadata : Metadata) (tree : TreeIndex) (directory : DirectoryRecord) :
    detailedRow metadata (detailedDirectoryLine tree directory).values = .ok metadata := by
  rw [values_detailedDirectoryLine, directoryLine, values_pathLine]
  rfl

theorem detailedRow_file (metadata : Metadata) {tree : TreeIndex} {file : FileRecord}
    {extras : FileExportMetadata} (hextras : HasIdentities extras)
    (hcreated : ∀ ticks, file.timestamps.created = some ticks → InCalendar ticks)
    (haccessed : ∀ ticks, file.timestamps.accessed = some ticks → InCalendar ticks) :
    detailedRow metadata (detailedFileLine tree file extras).values =
      .ok (metadata.set (tree.fileDisplayPath file).toList (keptDetails file extras)) := by
  rw [values_detailedFileLine]
  refine bind_eq_ok_iff.mpr ⟨(), rfl, bind_eq_ok_iff.mpr ⟨_, rfl, bind_eq_ok_iff.mpr ⟨_, rfl, ?_⟩⟩⟩
  exact bind_eq_ok_iff.mpr ⟨_, detailsOf_detailColumns hextras hcreated haccessed, rfl⟩

/-- The details of all files, by their paths. -/
def keptMetadata (tree : TreeIndex) (extras : List FileExportMetadata) : Metadata :=
  .ofPairs ((tree.files.zip extras).map fun entry ↦
    ((tree.fileDisplayPath entry.1).toList, keptDetails entry.1 entry.2))

section Details

variable {tree : TreeIndex} {extras : List FileExportMetadata}
  (hextras : ∀ value ∈ extras, HasIdentities value)
  (htimes : ∀ file ∈ tree.files, ∀ ticks, (file.timestamps.created = some ticks ∨
    file.timestamps.accessed = some ticks) → InCalendar ticks)

include hextras htimes

theorem foldlM_detailedRow : ((detailedLines tree extras).map Line.values).foldlM detailedRow .empty =
    .ok (keptMetadata tree extras) := by
  have hdirectories : (((exportedDirectories tree).map (detailedDirectoryLine tree)).map
      Line.values).foldlM detailedRow .empty = .ok .empty := by
    refine foldlM_eq_self fun row hrow ↦ ?_
    obtain ⟨line, hline, rfl⟩ := List.mem_map.mp hrow
    obtain ⟨directory, -, rfl⟩ := List.mem_map.mp hline
    exact detailedRow_directory .empty tree directory
  have hfiles : ((List.zipWith (detailedFileLine tree) tree.files extras).map Line.values).foldlM
      detailedRow .empty = .ok (keptMetadata tree extras) := by
    rw [← List.map_uncurry_zip_eq_zipWith, List.map_map, List.foldlM_map, keptMetadata, IdMap.ofPairs,
      KeyedArena.ofList, List.foldl_map]
    refine foldlM_eq_foldl fun metadata entry hentry ↦ ?_
    obtain ⟨hfile, hvalue⟩ := List.of_mem_zip hentry
    exact detailedRow_file metadata (hextras _ hvalue) (fun ticks hticks ↦ htimes _ hfile ticks (.inl hticks))
      (fun ticks hticks ↦ htimes _ hfile ticks (.inr hticks))
  rw [detailedLines, List.map_append, List.foldlM_append]
  exact bind_eq_ok_iff.mpr ⟨_, hdirectories, hfiles⟩

/-- The text with further columns has the same rows. -/
theorem readTable_detailedLines (hlength : tree.files.length = extras.length) :
    readTable localToUtc timezone ','
        ((headerLine detailedHeader :: detailedLines tree extras).flatMap (Line.text ',')) =
      .ok ⟨canonicalHeader :: (catalogLines tree).map Line.values, true, keptMetadata tree extras⟩ := by
  refine readTable_of_readDetails
    (rows_headerLine separates_comma rfl (readable_detailedLines tree extras)) rfl ?_
  rw [readDetails, List.head?_cons, if_pos rfl]
  refine bind_eq_ok_iff.mpr ⟨_, foldlM_detailedRow hextras htimes, congrArg Except.ok (Prod.ext ?_ rfl)⟩
  have hdirectory : ∀ directory, (detailedDirectoryLine tree directory).values.take 7 =
      (directoryLine tree directory).values := by
    intro directory
    rw [values_detailedDirectoryLine, directoryLine, values_pathLine]
    rfl
  have hfile : ∀ file value, (detailedFileLine tree file value).values.take 7 =
      (fileLine tree file).values := by
    intro file value
    rw [values_detailedFileLine, fileLine, values_pathLine]
    rfl
  have hfiles : (List.zipWith (detailedFileLine tree) tree.files extras).map
      (List.take 7 ∘ Line.values) = tree.files.map (Line.values ∘ fileLine tree) := by
    refine List.ext_getElem (by simp [hlength]) fun index hindex hother ↦ ?_
    simp only [List.getElem_map, List.getElem_zipWith, Function.comp_apply, hfile]
  rw [List.map_cons, List.map_map, detailedLines, catalogLines, List.map_append, List.map_append, hfiles,
    List.map_map, List.map_map, List.map_map]
  refine congrArg₂ _ rfl (congrArg (· ++ _) (List.map_congr_left fun directory _ ↦ ?_))
  exact hdirectory directory

end Details

end Tables

end CatalogText

end WinBlaze
