import WinBlaze.Index.JsonValues
import WinBlaze.Index.ReopenedCatalogs

/-!
# Catalogs in JSON

Values are taken for one of three documents, the fields of an object by their names. What is
written for a tree is read as the tree, and says more of its files than the other texts.
-/

namespace WinBlaze

namespace CatalogText

open Attempts Saturating

/-! ## Values -/

def asText : Json → Option (List Char)
  | .string text => some text
  | _ => none

def asInt (low high : ℤ) : Json → Option ℤ
  | .int n => if low ≤ n ∧ n < high then some n else none
  | _ => none

def asU64 (json : Json) : Option UInt64 := (asInt 0 (2 ^ 64) json).map fun n ↦ .ofNat n.toNat

/-! ## Documents -/

structure Entry where
  path : List Char
  kind : List Char
  logicalBytes : UInt64
  allocatedBytes : UInt64
  files : UInt64
  directories : UInt64
  modifiedUnixSeconds : Option Int64
  attributes : Option UInt32
  createdUnixSeconds : Option Int64
  accessedUnixSeconds : Option Int64
  owner : Option String
  volumeIdentity : Option String
  fileIdentity : Option String
  linkCount : Option UInt32

structure Scan where
  schemaVersion : UInt32
  entries : List Entry

structure WinDirStatEntry where
  path : List Char
  files : UInt64
  folders : UInt64
  logical : UInt64
  physical : UInt64
  attributes : List Char
  modified : List Char
  flags : List Char
  index : List Char
  owner : Option (List Char)

abbrev OrderedJsonFields := List (List Char × Json)

inductive Document
  | winBlaze (scan : Scan)
  | winDirStat (entries : List WinDirStatEntry)
  | localizedWinDirStat (entries : List OrderedJsonFields)

/-! ## Reading -/

/-- `u64::from_str_radix` of base 16. -/
def fromHexU64 (text : List Char) : Option ℕ :=
  (if text.head? = some '+' then hexDigits text.tail else hexDigits text).filter (· < 2 ^ 64)

def localizedValue (field : (List Char × Json) × ℕ) : Import (List Char) :=
  if 1 ≤ field.2 && field.2 ≤ 4 then do
    let number ← orInvalid "Invalid JSON byte/count field" (asU64 field.1.2)
    pure (unsignedText number.toNat)
  else orInvalid "Invalid JSON text field" (asText field.1.2)

/-- The rows, and the names of the columns if there were any. -/
def localizedRow (state : List Row × Option Row) (fields : OrderedJsonFields) :
    Import (List Row × Option Row) := do
  ensure ((fields.length = 9 || fields.length = 10) &&
    (fields[7]?).any fun field ↦ contains field.1 "WinDirStat".toList)
    "Unsupported localized WinDirStat JSON schema"
  let names := fields.map Prod.fst
  ensure (state.2.all (· = names)) "Inconsistent localized JSON columns"
  let row ← fields.zipIdx.mapM localizedValue
  pure (state.1 ++ [row], some names)

def winDirStatRow (entry : WinDirStatEntry) : Import Row := do
  let _ ← orInvalid "Invalid WinDirStat index" (fromHexU64 (trimStartHexMark entry.index))
  pure [entry.path, unsignedText entry.files.toNat, unsignedText entry.folders.toNat,
    unsignedText entry.logical.toNat, unsignedText entry.physical.toNat, entry.attributes, entry.modified,
    entry.flags, entry.index, entry.owner.getD []]

def isIdentity (bound : ℕ) (value : Option String) : Bool :=
  value.all fun text ↦ (Decimal.parseUnsigned bound text.toList).isSome

def optionalTicks : Option Int64 → Import (Option Int64)
  | none => pure none
  | some seconds => some <$> toTicks seconds

def entryMetadata (metadata : Metadata) (entry : Entry) : Import Metadata := do
  ensure (isIdentity (2 ^ 64) entry.volumeIdentity && isIdentity (2 ^ 128) entry.fileIdentity)
    "Invalid physical identity metadata"
  if entry.kind = "File".toList then
    let created ← optionalTicks entry.createdUnixSeconds
    let accessed ← optionalTicks entry.accessedUnixSeconds
    pure (metadata.set entry.path ⟨entry.attributes, created, accessed,
      ⟨entry.owner, entry.volumeIdentity, entry.fileIdentity, entry.linkCount⟩⟩)
  else pure metadata

def entryRow (entry : Entry) : Row :=
  [entry.path, entry.kind, unsignedText entry.logicalBytes.toNat, unsignedText entry.allocatedBytes.toNat,
    unsignedText entry.files.toNat, unsignedText entry.directories.toNat,
    entry.modifiedUnixSeconds.elim [] fun value ↦ signedText value.toInt]

/-- The rows of a document, and what else it says of files. -/
def documentTable : Document → Import Table
  | .localizedWinDirStat entries => do
      let width := (entries.head?.map List.length).getD 9
      let (rows, _) ← entries.foldlM localizedRow ([List.replicate width []], none)
      let table ← windirstat rows
      pure ⟨table, false, windirstatMetadata rows⟩
  | .winDirStat entries => do
      let rows ← entries.mapM winDirStatRow
      let table ← windirstat (List.replicate 10 [] :: rows)
      pure ⟨table, false, windirstatMetadata (List.replicate 10 [] :: rows)⟩
  | .winBlaze scan => do
      ensure (scan.schemaVersion = 1) "Unsupported JSON scan version"
      let metadata ← scan.entries.foldlM entryMetadata .empty
      pure ⟨texts ["Path"] :: scan.entries.map entryRow, false, metadata⟩

/-- The deserializer of the documents, `serde_json::from_reader`, is a parameter. -/
def readJson (fromReader : List Char → Except String Document) (toLowercase : List Char → List Char)
    (order : HashOrder) (fuel : ℕ) (text : List Char) : Import TreeCatalog := do
  let document ← (fromReader text).mapError .invalid
  let table ← documentTable document
  let plan ← planImport toLowercase order table
  finishImport fuel table.metadata plan

/-! ## Objects -/

/-- The fields that have a value. -/
def presentFields (names : List String) (values : List (Option Json)) : List (List Char × Json) :=
  (names.zip values).filterMap fun field ↦ field.2.map (field.1.toList, ·)

/-- The object with those of its fields that have a value. -/
def objectOf (names : List String) (values : List (Option Json)) : Json :=
  .object (presentFields names values)

theorem exists_name {names : List String} {values : List (Option Json)} {field : List Char × Json}
    (h : field ∈ presentFields names values) : ∃ name ∈ names, field.1 = name.toList := by
  obtain ⟨⟨name, value⟩, hmem, hvalue⟩ := List.mem_filterMap.mp h
  obtain ⟨_, -, rfl⟩ := Option.map_eq_some_iff.mp hvalue
  exact ⟨name, (List.of_mem_zip hmem).1, rfl⟩

theorem presentFields_none (name : String) (names : List String) (values : List (Option Json)) :
    presentFields (name :: names) (none :: values) = presentFields names values :=
  List.filterMap_cons_none rfl

theorem presentFields_some (name : String) (names : List String) (value : Json)
    (values : List (Option Json)) : presentFields (name :: names) (some value :: values) =
      (name.toList, value) :: presentFields names values :=
  List.filterMap_cons_some rfl

/-! ## What a deserializer derived for a catalog reads -/

def jsonNumber (n : UInt64) : Json := .int n.toNat

/-- A field of an option without a value is missing or null. -/
inductive OptionalField {α : Type} (toJson : α → Json) : Option Json → Option α → Prop
  | missing : OptionalField toJson none none
  | null : OptionalField toJson (some .null) none
  | value (a : α) : OptionalField toJson (some (toJson a)) (some a)

def entryNames : List String :=
  ["Path", "Kind", "LogicalBytes", "AllocatedBytes", "Files", "Directories", "ModifiedUnixSeconds",
    "Attributes", "CreatedUnixSeconds", "AccessedUnixSeconds", "Owner", "VolumeIdentity", "FileIdentity",
    "LinkCount"]

def catalogNames : List String := ["schema_version", "entries"]

inductive EntryJson : Json → Entry → Prop
  | object {entry : Entry} {modified attributes created accessed owner volume file count : Option Json}
      (hmodified : OptionalField (fun n : Int64 ↦ .int n.toInt) modified entry.modifiedUnixSeconds)
      (hattributes : OptionalField (fun n : UInt32 ↦ .int n.toNat) attributes entry.attributes)
      (hcreated : OptionalField (fun n : Int64 ↦ .int n.toInt) created entry.createdUnixSeconds)
      (haccessed : OptionalField (fun n : Int64 ↦ .int n.toInt) accessed entry.accessedUnixSeconds)
      (howner : OptionalField (fun text : String ↦ .string text.toList) owner entry.owner)
      (hvolume : OptionalField (fun text : String ↦ .string text.toList) volume entry.volumeIdentity)
      (hfile : OptionalField (fun text : String ↦ .string text.toList) file entry.fileIdentity)
      (hcount : OptionalField (fun n : UInt32 ↦ .int n.toNat) count entry.linkCount) :
      EntryJson (objectOf entryNames [some (.string entry.path), some (.string entry.kind),
        some (jsonNumber entry.logicalBytes), some (jsonNumber entry.allocatedBytes),
        some (jsonNumber entry.files), some (jsonNumber entry.directories), modified, attributes, created,
        accessed, owner, volume, file, count]) entry

inductive ScanJson : Json → Scan → Prop
  | object {scan : Scan} {values : List Json} (hentries : List.Forall₂ EntryJson values scan.entries) :
      ScanJson (objectOf catalogNames [some (.int scan.schemaVersion.toNat), some (.array values)]) scan

/-- The deserializer finds the catalogs in their texts. -/
def ReadsScans (fromReader : List Char → Except String Document) : Prop :=
  ∀ value scan, ScanJson value scan → value.Plain 127 →
    fromReader (value.text ++ ['\n']) = .ok (.winBlaze scan)

/-! ## What is written -/

def fieldText (name : List Char) (value : Json) : List Char := jsonString name ++ ':' :: value.text

theorem fieldsText_cons (name : List Char) (value : Json) (fields : List (List Char × Json)) :
    Json.fieldsText ((name, value) :: fields) =
      fieldText name value ++ fields.flatMap fun field ↦ ',' :: fieldText field.1 field.2 := by
  induction fields generalizing name value with
  | nil => rw [Json.fieldsText, List.flatMap_nil, List.append_nil, fieldText]
  | cons next rest ih =>
      rw [Json.fieldsText, ih, List.flatMap_cons]
      simp [fieldText]

theorem itemsText_eq (items : List Json) :
    Json.itemsText items = [','].intercalate (items.map Json.text) := by
  induction items with
  | nil => rfl
  | cons item rest ih =>
      cases rest with
      | nil => simp [Json.itemsText, List.intercalate]
      | cons next rest =>
          rw [Json.itemsText, ih]
          simp [List.intercalate]

theorem flatMap_presentFields (names : List String) (values : List (Option Json))
    (write : List Char → Json → List Char) :
    (presentFields names values).flatMap (fun field ↦ write field.1 field.2) =
      (names.zip values).flatMap fun field ↦ field.2.elim [] (write field.1.toList) := by
  rw [presentFields, List.filterMap_eq_flatMap_toList, List.flatMap_assoc]
  refine List.flatMap_congr fun field _ ↦ ?_
  cases field.2 <;> simp

/-- The text of an object whose first field is there. -/
theorem text_objectOf (name : String) (names : List String) (value : Json) (values : List (Option Json)) :
    (objectOf (name :: names) (some value :: values)).text =
      '\x7b' :: (fieldText name.toList value ++ ((names.zip values).flatMap fun field ↦
        field.2.elim [] fun value ↦ ',' :: fieldText field.1.toList value) ++ ['\x7d']) := by
  rw [objectOf, Json.text, presentFields_some, fieldsText_cons,
    flatMap_presentFields names values fun name value ↦ ',' :: fieldText name value]

def jsonTime (time : Option Int64) : Json := time.elim .null fun ticks ↦ .int (unixSeconds ticks).toInt

def directoryValues (tree : TreeIndex) (directory : DirectoryRecord) : List (Option Json) :=
  let totals := totalsOf tree directory
  [some (.string directory.fullPath.toList), some (.string "Directory".toList),
    some (jsonNumber totals.logicalBytes), some (jsonNumber totals.physicalBytes),
    some (jsonNumber totals.fileCount), some (jsonNumber (satSub totals.itemCount totals.fileCount)),
    some (jsonTime totals.modifiedUtcMax), none, none, none, none, none, none, none]

def fileValues (tree : TreeIndex) (file : FileRecord) (extras : FileExportMetadata) : List (Option Json) :=
  [some (.string (jsonPath tree file)), some (.string "File".toList), some (jsonNumber file.sizeBytes),
    some (jsonNumber file.allocationBytes), some (.int 0), some (.int 0),
    some (jsonTime file.timestamps.modified), some (.int file.attributes.bits.toNat),
    some (jsonTime file.timestamps.created), some (jsonTime file.timestamps.accessed),
    extras.owner.map fun owner ↦ .string owner.toList,
    extras.volumeIdentity.map fun volume ↦ .string volume.toList,
    extras.fileIdentity.map fun identity ↦ .string identity.toList,
    extras.linkCount.map fun count ↦ .int count.toNat]

theorem signedText_natCast (n : ℕ) : signedText n = unsignedText n := by
  rw [signedText, if_neg (by omega), List.nil_append, Int.natAbs_natCast, unsignedText]

theorem text_jsonNumber (n : UInt64) : (jsonNumber n).text = unsignedText n.toNat := by
  rw [jsonNumber, Json.text, signedText_natCast]

theorem text_jsonTime (time : Option Int64) : (jsonTime time).text = jsonSeconds time := by
  cases time with
  | none => rfl
  | some ticks => rfl

theorem text_path : "\x7b\"Path\":".toList = '\x7b' :: (jsonString "Path".toList ++ [':']) := by decide

theorem text_sizes : ",\"AllocatedBytes\":".toList = ',' ::
    (jsonString "AllocatedBytes".toList ++ [':']) := by
  decide

theorem text_directoryEntry (tree : TreeIndex) (directory : DirectoryRecord) :
    jsonDirectoryEntry tree directory = (objectOf entryNames (directoryValues tree directory)).text := by
  have hkind : ",\"Kind\":\"Directory\",\"LogicalBytes\":".toList = ',' ::
      (jsonString "Kind".toList ++ ':' ::
      (jsonString "Directory".toList ++ ',' :: (jsonString "LogicalBytes".toList ++ [':']))) := by decide
  have hfiles : ",\"Files\":".toList = ',' :: (jsonString "Files".toList ++ [':']) := by decide
  have hdirectories : ",\"Directories\":".toList = ',' :: (jsonString "Directories".toList ++
      [':']) := by decide
  have hmodified : ",\"ModifiedUnixSeconds\":".toList =
      ',' :: (jsonString "ModifiedUnixSeconds".toList ++ [':']) := by decide
  have hend : "\x7d".toList = ['\x7d'] := by decide
  rw [entryNames, directoryValues, text_objectOf]
  simp only [List.zip_cons_cons, List.zip_nil_left, List.flatMap_cons, List.flatMap_nil, Option.elim_some,
    Option.elim_none, fieldText, text_jsonNumber, text_jsonTime, List.append_nil, Json.text]
  unfold jsonDirectoryEntry
  simp only [text_path, text_sizes, hkind, hfiles, hdirectories, hmodified, hend, List.cons_append,
    List.append_assoc, List.nil_append]

theorem text_metadata (extras : FileExportMetadata) : jsonMetadata extras =
    (extras.owner.elim [] fun owner ↦ ',' :: fieldText "Owner".toList (.string owner.toList)) ++
    ((extras.volumeIdentity.elim [] fun volume ↦
      ',' :: fieldText "VolumeIdentity".toList (.string volume.toList)) ++
    ((extras.fileIdentity.elim [] fun identity ↦
      ',' :: fieldText "FileIdentity".toList (.string identity.toList)) ++
    extras.linkCount.elim [] fun count ↦ ',' :: fieldText "LinkCount".toList (.int count.toNat))) := by
  have hstart : ",\"".toList = [',', '"'] := by decide
  have hcolon : "\":".toList = ['"', ':'] := by decide
  have howner : jsonString "Owner".toList = '"' :: ("Owner".toList ++ ['"']) := by decide
  have hvolume : jsonString "VolumeIdentity".toList = '"' :: ("VolumeIdentity".toList ++ ['"']) := by decide
  have hfile : jsonString "FileIdentity".toList = '"' :: ("FileIdentity".toList ++ ['"']) := by decide
  have hcount : ",\"LinkCount\":".toList = ',' :: (jsonString "LinkCount".toList ++ [':']) := by decide
  simp only [jsonMetadata, List.flatMap_cons, List.flatMap_nil, hstart, hcolon, howner, hvolume,
    hfile, hcount,
    signedText_natCast, fieldText, Json.text, List.cons_append, List.append_assoc, List.nil_append]

/-- Without metadata those without any value are written. -/
theorem text_fileEntry (tree : TreeIndex) (file : FileRecord) (metadata : Option FileExportMetadata) :
    jsonFileEntry tree file metadata =
      (objectOf entryNames (fileValues tree file (metadata.getD ⟨none, none, none, none⟩))).text := by
  have hmetadata : metadata.elim [] jsonMetadata = jsonMetadata
      (metadata.getD ⟨none, none, none, none⟩) := by
    cases metadata <;> rfl
  have hkind : ",\"Kind\":\"File\",\"LogicalBytes\":".toList = ',' :: (jsonString "Kind".toList ++ ':' ::
      (jsonString "File".toList ++ ',' :: (jsonString "LogicalBytes".toList ++ [':']))) := by decide
  have hmodified : ",\"Files\":0,\"Directories\":0,\"ModifiedUnixSeconds\":".toList =
      ',' :: (jsonString "Files".toList ++ ':' :: '0' :: ',' :: (jsonString "Directories".toList ++ ':' :: '0' ::
        ',' :: (jsonString "ModifiedUnixSeconds".toList ++ [':']))) := by decide
  have hattributes : ",\"Attributes\":".toList = ',' :: (jsonString "Attributes".toList ++ [':']) := by decide
  have hcreated : ",\"CreatedUnixSeconds\":".toList =
      ',' :: (jsonString "CreatedUnixSeconds".toList ++ [':']) := by decide
  have haccessed : ",\"AccessedUnixSeconds\":".toList =
      ',' :: (jsonString "AccessedUnixSeconds".toList ++ [':']) := by decide
  have hend : "\x7d".toList = ['\x7d'] := by decide
  have hzero : signedText 0 = ['0'] := by decide
  unfold jsonFileEntry jsonFileColumns
  simp only [hmetadata, jsonFilePath_eq, text_metadata]
  generalize metadata.getD ⟨none, none, none, none⟩ = extras
  rw [entryNames, fileValues, text_objectOf]
  simp only [List.zip_cons_cons, List.zip_nil_left, List.flatMap_cons, List.flatMap_nil, Option.elim_some,
    Option.elim_map, Function.comp_def, List.append_nil]
  simp only [text_path, text_sizes, hkind, hmodified, hattributes, hcreated, haccessed, hend, fieldText,
    text_jsonNumber, text_jsonTime, signedText_natCast, hzero, Json.text, List.cons_append,
      List.append_assoc, List.nil_append]

/-- The value that is written, with these metadata of the files. -/
def catalogJson (tree : TreeIndex) (extras : List FileExportMetadata) : Json :=
  objectOf catalogNames [some (.int 1), some (.array
    ((exportedDirectories tree).map
    (fun directory ↦ objectOf entryNames (directoryValues tree directory)) ++
      (tree.files.zip extras).map fun entry ↦ objectOf entryNames (fileValues tree entry.1 entry.2)))]

theorem jsonText_eq (entries : List Json) : jsonText (entries.map Json.text) =
    (objectOf catalogNames [some (.int 1), some (.array entries)]).text ++ ['\n'] := by
  have hstart : "\x7b\"schema_version\":1,\"entries\":[".toList = '\x7b' ::
      (jsonString "schema_version".toList ++
      ':' :: (signedText 1 ++ ',' :: (jsonString "entries".toList ++ [':', '[']))) := by decide
  have hend : "]\x7d\n".toList = [']', '\x7d', '\n'] := by decide
  rw [catalogNames, text_objectOf]
  simp only [List.zip_cons_cons, List.zip_nil_left, List.flatMap_cons, List.flatMap_nil, Option.elim_some,
    fieldText, Json.text, itemsText_eq, List.append_nil]
  unfold jsonText
  simp only [hstart, hend, List.cons_append, List.append_assoc, List.nil_append]

theorem writeJsonWithMetadata_text {σ ε : Type} {tree : TreeIndex}
    {metadata : FileRecord → StateT σ (Except ε) (Option FileExportMetadata)} {before after : σ}
    {text : List Char} (h : (writeJsonWithMetadata tree metadata).run before = .ok (text, after)) :
    ∃ extras, List.Forall₂ (Provides metadata) tree.files extras ∧
      text = (catalogJson tree extras).text ++ ['\n'] := by
  rw [writeJsonWithMetadata, StateT.run_bind, bind_eq_ok_iff] at h
  obtain ⟨⟨files, last⟩, hfiles, h⟩ := h
  obtain ⟨rfl, -⟩ := Prod.mk.inj (Except.ok.inj h)
  obtain ⟨provided, hprovided, rfl⟩ := exists_of_mapM_state (jsonFileEntry tree) hfiles
  refine ⟨provided.map fun metadata ↦ metadata.getD ⟨none, none, none, none⟩, ?_, ?_⟩
  · refine List.forall₂_map_right_iff.mpr (hprovided.imp ?_)
    rintro file given ⟨start, next, hrun⟩
    exact ⟨start, given, next, hrun, rfl⟩
  · have hdirectories : jsonDirectoryEntries tree = ((exportedDirectories tree).map fun directory ↦
        objectOf entryNames (directoryValues tree directory)).map Json.text := by
      rw [jsonDirectoryEntries, List.map_map]
      exact List.map_congr_left fun directory _ ↦ text_directoryEntry tree directory
    have hentries : List.zipWith (jsonFileEntry tree) tree.files provided =
        ((tree.files.zip (provided.map fun metadata ↦ metadata.getD ⟨none, none, none, none⟩)).map
          fun entry ↦ objectOf entryNames (fileValues tree entry.1 entry.2)).map Json.text := by
      rw [List.zip_map_right, List.map_map, List.map_map, ← List.map_uncurry_zip_eq_zipWith]
      exact List.map_congr_left fun entry _ ↦ text_fileEntry tree entry.1 entry.2
    rw [hdirectories, hentries, ← List.map_append, jsonText_eq, catalogJson]

/-! ## What is read -/

theorem plain_objectOf {names : List String} {values : List (Option Json)} {depth : ℕ}
    (h : ∀ value, some value ∈ values → value.Plain depth) : (objectOf names values).Plain (depth + 1) := by
  intro field hfield
  obtain ⟨⟨name, value⟩, hmem, hvalue⟩ := List.mem_filterMap.mp hfield
  obtain ⟨json, hjson, rfl⟩ := Option.map_eq_some_iff.mp hvalue
  refine h json ?_
  rw [← hjson]
  exact (List.of_mem_zip hmem).2

theorem plain_jsonNumber (n : UInt64) (depth : ℕ) : (jsonNumber n).Plain depth := by
  have hbound := n.toNat_lt
  have hint : -2 ^ 63 ≤ (n.toNat : ℤ) ∧ (n.toNat : ℤ) < 2 ^ 64 := by omega
  cases depth <;> exact hint

theorem plain_jsonTime (time : Option Int64) (depth : ℕ) : (jsonTime time).Plain depth := by
  cases time with
  | none => cases depth <;> trivial
  | some ticks =>
      have hbounds := toInt_bounds (unixSeconds ticks)
      have hint : -2 ^ 63 ≤ (unixSeconds ticks).toInt ∧ (unixSeconds ticks).toInt < 2 ^ 64 := by omega
      cases depth <;> exact hint

theorem plain_directory (tree : TreeIndex) (directory : DirectoryRecord) :
    (objectOf entryNames (directoryValues tree directory)).Plain 125 := by
  refine plain_objectOf fun value hvalue ↦ ?_
  simp only [directoryValues, List.mem_cons, Option.some.injEq, List.not_mem_nil, or_false,
    reduceCtorEq] at hvalue
  rcases hvalue with rfl | rfl | rfl | rfl | rfl | rfl | rfl
  · trivial
  · trivial
  · exact plain_jsonNumber _ _
  · exact plain_jsonNumber _ _
  · exact plain_jsonNumber _ _
  · exact plain_jsonNumber _ _
  · exact plain_jsonTime _ _

theorem plain_file (tree : TreeIndex) (file : FileRecord) (extras : FileExportMetadata) :
    (objectOf entryNames (fileValues tree file extras)).Plain 125 := by
  have hcount : ∀ n : UInt32, (Json.int n.toNat).Plain 124 := by
    intro n
    have hbound := n.toNat_lt
    have hint : -2 ^ 63 ≤ (n.toNat : ℤ) ∧ (n.toNat : ℤ) < 2 ^ 64 := by omega
    exact hint
  have hzero : (Json.int 0).Plain 124 := ⟨by decide, by decide⟩
  refine plain_objectOf fun value hvalue ↦ ?_
  simp only [fileValues, List.mem_cons, Option.some.injEq, List.not_mem_nil, or_false,
    eq_comm (a := some value), Option.map_eq_some_iff] at hvalue
  rcases hvalue with rfl | rfl | rfl | rfl | rfl | rfl | rfl | rfl | rfl | rfl |
    ⟨_, -, rfl⟩ | ⟨_, -, rfl⟩ | ⟨_, -, rfl⟩ | ⟨_, -, rfl⟩
  · trivial
  · trivial
  · exact plain_jsonNumber _ _
  · exact plain_jsonNumber _ _
  · exact hzero
  · exact hzero
  · exact plain_jsonTime _ _
  · exact hcount _
  · exact plain_jsonTime _ _
  · exact plain_jsonTime _ _
  · trivial
  · trivial
  · trivial
  · exact hcount _

theorem plain_catalogJson (tree : TreeIndex) (extras : List FileExportMetadata) :
    (catalogJson tree extras).Plain 127 := by
  refine plain_objectOf fun value hvalue ↦ ?_
  simp only [List.mem_cons, Option.some.injEq, List.not_mem_nil, or_false] at hvalue
  rcases hvalue with rfl | rfl
  · exact ⟨by decide, by decide⟩
  · intro item hitem
    rcases List.mem_append.mp hitem with hdirectory | hfile
    · obtain ⟨directory, -, rfl⟩ := List.mem_map.mp hdirectory
      exact plain_directory tree directory
    · obtain ⟨entry, -, rfl⟩ := List.mem_map.mp hfile
      exact plain_file tree entry.1 entry.2

def directoryEntry (tree : TreeIndex) (directory : DirectoryRecord) : Entry :=
  let totals := totalsOf tree directory
  ⟨directory.fullPath.toList, "Directory".toList, totals.logicalBytes, totals.physicalBytes,
    totals.fileCount,
    satSub totals.itemCount totals.fileCount, totals.modifiedUtcMax.map unixSeconds, none, none, none, none,
    none, none, none⟩

def fileEntry (tree : TreeIndex) (file : FileRecord) (extras : FileExportMetadata) : Entry :=
  ⟨jsonPath tree file, "File".toList, file.sizeBytes, file.allocationBytes, 0, 0,
    file.timestamps.modified.map unixSeconds, some file.attributes.bits,
    file.timestamps.created.map unixSeconds, file.timestamps.accessed.map unixSeconds, extras.owner,
    extras.volumeIdentity, extras.fileIdentity, extras.linkCount⟩

theorem optionalField_time (time : Option Int64) :
    OptionalField (fun n : Int64 ↦ .int n.toInt) (some (jsonTime time)) (time.map unixSeconds) := by
  cases time with
  | none => exact .null
  | some ticks => exact .value (unixSeconds ticks)

theorem optionalField_map {α : Type} (toJson : α → Json) (value : Option α) :
    OptionalField toJson (value.map toJson) value := by
  cases value with
  | none => exact .missing
  | some a => exact .value a

theorem entryJson_directory (tree : TreeIndex) (directory : DirectoryRecord) :
    EntryJson (objectOf entryNames (directoryValues tree directory)) (directoryEntry tree directory) :=
  @EntryJson.object (directoryEntry tree directory) _ _ _ _ _ _ _ _ (optionalField_time _) .missing
    .missing .missing .missing .missing .missing .missing

theorem entryJson_file (tree : TreeIndex) (file : FileRecord) (extras : FileExportMetadata) :
    EntryJson (objectOf entryNames (fileValues tree file extras)) (fileEntry tree file extras) :=
  @EntryJson.object (fileEntry tree file extras) _ _ _ _ _ _ _ _ (optionalField_time _)
    (.value file.attributes.bits) (optionalField_time _) (optionalField_time _) (optionalField_map _ _)
    (optionalField_map _ _) (optionalField_map _ _) (optionalField_map _ _)

/-- The entries that are written for a tree. -/
def writtenEntries (tree : TreeIndex) (extras : List FileExportMetadata) : List Entry :=
  (exportedDirectories tree).map (directoryEntry tree) ++
    (tree.files.zip extras).map fun entry ↦ fileEntry tree entry.1 entry.2

theorem scanJson_catalogJson (tree : TreeIndex) (extras : List FileExportMetadata) :
    ScanJson (catalogJson tree extras) ⟨1, writtenEntries tree extras⟩ := by
  apply @ScanJson.object ⟨1, writtenEntries tree extras⟩
  apply List.rel_append
  · rw [List.forall₂_map_left_iff, List.forall₂_map_right_iff]
    exact List.forall₂_same.mpr fun directory _ ↦ entryJson_directory tree directory
  · rw [List.forall₂_map_left_iff, List.forall₂_map_right_iff]
    exact List.forall₂_same.mpr fun entry _ ↦ entryJson_file tree entry.1 entry.2

/-! ## A deserializer -/

/-- The fields of a structure, and how many of the last have a default. An object has each field
once at most; an array has them in their order. -/
def structFields (names : List String) (defaults : ℕ) : Json → Option (List (Option Json))
  | .object fields =>
      if ∀ name ∈ names, fields.countP (·.1 = name.toList) ≤ 1 then
        some (names.map fun name ↦ (fields.find? (·.1 = name.toList)).map Prod.snd)
      else none
  | .array items =>
      if items.length ≤ names.length ∧ names.length ≤ items.length + defaults then
        some (items.map some ++ List.replicate (names.length - items.length) none)
      else none
  | _ => none

def asString (json : Json) : Option String := (asText json).map String.ofList

def asArray : Json → Option (List Json)
  | .array items => some items
  | _ => none

def asU32 (json : Json) : Option UInt32 := (asInt 0 (2 ^ 32) json).map fun n ↦ .ofNat n.toNat

def asI64 (json : Json) : Option Int64 := (asInt (-2 ^ 63) (2 ^ 63) json).map Int64.ofInt

/-- A field that may be missing or null. -/
def optional {α : Type} (value : Json → Option α) : Option Json → Option (Option α)
  | none => some none
  | some .null => some none
  | some json => (value json).map some

def Entry.ofFields : List (Option Json) → Option Entry
  | [path, kind, logical, allocated, files, directories, modified, attributes, created, accessed, owner,
      volume, file, count] => do
      pure ⟨← path.bind asText, ← kind.bind asText, ← logical.bind asU64, ← allocated.bind asU64,
        ← files.bind asU64, ← directories.bind asU64, ← optional asI64 modified,
        ← optional asU32 attributes, ← optional asI64 created, ← optional asI64 accessed,
        ← optional asString owner, ← optional asString volume, ← optional asString file,
        ← optional asU32 count⟩
  | _ => none

def Scan.ofFields : List (Option Json) → Option Scan
  | [version, entries] => do
      let version ← version.bind asU32
      let entries ← entries.bind asArray
      pure ⟨version, ← entries.mapM fun entry ↦ (structFields entryNames 0 entry).bind Entry.ofFields⟩
  | _ => none

def winDirStatNames : List String :=
  ["Name", "Files", "Folders", "Logical Size", "Physical Size", "Attributes", "Last Change",
    "WinDirStat Attributes", "Index", "Owner"]

def WinDirStatEntry.ofFields : List (Option Json) → Option WinDirStatEntry
  | [path, files, folders, logical, physical, attributes, modified, flags, index, owner] => do
      pure ⟨← path.bind asText, ← files.bind asU64, ← folders.bind asU64, ← logical.bind asU64,
        ← physical.bind asU64, ← attributes.bind asText, ← modified.bind asText, ← flags.bind asText,
        ← index.bind asText, ← optional asText owner⟩
  | _ => none

def orderedJsonFields : Json → Option OrderedJsonFields
  | .object fields => some fields
  | _ => none

/-- The first that the value can be taken for. -/
def Document.ofJson (json : Json) : Option Document :=
  (((structFields ["schema_version", "entries"] 0 json).bind Scan.ofFields).map Document.winBlaze).or
    ((((asArray json).bind fun items ↦ items.mapM fun entry ↦
        (structFields winDirStatNames 1 entry).bind WinDirStatEntry.ofFields).map Document.winDirStat).or
      (((asArray json).bind fun items ↦ items.mapM orderedJsonFields).map Document.localizedWinDirStat))

theorem structFields_objectOf {names : List String} (hnames : names.Nodup) {values : List (Option Json)}
    (hlength : values.length = names.length) (defaults : ℕ) :
    structFields names defaults (objectOf names values) = some values := by
  have hfields : (∀ name ∈ names, (presentFields names values).countP (·.1 = name.toList) ≤ 1) ∧
      names.map (fun name ↦ ((presentFields names values).find? (·.1 = name.toList)).map Prod.snd) =
        values := by
    induction names generalizing values with
    | nil =>
        obtain rfl := List.eq_nil_of_length_eq_zero hlength
        exact ⟨fun _ h ↦ absurd h List.not_mem_nil, rfl⟩
    | cons first others ih =>
        obtain ⟨value, rest, rfl⟩ := List.exists_cons_of_length_eq_add_one hlength
        obtain ⟨hfirst, hothers⟩ := List.nodup_cons.mp hnames
        obtain ⟨hcount, hfind⟩ := ih hothers (Nat.succ.inj hlength)
        have habsent : ∀ field ∈ presentFields others rest, ¬ field.1 = first.toList := by
          rintro field hfield hname
          obtain ⟨other, hother, hsame⟩ := exists_name hfield
          exact hfirst (String.toList_injective (hsame.symm.trans hname) ▸ hother)
        have hzero : (presentFields others rest).countP (·.1 = first.toList) = 0 :=
          List.countP_eq_zero.mpr fun field hfield ↦ by simpa using habsent field hfield
        have hnone : (presentFields others rest).find? (·.1 = first.toList) = none :=
          List.find?_eq_none.mpr fun field hfield ↦ by simpa using habsent field hfield
        have hdifferent : ∀ name ∈ others, ¬ first.toList = name.toList := fun name hname hsame ↦
          hfirst (String.toList_injective hsame ▸ hname)
        cases value with
        | none =>
            rw [presentFields_none, List.map_cons, hnone, hfind]
            refine ⟨List.forall_mem_cons.mpr ⟨hzero.trans_le zero_le_one, hcount⟩, rfl⟩
        | some value =>
            rw [presentFields_some]
            refine ⟨List.forall_mem_cons.mpr ⟨?_, fun name hname ↦ ?_⟩, ?_⟩
            · rw [List.countP_cons_of_pos (by simp), hzero]
            · rw [List.countP_cons_of_neg (by simpa using hdifferent name hname)]
              exact hcount name hname
            · rw [List.map_cons, List.find?_cons_of_pos (by simp)]
              refine congrArg₂ _ rfl (Eq.trans (List.map_congr_left fun name hname ↦ ?_) hfind)
              rw [List.find?_cons_of_neg (by simpa using hdifferent name hname)]
  rw [objectOf, structFields, if_pos hfields.1, hfields.2]

/-- What reads a value reads the field of an option. -/
theorem OptionalField.optional_eq {α : Type} {toJson : α → Json} {read : Json → Option α}
    (hread : ∀ a, toJson a ≠ .null ∧ read (toJson a) = some a) {json : Option Json} {value : Option α}
    (h : OptionalField toJson json value) : optional read json = some value := by
  cases h with
  | missing => rfl
  | null => rfl
  | value a =>
      obtain ⟨hnull, ha⟩ := hread a
      rw [optional, ha]
      · rfl
      · exact hnull

theorem asU64_jsonNumber (n : UInt64) : asU64 (jsonNumber n) = some n := by
  have hbound := n.toNat_lt
  rw [asU64, jsonNumber, asInt, if_pos (by omega), Option.map_some, Int.toNat_natCast, UInt64.ofNat_toNat]

theorem asU32_int (n : UInt32) : asU32 (.int n.toNat) = some n := by
  have hbound := n.toNat_lt
  rw [asU32, asInt, if_pos (by omega), Option.map_some, Int.toNat_natCast, UInt32.ofNat_toNat]

theorem asI64_int (n : Int64) : asI64 (.int n.toInt) = some n := by
  rw [asI64, asInt, if_pos (toInt_bounds n), Option.map_some, Int64.ofInt_toInt]

theorem OptionalField.optional_asU32 {json : Option Json} {value : Option UInt32}
    (h : OptionalField (fun n : UInt32 ↦ .int n.toNat) json value) : optional asU32 json = some value := by
  refine h.optional_eq fun n ↦ ⟨fun hnull ↦ ?_, asU32_int n⟩
  cases hnull

theorem OptionalField.optional_asI64 {json : Option Json} {value : Option Int64}
    (h : OptionalField (fun n : Int64 ↦ .int n.toInt) json value) : optional asI64 json = some value := by
  refine h.optional_eq fun n ↦ ⟨fun hnull ↦ ?_, asI64_int n⟩
  cases hnull

theorem OptionalField.optional_asString {json : Option Json} {value : Option String}
    (h : OptionalField (fun text : String ↦ .string text.toList) json value) :
    optional asString json = some value := by
  refine h.optional_eq fun text ↦ ⟨fun hnull ↦ ?_, by simp [asString, asText]⟩
  cases hnull

theorem structFields_entry {values : List (Option Json)} (hlength : values.length = 14) :
    structFields entryNames 0 (objectOf entryNames values) = some values :=
  structFields_objectOf (by decide) hlength 0

theorem structFields_catalog {values : List (Option Json)} (hlength : values.length = 2) :
    structFields catalogNames 0 (objectOf catalogNames values) = some values :=
  structFields_objectOf (by decide) hlength 0

theorem bind_asText (text : List Char) : (some (Json.string text)).bind asText = some text := rfl

theorem bind_asU64 (n : UInt64) : (some (jsonNumber n)).bind asU64 = some n := by
  rw [Option.bind_some, asU64_jsonNumber]

theorem EntryJson.ofFields {value : Json} {entry : Entry} (h : EntryJson value entry) :
    (structFields entryNames 0 value).bind Entry.ofFields = some entry := by
  cases h with
  | object hmodified hattributes hcreated haccessed howner hvolume hfile hcount =>
      rw [structFields_entry rfl, Option.bind_some, Entry.ofFields, bind_asText, bind_asText, bind_asU64,
        bind_asU64, bind_asU64, bind_asU64, hmodified.optional_asI64, hattributes.optional_asU32,
        hcreated.optional_asI64, haccessed.optional_asI64, howner.optional_asString,
        hvolume.optional_asString, hfile.optional_asString, hcount.optional_asU32]
      rfl

theorem mapM_ofFields {values : List Json} {entries : List Entry} (h : List.Forall₂ EntryJson values entries) :
    values.mapM (fun entry ↦ (structFields entryNames 0 entry).bind Entry.ofFields) = some entries := by
  induction h with
  | nil => rfl
  | cons hentry _ ih =>
      rw [List.mapM_cons, hentry.ofFields, ih]
      rfl

theorem ScanJson.ofJson {value : Json} {scan : Scan} (h : ScanJson value scan) :
    Document.ofJson value = some (.winBlaze scan) := by
  cases h with
  | @object _ values hentries =>
      have hscan : Scan.ofFields [some (.int scan.schemaVersion.toNat), some (.array values)] = some scan := by
        rw [Scan.ofFields, Option.bind_some, asU32_int]
        change (values.mapM (fun entry ↦ (structFields entryNames 0 entry).bind Entry.ofFields)).bind _ = _
        rw [mapM_ofFields hentries]
        rfl
      rw [Document.ofJson, ← catalogNames, structFields_catalog rfl, Option.bind_some, hscan]
      rfl

/-- A parser of values gives a deserializer. -/
def Document.fromReader (text : List Char) : Except String Document := do
  let json ← Json.readLine text
  ((Document.ofJson json).map Except.ok).getD
    (.error "data did not match any variant of untagged enum Document")

theorem readsScans_fromReader : ReadsScans Document.fromReader := by
  intro value scan hscan hplain
  rw [Document.fromReader, Json.readLine_text hplain]
  change ((Document.ofJson value).map Except.ok).getD _ = _
  rw [hscan.ofJson, Option.map_some, Option.getD_some]

end CatalogText

end WinBlaze
