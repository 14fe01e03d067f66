import WinBlaze.Index.CatalogImport

/-!
# Exporting catalogs

A catalog is written as rows of fields, the directories first and the root before
all others. The tab-separated form is the other one with its commas replaced
wherever they are not quoted. JSON has an object in place of each row.
-/

namespace WinBlaze

namespace CatalogText

open Saturating

/-! ## Writing -/

def escaped (text : List Char) : List Char :=
  match text.splitOn '"' with
  | [] => []
  | first :: parts => first ++ parts.flatMap fun part ↦ ['"', '"'] ++ part

def quoted (text : List Char) : List Char := '"' :: (escaped text ++ ['"'])

def csvHeader : List Char :=
  "Path,Kind,LogicalBytes,AllocatedBytes,Files,Directories,ModifiedUnixSeconds\r\n".toList

/-- The root, and then the other directories. -/
def exportedDirectories (tree : TreeIndex) : List DirectoryRecord :=
  let root := tree.rootEntry.map Prod.fst
  let rootId := root.map DirectoryRecord.id
  root.toList ++ tree.directories.filter fun directory ↦ some directory.id ≠ rootId

def totalsOf (tree : TreeIndex) (directory : DirectoryRecord) : DirRollup :=
  (tree.rollupFor directory.id.val).getD {}

def csvDirectoryRow (tree : TreeIndex) (directory : DirectoryRecord) : List Char :=
  let rollup := totalsOf tree directory
  let row := quoted directory.fullPath.toList ++ ",Directory,".toList
  let row := [rollup.logicalBytes, rollup.physicalBytes, rollup.fileCount,
    satSub rollup.itemCount rollup.fileCount].foldl (fun row number ↦ csvInteger row number ++ [',']) row
  csvTimestamp row rollup.modifiedUtcMax

/-- The start of a quoted path in this directory. -/
def parentPrefix (tree : TreeIndex) (parent : DirectoryId) : List Char :=
  '"' :: match (tree.directoryFullPath parent.val).filter (· ≠ "") with
    | some path => escaped path.toList ++ if endsWithBackslash path then [] else ['\\']
    | none => []

/-- The last start of a path, and its directory. -/
structure PrefixCache where
  parentPrefix : List Char := []
  parentId : Option DirectoryId := none

def PrefixCache.lookUp (cache : PrefixCache) (tree : TreeIndex) (parent : DirectoryId) : PrefixCache :=
  if cache.parentId ≠ some parent then ⟨CatalogText.parentPrefix tree parent, some parent⟩ else cache

def csvFileRow (tree : TreeIndex) (cache : PrefixCache) (file : FileRecord) : List Char × PrefixCache :=
  let cache := if file.fullPath ≠ "" then cache else cache.lookUp tree file.parentDirectoryId
  let row :=
    if file.fullPath ≠ "" then quoted file.fullPath.toList
    else cache.parentPrefix ++ escaped file.name.toList ++ ['"']
  let row := csvInteger (row ++ ",File,".toList) file.sizeBytes ++ [',']
  let row := csvInteger row file.allocationBytes ++ ",0,0,".toList
  (csvTimestamp row file.timestamps.modified, cache)

def csvFileRows (tree : TreeIndex) : PrefixCache → List FileRecord → List (List Char)
  | _, [] => []
  | cache, file :: rest =>
      let (row, cache) := csvFileRow tree cache file
      row :: csvFileRows tree cache rest

/-- What each call writes. A filtered export has no directories. -/
def writeCsvSelected (tree : TreeIndex) (filter : Option (FileRecord → Bool)) : List (List Char) :=
  [csvHeader] ++
    ((exportedDirectories tree).filter fun _ ↦ filter.isNone).map (csvDirectoryRow tree) ++
    csvFileRows tree {} (tree.files.filter fun file ↦ filter.all fun accepts ↦ accepts file)

def writeCsv (tree : TreeIndex) : List (List Char) := writeCsvSelected tree none

/-- A writer for a text of ASCII separators, whose other parts are as they may. -/
structure TabWriter (β : Type) where
  output : List β := []
  quoted : Bool := false

namespace TabWriter

variable {β : Type} [DecidableEq β] (ascii : Char → β)

/-- The loop body. What is kept is copied up to the next comma to replace. -/
def writeByte (state : TabWriter β × List β) (byte : β) : TabWriter β × List β :=
  let (writer, kept) := state
  if byte = ascii '"' then ({ writer with quoted := !writer.quoted }, kept ++ [byte])
  else if byte = ascii ',' ∧ writer.quoted = false then
    ({ writer with output := writer.output ++ kept ++ [ascii '\t'] }, [])
  else (writer, kept ++ [byte])

def write (writer : TabWriter β) (bytes : List β) : TabWriter β :=
  let (writer, kept) := bytes.foldl (writeByte ascii) (writer, [])
  { writer with output := writer.output ++ kept }

end TabWriter

def writeTsv (tree : TreeIndex) : List Char := ((writeCsv tree).foldl (TabWriter.write id) {}).output

/-! ## Writing with metadata -/

def detailedCsvHeader : List Char :=
  ("Path,Kind,LogicalBytes,AllocatedBytes,Files,Directories,ModifiedUnixSeconds,Attributes," ++
    "CreatedUnixSeconds,AccessedUnixSeconds,Owner,VolumeIdentity,FileIdentity,LinkCount\r\n").toList

/-- `to_string` of an unsigned number. -/
def unsignedText (n : ℕ) : List Char := Decimal.writeDigits 20 n []

def secondsText (time : Option Int64) : List Char :=
  time.elim [] fun ticks ↦ signedText (unixSeconds ticks).toInt

def detailedDirectoryRow (tree : TreeIndex) (directory : DirectoryRecord) : List Char :=
  let totals := totalsOf tree directory
  quoted directory.fullPath.toList ++ ",Directory,".toList ++
    unsignedText totals.logicalBytes.toNat ++ [','] ++ unsignedText totals.physicalBytes.toNat ++ [','] ++
    unsignedText totals.fileCount.toNat ++ [','] ++
    unsignedText (satSub totals.itemCount totals.fileCount).toNat ++ [','] ++
    secondsText totals.modifiedUtcMax ++ ",,,,,,,\r\n".toList

def filePath (tree : TreeIndex) (file : FileRecord) : List Char :=
  if file.fullPath ≠ "" then quoted file.fullPath.toList
  else parentPrefix tree file.parentDirectoryId ++ escaped file.name.toList ++ ['"']

def optionalQuoted (value : Option String) : List Char := value.elim [] fun text ↦ quoted text.toList

def detailedFileRow (tree : TreeIndex) (file : FileRecord) (extras : FileExportMetadata) : List Char :=
  filePath tree file ++ ",File,".toList ++
    unsignedText file.sizeBytes.toNat ++ [','] ++ unsignedText file.allocationBytes.toNat ++
    ",0,0,".toList ++ secondsText file.timestamps.modified ++ [','] ++
    unsignedText file.attributes.bits.toNat ++ [','] ++ secondsText file.timestamps.created ++ [','] ++
    secondsText file.timestamps.accessed ++
    ([extras.owner, extras.volumeIdentity, extras.fileIdentity].flatMap fun value ↦
      ',' :: optionalQuoted value) ++ [','] ++
    extras.linkCount.elim [] (fun count ↦ unsignedText count.toNat) ++ "\r\n".toList

/-- The provider of the metadata may keep a state and may fail. -/
def writeCsvWithMetadata {σ ε : Type} (tree : TreeIndex)
    (metadata : FileRecord → StateT σ (Except ε) (Option FileExportMetadata)) :
    StateT σ (Except ε) (List Char) := do
  let files ← tree.files.mapM fun file ↦ do
    let extras ← metadata file
    pure (detailedFileRow tree file (extras.getD ⟨none, none, none, none⟩))
  pure (detailedCsvHeader ++ (exportedDirectories tree).flatMap (detailedDirectoryRow tree) ++
    files.flatten)

/-! ## JSON -/

def hexDigit (n : ℕ) : Char := if n < 10 then .ofNat (48 + n) else .ofNat (87 + n)

/-- A number in four hexadecimal digits. -/
def hexText (n : ℕ) : List Char :=
  [hexDigit (n / 4096 % 16), hexDigit (n / 256 % 16), hexDigit (n / 16 % 16), hexDigit (n % 16)]

def jsonEscapedByte (byte : Char) : List Char :=
  if byte = '"' then ['\\', '"']
  else if byte = '\\' then ['\\', '\\']
  else if byte = '\n' then ['\\', 'n']
  else if byte = '\r' then ['\\', 'r']
  else if byte = '\t' then ['\\', 't']
  else if byte.toNat < 32 then '\\' :: 'u' :: hexText byte.toNat
  else [byte]

def jsonEscaped (text : List Char) : List Char := text.flatMap jsonEscapedByte

def jsonString (text : List Char) : List Char := '"' :: (jsonEscaped text ++ ['"'])

def jsonSeconds (time : Option Int64) : List Char :=
  time.elim "null".toList fun ticks ↦ signedText (unixSeconds ticks).toInt

def jsonDirectoryEntry (tree : TreeIndex) (directory : DirectoryRecord) : List Char :=
  let totals := totalsOf tree directory
  "\x7b\"Path\":".toList ++ jsonString directory.fullPath.toList ++
    ",\"Kind\":\"Directory\",\"LogicalBytes\":".toList ++ unsignedText totals.logicalBytes.toNat ++
    ",\"AllocatedBytes\":".toList ++ unsignedText totals.physicalBytes.toNat ++
    ",\"Files\":".toList ++ unsignedText totals.fileCount.toNat ++
    ",\"Directories\":".toList ++ unsignedText (satSub totals.itemCount totals.fileCount).toNat ++
    ",\"ModifiedUnixSeconds\":".toList ++ jsonSeconds totals.modifiedUtcMax ++ "\x7d".toList

/-- The backslashes at the end of the parent are dropped and one is written. -/
def jsonFilePath (tree : TreeIndex) (file : FileRecord) : List Char :=
  if file.fullPath ≠ "" then jsonString file.fullPath.toList
  else
    '"' :: ((match (tree.directoryFullPath file.parentDirectoryId.val).filter (· ≠ "") with
      | some parent => jsonEscaped (trimEndBackslashes parent.toList) ++ ['\\', '\\']
      | none => []) ++ jsonEscaped file.name.toList ++ ['"'])

def jsonMetadata (metadata : FileExportMetadata) : List Char :=
  ([("Owner", metadata.owner), ("VolumeIdentity", metadata.volumeIdentity),
    ("FileIdentity", metadata.fileIdentity)].flatMap fun entry ↦
      entry.2.elim [] fun value ↦
        ",\"".toList ++ entry.1.toList ++ "\":".toList ++ jsonString value.toList) ++
    metadata.linkCount.elim [] fun count ↦ ",\"LinkCount\":".toList ++ unsignedText count.toNat

/-- What follows the path of a file. -/
def jsonFileColumns (file : FileRecord) (metadata : Option FileExportMetadata) : List Char :=
  ",\"Kind\":\"File\",\"LogicalBytes\":".toList ++ unsignedText file.sizeBytes.toNat ++
    ",\"AllocatedBytes\":".toList ++ unsignedText file.allocationBytes.toNat ++
    ",\"Files\":0,\"Directories\":0,\"ModifiedUnixSeconds\":".toList ++
    jsonSeconds file.timestamps.modified ++
    ",\"Attributes\":".toList ++ unsignedText file.attributes.bits.toNat ++
    ",\"CreatedUnixSeconds\":".toList ++ jsonSeconds file.timestamps.created ++
    ",\"AccessedUnixSeconds\":".toList ++ jsonSeconds file.timestamps.accessed ++
    metadata.elim [] jsonMetadata ++ "\x7d".toList

def jsonFileEntry (tree : TreeIndex) (file : FileRecord) (metadata : Option FileExportMetadata) :
    List Char :=
  "\x7b\"Path\":".toList ++ jsonFilePath tree file ++ jsonFileColumns file metadata

def jsonDirectoryEntries (tree : TreeIndex) : List (List Char) :=
  (exportedDirectories tree).map (jsonDirectoryEntry tree)

def jsonText (entries : List (List Char)) : List Char :=
  "\x7b\"schema_version\":1,\"entries\":[".toList ++ [','].intercalate entries ++ "]\x7d\n".toList

def writeJsonWithMetadata {σ ε : Type} (tree : TreeIndex)
    (metadata : FileRecord → StateT σ (Except ε) (Option FileExportMetadata)) :
    StateT σ (Except ε) (List Char) := do
  let files ← tree.files.mapM fun file ↦ do
    let extras ← metadata file
    pure (jsonFileEntry tree file extras)
  pure (jsonText (jsonDirectoryEntries tree ++ files))

/-- The entries of the files, with the metadata of the catalog itself. -/
def jsonFileEntries (catalog : TreeCatalog) : List (List Char) :=
  catalog.tree.files.map fun file ↦
    jsonFileEntry catalog.tree file (catalog.exportMetadata.find? file.id.val)

def writeJson (catalog : TreeCatalog) : List Char :=
  jsonText (jsonDirectoryEntries catalog.tree ++ jsonFileEntries catalog)

end CatalogText

end WinBlaze
