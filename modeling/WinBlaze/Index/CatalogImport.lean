import WinBlaze.Index.CatalogTimes
import WinBlaze.Index.MultipleRoots

/-!
# Importing exported catalogs

A delimited text becomes rows, rows of four formats become rows of one, and the
directories of the tree are put together from the paths of the rows.
-/

namespace WinBlaze

namespace CatalogText

inductive Failure
  /-- An error with this message. -/
  | invalid (message : String)
  | panic
  /-- A loop is not done in the steps it was given. -/
  | unfinished
  deriving DecidableEq, Repr

abbrev Import := Except Failure

def ensure (condition : Bool) (message : String) : Import Unit :=
  if condition then .ok () else .error (.invalid message)

def orInvalid {α : Type} (message : String) (value : Option α) : Import α :=
  value.elim (.error (.invalid message)) .ok

/-- An `unwrap`, or an access by index or key. -/
def orPanic {α : Type} (value : Option α) : Import α := value.elim (.error .panic) .ok

abbrev Row := List (List Char)

/-! ## Characters -/

def isAscii (text : List Char) : Bool := text.all fun c ↦ c.toNat < 128

def toAsciiLowercase (c : Char) : Char :=
  if 'A' ≤ c ∧ c ≤ 'Z' then .ofNat (c.toNat + 32) else c

def eqIgnoreAsciiCase (a b : List Char) : Bool := a.map toAsciiLowercase = b.map toAsciiLowercase

/-- `len`, in UTF-8. -/
def byteLength (text : List Char) : ℕ := (text.map Char.utf8Size).sum

def startsWith (text start : List Char) : Bool := start.isPrefixOf text

def contains (text part : List Char) : Bool := text.tails.any part.isPrefixOf

def trimEndBackslashes (text : List Char) : List Char :=
  (text.reverse.dropWhile (· = '\\')).reverse

def trimStartMark (text : List Char) : List Char := text.dropWhile fun c ↦ c.toNat = 0xFEFF

def isDescendant (toLowercase : List Char → List Char) (path parent : List Char) : Bool :=
  if isAscii path && isAscii parent then
    parent.length ≤ path.length && eqIgnoreAsciiCase (path.take parent.length) parent &&
      path[parent.length]? = some '\\'
  else startsWith (toLowercase path) (toLowercase parent ++ ['\\'])

/-! ## Rows -/

structure RowReader where
  rows : List Row := []
  row : Row := []
  field : List Char := []
  quoted : Bool := false
  closed : Bool := false

namespace RowReader

def push (reader : RowReader) (c : Char) : RowReader := { reader with field := reader.field ++ [c] }

def endField (reader : RowReader) : RowReader :=
  { reader with row := reader.row ++ [reader.field], field := [], closed := false }

/-- The end of a line. Rows without any text are dropped. -/
def endRow (reader : RowReader) : RowReader :=
  let reader := reader.endField
  if reader.row.any fun value ↦ !value.isEmpty then
    { reader with rows := reader.rows ++ [reader.row], row := [] }
  else { reader with row := [] }

/-- The loop over the characters. -/
def read (delimiter : Char) : RowReader → List Char → Import RowReader
  | reader, [] => .ok reader
  | reader, ch :: rest =>
      if reader.quoted then
        if ch = '"' then
          match rest with
          | [] => .ok { reader with quoted := false, closed := true }
          | next :: after =>
              if next = '"' then read delimiter (reader.push '"') after
              else read delimiter { reader with quoted := false, closed := true } (next :: after)
        else read delimiter (reader.push ch) rest
      else if ch = '"' then
        if reader.field.isEmpty && !reader.closed then read delimiter { reader with quoted := true } rest
        else .error (.invalid "Unexpected CSV quote")
      else if ch = delimiter then read delimiter reader.endField rest
      else if ch = '\n' then read delimiter reader.endRow rest
      else if ch = '\r' ∧ rest.head? = some '\n' then read delimiter reader rest
      else if reader.closed then .error (.invalid "Characters after closing CSV quote")
      else read delimiter (reader.push ch) rest

end RowReader

def rows (input : List Char) (delimiter : Char) : Import (List Row) := do
  let reader ← RowReader.read delimiter {} input
  ensure (!reader.quoted) "Unclosed CSV quote"
  pure (if !reader.field.isEmpty || !reader.row.isEmpty || reader.closed then
    reader.rows ++ [reader.row ++ [reader.field]] else reader.rows)

/-! ## Numbers and dates -/

def parseU32 (text : List Char) : Option UInt32 :=
  (Decimal.parseUnsigned (2 ^ 32) text).map UInt32.ofNat

def parseU64 (text : List Char) : Option UInt64 :=
  (Decimal.parseUnsigned (2 ^ 64) text).map UInt64.ofNat

/-- `to_string` of a signed number. -/
def signedText (n : ℤ) : List Char :=
  (if n < 0 then ['-'] else []) ++ Decimal.writeDigits 20 n.natAbs []

def hexValue (c : Char) : Option ℕ :=
  if '0' ≤ c ∧ c ≤ '9' then some (c.toNat - 48)
  else if 'a' ≤ c ∧ c ≤ 'f' then some (c.toNat - 87)
  else if 'A' ≤ c ∧ c ≤ 'F' then some (c.toNat - 55) else none

def hexDigits (text : List Char) : Option ℕ :=
  if text.isEmpty then none
  else text.foldl (fun value c ↦ value.bind fun v ↦ (hexValue c).map (16 * v + ·)) (some 0)

/-- `u32::from_str_radix` of base 16. -/
def fromHex (text : List Char) : Option ℕ :=
  (if text.head? = some '+' then hexDigits text.tail else hexDigits text).filter (· < 2 ^ 32)

def trimStartHexMark : List Char → List Char
  | '0' :: 'x' :: rest => trimStartHexMark rest
  | text => text

/-- A date as seconds since 1970. Years have four digits, so nothing overflows. -/
def utcDate (text : List Char) : Import ℤ := do
  let fields := (text.splitOnP fun c ↦ c = '-' || c = 'T' || c = ':' || c = 'Z').filter (!·.isEmpty)
  ensure (6 ≤ fields.length) "Invalid date"
  let numbers ← (fields.take 6).mapM fun field ↦
    (orInvalid "Invalid date" (parseI64 field)).map Int64.toInt
  ensure (byteLength text = 20 && text.getLast? = some 'Z' && fields.length = 6) "Invalid date"
  let year ← orPanic numbers[0]?
  let month ← orPanic numbers[1]?
  let day ← orPanic numbers[2]?
  let hour ← orPanic numbers[3]?
  let minute ← orPanic numbers[4]?
  let second ← orPanic numbers[5]?
  ensure (1 ≤ month && month ≤ 12 && (1 ≤ day && day ≤ 31) && (0 ≤ hour && hour < 24) &&
    (0 ≤ minute && minute < 60) && (0 ≤ second && second < 60)) "Invalid date"
  let leap : Bool := year % 4 = 0 && (year % 100 ≠ 0 || year % 400 = 0)
  let maximum : ℤ :=
    if month = 2 then if leap then 29 else 28
    else if month = 4 || month = 6 || month = 9 || month = 11 then 30 else 31
  ensure (1601 ≤ year && year ≤ 9999 && day ≤ maximum) "Invalid calendar date"
  let y := year - if month ≤ 2 then 1 else 0
  let era := y / 400
  let yoe := y - era * 400
  let mp := month + if 2 < month then -3 else 9
  let doy := (153 * mp + 2) / 5 + day - 1
  let days := era * 146097 + yoe * 365 + yoe / 4 - yoe / 100 + doy - 719468
  pure (days * 86400 + hour * 3600 + minute * 60 + second)

inductive CsvTimeZone
  | local | utc

/-! ## Formats -/

structure ImportedMetadata where
  attributes : Option UInt32 := none
  created : Option Int64 := none
  accessed : Option Int64 := none
  exported : FileExportMetadata := ⟨none, none, none, none⟩

abbrev Metadata := IdMap (List Char) ImportedMetadata

def texts (captions : List String) : Row := captions.map String.toList

def canonicalHeader : Row :=
  texts ["Path", "Kind", "LogicalBytes", "AllocatedBytes", "Files", "Directories",
    "ModifiedUnixSeconds"]

def detailedHeader : Row :=
  canonicalHeader ++ texts ["Attributes", "CreatedUnixSeconds", "AccessedUnixSeconds", "Owner",
    "VolumeIdentity", "FileIdentity", "LinkCount"]

def windirstatHeader : Row :=
  texts ["Name", "Files", "Folders", "Logical Size", "Physical Size", "Attributes", "Last Change",
    "WinDirStat Attributes", "Index"]

def column (row : Row) (index : ℕ) : Import (List Char) := orPanic row[index]?

def toTicks (seconds : Int64) : Import Int64 := (unixToTicks seconds).mapError .invalid

def optionalTime (text : List Char) : Import (Option Int64) :=
  if text.isEmpty then pure none
  else do
    let seconds ← orInvalid "Invalid detailed timestamp" (parseI64 text)
    some <$> toTicks seconds

def optionalNumber (text : List Char) : Import (Option (List Char)) :=
  if text.isEmpty then pure none
  else do
    let _ ← orInvalid "Invalid detailed identity" (Decimal.parseUnsigned (2 ^ 128) text)
    pure (some text)

def optionalCount (text : List Char) : Import (Option UInt32) :=
  if text.isEmpty then pure none else some <$> orInvalid "Invalid link count" (parseU32 text)

/-- What the further columns say of a file. -/
def detailsOf (row : Row) : Import ImportedMetadata := do
  let volume ← optionalNumber (← column row 11)
  ensure (volume.all fun value ↦ (parseU64 value).isSome) "Invalid volume identity"
  let attributes ← orInvalid "Invalid attributes" (parseU32 (← column row 7))
  let created ← optionalTime (← column row 8)
  let accessed ← optionalTime (← column row 9)
  let owner ← column row 10
  let identity ← optionalNumber (← column row 12)
  let linkCount ← optionalCount (← column row 13)
  pure ⟨some attributes, created, accessed, ⟨if owner.isEmpty then none else some (String.ofList owner),
    volume.map String.ofList, identity.map String.ofList, linkCount⟩⟩

def detailedRow (metadata : Metadata) (row : Row) : Import Metadata := do
  ensure (row.length = 14) "Wrong number of detailed CSV fields"
  if (← column row 1) = "File".toList then
    let path ← column row 0
    let details ← detailsOf row
    pure (metadata.set path details)
  else pure metadata

/-- Rows with further columns lose them to the metadata. -/
def readDetails (rows : List Row) : Import (List Row × Metadata) :=
  if rows.head? = some detailedHeader then do
    let metadata ← rows.tail.foldlM detailedRow .empty
    pure (rows.map (List.take 7), metadata)
  else pure (rows, .empty)

def takeColumns : List ℕ → Row → Import Row
  | [], _ => pure []
  | index :: rest, row => do
      let value ← column row index
      let values ← takeColumns rest (row.set index [])
      pure (value :: values)

/-- The columns with this caption. -/
def captioned (header : Row) (caption : List Char) : List ℕ :=
  (header.zipIdx.filter fun entry ↦ eqIgnoreAsciiCase entry.1 caption).map Prod.snd

/-- The columns of another order are put in the usual one. -/
def reorderColumns (rows : List Row) : Import (List Row) := do
  let header ← orInvalid "Empty CSV" rows.head?
  if windirstatHeader.all fun caption ↦ header.any fun value ↦ eqIgnoreAsciiCase value caption then
    let mapping ← windirstatHeader.mapM fun caption ↦ do
      ensure ((captioned header caption).length = 1) "Duplicate CSV column"
      orPanic (captioned header caption).head?
    let owner := (captioned header "Owner".toList).head?.toList
    rows.mapM fun row ↦ do
      ensure (row.length = header.length) "Wrong number of CSV fields"
      takeColumns (mapping ++ owner) row
  else pure rows

def windirstatMetadata (rows : List Row) : Metadata :=
  .ofPairs (rows.tail.filterMap fun row ↦ ((row[9]?).filter (!·.isEmpty)).bind fun owner ↦
    (row[0]?).map fun path ↦ (path, { exported := ⟨some (String.ofList owner), none, none, none⟩ }))

def windirstatTime (date : List Char) : Import (List Char) :=
  if date.isEmpty then pure [] else signedText <$> utcDate date

def windirstatRow (width : ℕ) (row : Row) : Import Row := do
  ensure (row.length = if width = 10 then 10 else 9) "Invalid WinDirStat CSV fields"
  let flags ← orInvalid "Invalid WinDirStat flags" (fromHex (trimStartHexMark (← column row 7)))
  let time ← windirstatTime (← column row 6)
  pure [← column row 0, (if flags.testBit 2 then "Directory" else "File").toList, ← column row 3,
    ← column row 4, ← column row 1, ← column row 2, time]

def windirstat (rows : List Row) : Import (List Row) := do
  let header ← orPanic rows[0]?
  let out ← rows.tail.mapM (windirstatRow header.length)
  pure (texts ["Path"] :: out)

def inTimeZone (localToUtc : ℤ → Import ℤ) (timezone : CsvTimeZone) (seconds : ℤ) : Import ℤ :=
  match timezone with
  | .local => localToUtc seconds
  | .utc => pure seconds

def wiztreeTime (localToUtc : ℤ → Import ℤ) (timezone : CsvTimeZone) (date : List Char) :
    Import (List Char) :=
  if date.isEmpty then pure []
  else do
    let seconds ← utcDate (date.map (fun ch ↦
      if ch = '/' then '-' else if ch = ' ' then 'T' else ch) ++ ['Z'])
    signedText <$> inTimeZone localToUtc timezone seconds

def wiztreeRow (localToUtc : ℤ → Import ℤ) (timezone : CsvTimeZone) (row : Row) : Import Row := do
  ensure (7 ≤ row.length) "Invalid WizTree CSV fields"
  let flags ← orInvalid "Invalid WizTree attributes" (parseU32 (← column row 4))
  let name ← column row 0
  let directory := flags.toNat.testBit 4 || name.getLast? = some '\\'
  let path := if directory then trimEndBackslashes name else name
  let time ← wiztreeTime localToUtc timezone (← column row 3)
  pure [path, (if directory then "Directory" else "File").toList, ← column row 1, ← column row 2,
    ← column row 5, ← column row 6, time]

def wiztree (localToUtc : ℤ → Import ℤ) (timezone : CsvTimeZone) (rows : List Row) :
    Import (List Row) := do
  let out ← rows.tail.mapM (wiztreeRow localToUtc timezone)
  pure (texts ["Path"] :: out)

structure Table where
  rows : List Row
  allowLegacyTicks : Bool
  metadata : Metadata

def isForeignWindirstat (rows : List Row) (header : Row) : Bool :=
  header.head? = some "Name".toList ||
    ((header.length = 9 || header.length = 10) &&
      header.any (fun caption ↦ contains caption "WinDirStat".toList) &&
      ((rows[1]?).bind (·[7]?)).any fun flags ↦
        startsWith flags "0x".toList && (fromHex (flags.drop 2)).isSome)

/-- The rows in the format of this catalog. -/
def convertRows (localToUtc : ℤ → Import ℤ) (timezone : CsvTimeZone) (foreign : Bool) (rows : List Row) :
    Import (List Row) :=
  if foreign then windirstat rows
  else if rows.head?.bind List.head? = some "File Name".toList then wiztree localToUtc timezone rows
  else pure rows

/-- `read_delimited`, up to the rows it builds the tree from. -/
def readTable (localToUtc : ℤ → Import ℤ) (timezone : CsvTimeZone) (delimiter : Char)
    (text : List Char) : Import Table := do
  let rows ← rows (trimStartMark text) delimiter
  let rows := if (rows.head?.bind List.head?).any fun value ↦
    startsWith value "Generated by WizTree ".toList then rows.tail else rows
  let (rows, detailedMetadata) ← readDetails rows
  let rows ← reorderColumns rows
  let header ← orInvalid "Empty CSV" rows.head?
  let foreign := isForeignWindirstat rows header
  ensure (!(header.head? = some "Path".toList && header ≠ canonicalHeader)) "Invalid WinBlaze CSV header"
  ensure (foreign || header.head? = some "Path".toList || header.head? = some "Name".toList ||
    header.head? = some "File Name".toList) "Unsupported CSV schema"
  let metadata := if foreign then windirstatMetadata rows else detailedMetadata
  let table ← convertRows localToUtc timezone foreign rows
  pure ⟨table, header.head? = some "Path".toList, metadata⟩

/-! ## Directories -/

abbrev Directories := IdMap (List Char) DirectoryId

/-- The order in which a hash map gives its entries. -/
structure HashOrder where
  entries : Directories → List (List Char × DirectoryId)
  perm : ∀ directories, (entries directories).Perm directories.records

def isDirectory (row : Row) : Bool := row[1]? = some "Directory".toList

def trimRow (row : Row) : Import Row :=
  if isDirectory row then do
    let path ← column row 0
    pure (row.set 0 (trimEndBackslashes path))
  else pure row

def nextDirectory (directories : Directories) (path : List Char) : Directories :=
  directories.set path ⟨.ofNat directories.records.length + 1⟩

/-- One row is checked, and its directory added. -/
def checkRow (toLowercase : List Char → List Char) (state : Directories × List (List Char)) (row : Row) :
    Import (Directories × List (List Char)) := do
  ensure (row.length = 7) "Wrong number of CSV fields"
  let path ← column row 0
  ensure (!path.isEmpty && !path.contains '\x00' && !state.2.contains (toLowercase path))
    "Empty or duplicate CSV path"
  ensure (((row.drop 2).take 4).all fun column ↦ (parseU64 column).isSome)
    "Invalid byte count or entry count"
  let time ← column row 6
  ensure (time.isEmpty || (parseI64 time).isSome) "Invalid timestamp"
  pure (if isDirectory row then nextDirectory state.1 path else state.1, toLowercase path :: state.2)

def stem (path : List Char) : Option (List Char) := (rsplitOnce '\\' path).map Prod.fst

def rowParent (row : Row) : Import (List Char) := do
  let path ← column row 0
  if isDirectory row then pure path else orInvalid "File has no parent path" (stem path)

def rootPath : List Char := MultipleRoots.rootPath.toList

/-- Directories beneath no other one. -/
def topRoots (toLowercase : List Char → List Char) (directories : Directories) : List (List Char) :=
  let keys := directories.records.map Prod.fst
  keys.filter fun path ↦ path ≠ rootPath &&
    !keys.any fun parent ↦ parent ≠ rootPath && isDescendant toLowercase path parent

def shrinkCommon (toLowercase : List Char → List Char) (parent : List Char) :
    ℕ → List Char → Import (List Char)
  | 0, _ => .error .unfinished
  | fuel + 1, common =>
      if eqIgnoreAsciiCase parent common || isDescendant toLowercase parent common then pure common
      else
        match stem common with
        | some shorter => shrinkCommon toLowercase parent fuel shorter
        | none => .error (.invalid "CSV spans unrelated volumes")

/-- The directory that has all others beneath it. -/
def commonRoot (toLowercase : List Char → List Char) (multiple : Bool) (rows : List Row) :
    Import (List Char) := do
  let first ← orInvalid "No scan records" rows.head?
  let path ← rowParent first
  rows.tail.foldlM (fun common row ↦ do
    let parent ← rowParent row
    if multiple then pure common else shrinkCommon toLowercase parent (common.length + 1) common)
    (if multiple then rootPath else path)

/-- Adds a directory and those above it, up to the common one or a top root. -/
def addAncestors (common : List Char) (top : List (List Char)) :
    ℕ → Directories → List Char → Import Directories
  | 0, _, _ => .error .unfinished
  | fuel + 1, directories, path =>
      let directories :=
        if (directories.find? path).isSome then directories else nextDirectory directories path
      if eqIgnoreAsciiCase path common || top.contains path then pure directories
      else
        match stem path with
        | some above => addAncestors common top fuel directories above
        | none => .error (.invalid "Invalid directory hierarchy")

/-- The directory of a row that is known to have one. -/
def rowStart (row : Row) : Import (List Char) := do
  let path ← column row 0
  if isDirectory row then pure path else orPanic (stem path)

def addRow (common : List Char) (top : List (List Char)) (directories : Directories) (row : Row) :
    Import Directories := do
  let start ← rowStart row
  addAncestors common top (start.length + 1) directories start

/-! ## Records -/

structure Layout where
  multiple : Bool
  top : List (List Char)
  common : List Char
  directories : Directories

def parentOfPath (layout : Layout) (path : List Char) : Import (Option DirectoryId) :=
  match (stem path).bind layout.directories.find? with
  | some id => pure (some id)
  | none =>
      if layout.multiple && path ≠ layout.common then
        some <$> orPanic (layout.directories.find? layout.common)
      else pure none

/-- A drive is written as its root directory. -/
def directoryPath (path : List Char) : List Char :=
  if byteLength path = 2 && path.getLast? = some ':' then path ++ ['\\'] else path

def directoryRecord (layout : Layout) (entry : List Char × DirectoryId) : Import DirectoryRecord := do
  let parent ← parentOfPath layout entry.1
  pure {
    id := entry.2
    parentDirectoryId := parent
    name := .ofList (if layout.top.contains entry.1 then entry.1
      else ((rsplitOnce '\\' entry.1).map Prod.snd).getD entry.1)
    fullPath := .ofList (directoryPath entry.1) }

def modifiedTime (allowLegacyTicks : Bool) (text : List Char) : Import (Option Int64) :=
  if text.isEmpty then pure none
  else some <$> (importTimestamp text allowLegacyTicks).mapError .invalid

/-- The record of a row that is not a directory. -/
def fileRecord (layout : Layout) (allowLegacyTicks : Bool) (metadata : Metadata) (entry : Row × ℕ) :
    Import (Option FileRecord) :=
  let row := entry.1
  if isDirectory row then pure none
  else do
    ensure (row[1]? = some "File".toList) "Unknown record kind"
    let path ← column row 0
    let parts ← orInvalid "File has no parent path" (rsplitOnce '\\' path)
    let parent ← orInvalid "Missing parent directory" (layout.directories.find? parts.1)
    let details := metadata.find? path
    let size ← orInvalid "Invalid logical bytes" (parseU64 (← column row 2))
    let allocation ← orInvalid "Invalid allocated bytes" (parseU64 (← column row 3))
    let modified ← modifiedTime allowLegacyTicks (← column row 6)
    pure (some {
      id := ⟨.ofNat entry.2 + 1⟩
      parentDirectoryId := parent
      name := .ofList parts.2
      fullPath := .ofList path
      sizeBytes := size
      allocationBytes := allocation
      attributes := ((details.bind ImportedMetadata.attributes).map FileAttributes.mk).getD .archive
      timestamps := ⟨details.bind ImportedMetadata.created, modified,
        details.bind ImportedMetadata.accessed⟩ })

/-- The rows, their directories and the records made from them. -/
structure ImportPlan where
  rows : List Row
  layout : Layout
  transaction : BufferedIndexTransaction

def layoutOf (toLowercase : List Char → List Char) (rows : List Row) : Import Layout := do
  let (directories, _) ← rows.foldlM (checkRow toLowercase) (.empty, [])
  let multiple := (directories.find? rootPath).isSome
  let top := if multiple then topRoots toLowercase directories else []
  let common ← commonRoot toLowercase multiple rows
  let directories ← rows.foldlM (addRow common top) directories
  pure ⟨multiple, top, common, directories⟩

def planImport (toLowercase : List Char → List Char) (order : HashOrder) (table : Table) :
    Import ImportPlan := do
  let rows ← table.rows.tail.mapM trimRow
  let layout ← layoutOf toLowercase rows
  let directories ← (order.entries layout.directories).mapM (directoryRecord layout)
  let files ← rows.zipIdx.mapM (fileRecord layout table.allowLegacyTicks table.metadata)
  pure ⟨rows, layout, (files.reduceOption).foldl BufferedIndexTransaction.insertFile
    (directories.foldl BufferedIndexTransaction.insertDirectory {})⟩

/-! ## The tree -/

/-- The totals of a directory are those of its row. -/
def checkTotals (tree : TreeIndex) (directories : Directories) (row : Row) : Import Unit :=
  if isDirectory row then do
    let id ← orPanic (directories.find? (← column row 0))
    let totals ← orInvalid "Disconnected directory" (tree.rollupFor id.val)
    let logical ← orPanic (parseU64 (← column row 2))
    let physical ← orPanic (parseU64 (← column row 3))
    let count ← orPanic (parseU64 (← column row 4))
    ensure (totals.logicalBytes = logical && totals.physicalBytes = physical && totals.fileCount = count)
      "Incomplete directory-only CSV: export individual files"
  else pure ()

def supplemental (tree : TreeIndex) (metadata : Metadata) : List (UInt64 × FileExportMetadata) :=
  tree.files.filterMap fun file ↦ (metadata.find? (tree.fileDisplayPath file).toList).bind fun value ↦
    if value.exported = ⟨none, none, none, none⟩ then none else some (file.id.val, value.exported)

/-- The rest of `build_import_metadata`; building the tree takes at most `fuel` steps. -/
def finishImport (fuel : ℕ) (metadata : Metadata) (plan : ImportPlan) : Import TreeCatalog := do
  let tree ← (TreeIndex.build fuel plan.transaction).elim (.error .unfinished) .ok
  ensure tree.rootEntry.isSome "No scan records"
  plan.rows.forM (checkTotals tree plan.layout.directories)
  pure ⟨tree, (supplemental tree metadata).foldl (fun exported entry ↦ exported.set entry.1 entry.2)
    .empty⟩

/-- Dates of another exporter need its time zone. -/
def localTimeUnknown (_ : ℤ) : Import ℤ :=
  .error (.invalid "WizTree dates require the exporting computer's timezone")

def readPlan (toLowercase : List Char → List Char) (order : HashOrder) (localToUtc : ℤ → Import ℤ)
    (timezone : CsvTimeZone) (delimiter : Char) (text : List Char) : Import (Table × ImportPlan) := do
  let table ← readTable localToUtc timezone delimiter text
  let plan ← planImport toLowercase order table
  pure (table, plan)

def readDelimited (toLowercase : List Char → List Char) (order : HashOrder) (fuel : ℕ)
    (localToUtc : ℤ → Import ℤ) (timezone : CsvTimeZone) (delimiter : Char) (text : List Char) :
    Import TreeCatalog := do
  let (table, plan) ← readPlan toLowercase order localToUtc timezone delimiter text
  finishImport fuel table.metadata plan

def readCsv (toLowercase : List Char → List Char) (order : HashOrder) (fuel : ℕ) (text : List Char) :
    Import TreeCatalog :=
  readDelimited toLowercase order fuel localTimeUnknown .local ',' text

def readTsvWithTimezone (toLowercase : List Char → List Char) (order : HashOrder) (fuel : ℕ)
    (localToUtc : ℤ → Import ℤ) (timezone : CsvTimeZone) (text : List Char) : Import TreeCatalog :=
  readDelimited toLowercase order fuel localToUtc timezone '\t' text

end CatalogText

end WinBlaze
