import WinBlaze.Core.Scan
import WinBlaze.Lib.Blocks
import WinBlaze.Lib.Saturating
import WinBlaze.Lib.Tally

/-!
# Forwarding live events to the user interface

The forwarder counts every file under its extension, collects directories into
batches, and fills in the path of the files it delivers. The final breakdown
counts the files of the finished index in chunks of their own.
-/

namespace WinBlaze

open Saturating

def snapshotEntryLimit : ℕ := 8192

def uiLiveCatalogEventLimit : ℕ := snapshotEntryLimit

def uiProgressMinItemDelta : UInt64 := 10000

def directoryBatchSize : ℕ := 4096

/-! ## Extensions -/

/-- What follows the last dot of a name, unless the dot is its first or last character. -/
def rawExtension (name : String) : String :=
  match rsplitOnce '.' name.toList with
  | some (stem, extension) =>
      if !stem.isEmpty && !extension.isEmpty then String.ofList extension else ""
  | none => ""

def hasAsciiUppercase (text : String) : Bool := text.toList.any Char.isUpper

def toAsciiLowercase (text : String) : String := String.ofList (text.toList.map Char.toLower)

/-- Bytes and number of the files with an extension. -/
structure ExtensionTotal where
  bytes : UInt64 := 0
  files : UInt64 := 0
  deriving DecidableEq, Repr, Inhabited

abbrev ExtensionTotals := IdMap String ExtensionTotal

def ExtensionTotal.addFile (totals : ExtensionTotal) (file : FileRecord) : ExtensionTotal where
  bytes := satAdd totals.bytes file.sizeBytes
  files := satAdd totals.files 1

/-! ## The final breakdown -/

/-- The loop body over a chunk. -/
def countExtension (totals : ExtensionTotals) (file : FileRecord) : ExtensionTotals :=
  let raw := rawExtension file.name
  if !hasAsciiUppercase raw then
    match totals.find? raw with
    | some entry => totals.set raw (entry.addFile file)
    | none => totals.set raw (ExtensionTotal.addFile {} file)
  else
    totals.set (toAsciiLowercase raw)
      (((totals.find? (toAsciiLowercase raw)).getD {}).addFile file)

def aggregateExtensionChunk (files : List FileRecord) : ExtensionTotals :=
  files.foldl countExtension .empty

/-- The loop body over the totals of a chunk. -/
def mergeExtension (totals : ExtensionTotals) (chunkTotal : String × ExtensionTotal) :
    ExtensionTotals :=
  let entry := (totals.find? chunkTotal.1).getD {}
  totals.set chunkTotal.1
    ⟨satAdd entry.bytes chunkTotal.2.bytes, satAdd entry.files chunkTotal.2.files⟩

def aggregateExtensionTotals (availableParallelism : ℕ) (files : List FileRecord) :
    ExtensionTotals :=
  let workers := max 1 (min availableParallelism 16)
  let chunk := max 1 ((files.length + workers - 1) / workers)
  let partials :=
    if files.length < 64000 || workers = 1 then [aggregateExtensionChunk files]
    else (Blocks.chunks chunk files).map aggregateExtensionChunk
  -- The last chunk takes in the others.
  partials.dropLast.foldl (fun totals more ↦ more.records.foldl mergeExtension totals)
    (partials.getLast?.getD .empty)

/-! ## The live breakdown -/

structure PendingLiveDirectory where
  id : UInt64
  parentId : UInt64
  hasParent : Bool
  name : String
  deriving DecidableEq, Repr

/-- What the callback of the user interface receives. -/
inductive UiEvent
  | directoryBatch (directories : List PendingLiveDirectory)
  | event (event : ScanEvent)
  deriving DecidableEq, Repr

/-- What the clock says while an event is forwarded. -/
structure ForwardClock where
  latencyDue : Bool
  intervalElapsed : Bool
  deriving DecidableEq, Repr

structure UiEventForwarder where
  hasCallback : Bool
  liveCatalogEvents : ℕ := 0
  /-- The items of the last delivered progress. -/
  lastProgressItems : Option UInt64 := none
  extensionTotals : ExtensionTotals := .empty
  /-- The paths of the directories seen while files are still delivered. -/
  directoryPaths : IdMap DirectoryId String := .empty
  pendingDirectories : List PendingLiveDirectory := []
  delivered : List UiEvent := []

namespace UiEventForwarder

def recordExtension (forwarder : UiEventForwarder) (file : FileRecord) : UiEventForwarder :=
  let extension := rawExtension file.name
  let counted :=
    if hasAsciiUppercase extension then
      forwarder.extensionTotals.set (toAsciiLowercase extension)
        (((forwarder.extensionTotals.find? (toAsciiLowercase extension)).getD {}).addFile file)
    else
      match forwarder.extensionTotals.find? extension with
      | some totals => forwarder.extensionTotals.set extension (totals.addFile file)
      | none => forwarder.extensionTotals.set extension ⟨file.sizeBytes, 1⟩
  { forwarder with extensionTotals := counted }

def flushDirectoryBatch (forwarder : UiEventForwarder) : UiEventForwarder :=
  if forwarder.pendingDirectories.isEmpty then forwarder
  else { forwarder with
    pendingDirectories := []
    delivered := forwarder.delivered ++
      if forwarder.hasCallback then [.directoryBatch forwarder.pendingDirectories] else [] }

/-- A name with a NUL character has no C string. -/
def pendingLiveDirectory (directory : DirectoryRecord) : PendingLiveDirectory where
  id := directory.id.val
  parentId := (directory.parentDirectoryId.map DirectoryId.val).getD 0
  hasParent := directory.parentDirectoryId.isSome
  name := if directory.name.toList.contains '\x00' then "" else directory.name

def forwardDirectory (clock : ForwardClock) (forwarder : UiEventForwarder)
    (directory : DirectoryRecord) : UiEventForwarder :=
  let pending := { forwarder with
    directoryPaths :=
      if forwarder.liveCatalogEvents < uiLiveCatalogEventLimit then
        forwarder.directoryPaths.set directory.id directory.fullPath
      else forwarder.directoryPaths
    pendingDirectories := forwarder.pendingDirectories ++ [pendingLiveDirectory directory] }
  if directoryBatchSize ≤ pending.pendingDirectories.length || clock.latencyDue then
    pending.flushDirectoryBatch
  else pending

def shouldForwardProgress (clock : ForwardClock) (forwarder : UiEventForwarder)
    (progress : ScanProgress) : Bool :=
  let lastItems := forwarder.lastProgressItems.getD 0
  let itemDelta := progress.completedItems - min progress.completedItems lastItems
  let isComplete := 0 < progress.totalItems && progress.totalItems ≤ progress.completedItems
  forwarder.lastProgressItems.isNone || isComplete || uiProgressMinItemDelta ≤ itemDelta ||
    clock.intervalElapsed

def shouldForward (clock : ForwardClock) (forwarder : UiEventForwarder) :
    ScanEvent → Bool × UiEventForwarder
  | .directoryFound _ => (false, forwarder)
  | .fileFound _ =>
      if uiLiveCatalogEventLimit ≤ forwarder.liveCatalogEvents then (false, forwarder)
      else (true, { forwarder with liveCatalogEvents := forwarder.liveCatalogEvents + 1 })
  | .progress progress =>
      if forwarder.shouldForwardProgress clock progress then
        (true, { forwarder with lastProgressItems := some progress.completedItems })
      else (false, forwarder)
  | _ => (true, forwarder)

/-- The event as it is delivered: a file without a path takes the one under its
parent, where the parent was seen. -/
def nativeEvent (forwarder : UiEventForwarder) : ScanEvent → ScanEvent
  | .fileFound file =>
      if file.fullPath.isEmpty then
        match forwarder.directoryPaths.find? file.parentDirectoryId with
        | some parent => .fileFound { file with fullPath := joinPath parent file.name }
        | none => .fileFound file
      else .fileFound file
  | event => event

def deliver (clock : ForwardClock) (forwarder : UiEventForwarder) (event : ScanEvent) :
    UiEventForwarder :=
  if forwarder.hasCallback then
    let checked := forwarder.shouldForward clock event
    if checked.1 then
      { checked.2 with delivered := checked.2.delivered ++ [.event (checked.2.nativeEvent event)] }
    else checked.2
  else forwarder

def forward (clock : ForwardClock) (forwarder : UiEventForwarder) : ScanEvent → UiEventForwarder
  | .directoryFound directory => forwarder.forwardDirectory clock directory
  | .fileFound file => (forwarder.recordExtension file).deliver clock (.fileFound file)
  -- The directories are complete before the end of the scan is told.
  | .summary summary => forwarder.flushDirectoryBatch.deliver clock (.summary summary)
  | .completed => forwarder.flushDirectoryBatch.deliver clock .completed
  | .cancelled => forwarder.flushDirectoryBatch.deliver clock .cancelled
  | .failed message => forwarder.flushDirectoryBatch.deliver clock (.failed message)
  | event => forwarder.deliver clock event

/-- Forwards events one after the other, with what the clock says at each. -/
def forwardAll (forwarder : UiEventForwarder) (events : List (ForwardClock × ScanEvent)) :
    UiEventForwarder :=
  events.foldl (fun forwarder timed ↦ forwarder.forward timed.1 timed.2) forwarder

end UiEventForwarder

end WinBlaze
