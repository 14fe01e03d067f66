import WinBlaze.Index.Tree

/-!
# Combining catalogs

Several trees become one beneath a synthetic root. Directories, files and volumes
are numbered anew, in the order of the catalogs.
-/

namespace WinBlaze

structure FileExportMetadata where
  owner : Option String
  volumeIdentity : Option String
  fileIdentity : Option String
  linkCount : Option UInt32
  deriving DecidableEq, Repr

/-- A tree with the export metadata of its files. -/
structure TreeCatalog where
  tree : TreeIndex
  exportMetadata : IdMap UInt64 FileExportMetadata := .empty

namespace TreeIndex

/-- `root`: the root directory and its totals. -/
def rootEntry (tree : TreeIndex) : Option (DirectoryRecord × DirRollup) :=
  tree.root.bind fun index ↦ tree.directories[index]?.bind fun directory ↦
    tree.nodes[index]?.map fun node ↦ (directory, node.rollup)

def directoryFullPath (tree : TreeIndex) (directoryId : UInt64) : Option String :=
  (tree.dirIndexById.get directoryId).bind fun index ↦
    tree.directories[index]?.map DirectoryRecord.fullPath

def fileDisplayPath (tree : TreeIndex) (file : FileRecord) : String :=
  if file.fullPath ≠ "" then file.fullPath
  else
    match tree.directoryFullPath file.parentDirectoryId.val with
    | some parent => joinPath parent file.name
    | none => file.name

end TreeIndex

namespace MultipleRoots

def rootPath : String := "WinBlaze:\\Multiple roots"

inductive CombineError
  | invalidInput (message : String)
  | invalidData (message : String)
  deriving DecidableEq, Repr

/-! ## Disjoint roots -/

/-- `trim_end_matches` of the backslash. -/
def trimEndBackslashes (path : String) : String :=
  String.ofList (path.toList.reverse.dropWhile (· = '\\')).reverse

def startsWith (path start : String) : Bool := start.toList.isPrefixOf path.toList

def overlaps (path prior : String) : Bool :=
  prior = path || startsWith prior (path ++ "\\") || startsWith path (prior ++ "\\")

/-- The roots in lower case, when none of them is in another. -/
def checkRoots (toLowercase : String → String) (scans : List TreeCatalog) :
    Except CombineError (List String) :=
  scans.foldlM (fun roots scan ↦
    match scan.tree.rootEntry with
    | none => .error (.invalidInput "Empty scan root")
    | some (root, _) =>
        let path := toLowercase (trimEndBackslashes root.fullPath)
        if path = toLowercase rootPath || roots.any (overlaps path) then
          .error (.invalidInput "Duplicate or overlapping scan roots")
        else .ok (roots ++ [path])) []

/-! ## Numbering -/

structure CombineState where
  transaction : BufferedIndexTransaction := {}
  supplemental : List (UInt64 × FileExportMetadata) := []
  nextDirectory : UInt64 := 1
  nextFile : UInt64 := 1
  nextVolume : UInt64 := 1

abbrev DirectoryNumbers := IdMap DirectoryId DirectoryId

def multipleRoots : DirectoryRecord where
  id := ⟨0⟩
  parentDirectoryId := none
  name := "Multiple roots"
  fullPath := rootPath

/-- The numbers of the directories from `next` on, and the number behind them. -/
def assignNumbers (directories : List DirectoryRecord) (next : UInt64) : DirectoryNumbers × UInt64 :=
  directories.foldl (fun assigned directory ↦
    (assigned.1.set directory.id ⟨assigned.2⟩, assigned.2 + 1)) (.empty, next)

/-- A volume whose root directory is unknown belongs to the root of its catalog. -/
def addVolume (ids : DirectoryNumbers) (sourceRoot : DirectoryId) (state : CombineState)
    (volume : VolumeRecord) : CombineState :=
  { state with
    nextVolume := state.nextVolume + 1
    transaction := state.transaction.insertVolume { volume with
      id := ⟨state.nextVolume⟩
      rootDirectoryId := (ids.find? volume.rootDirectoryId).getD sourceRoot } }

/-- A directory without a known parent goes beneath the synthetic root. -/
def combinedDirectory (ids : DirectoryNumbers) (directory : DirectoryRecord) : DirectoryRecord :=
  { directory with
    name := if directory.parentDirectoryId.isNone then directory.fullPath else directory.name
    id := (ids.find? directory.id).getD ⟨0⟩
    parentDirectoryId := some ((directory.parentDirectoryId.bind ids.find?).getD ⟨0⟩) }

def addFile (metadata : TreeCatalog → FileRecord → FileRecord) (scan : TreeCatalog)
    (ids : DirectoryNumbers) (state : CombineState) (file : FileRecord) :
    Except CombineError CombineState :=
  let file := metadata scan file
  let supplemental :=
    match scan.exportMetadata.find? file.id.val with
    | some value => state.supplemental ++ [(state.nextFile, value)]
    | none => state.supplemental
  match ids.find? file.parentDirectoryId with
  | none => .error (.invalidData "Missing file parent")
  | some parent => .ok { state with
      supplemental := supplemental
      nextFile := state.nextFile + 1
      transaction := state.transaction.insertFile
        { file with id := ⟨state.nextFile⟩, parentDirectoryId := parent } }

/-- The root of a catalog under its new number. All roots have been checked. -/
def sourceRoot (ids : DirectoryNumbers) (scan : TreeCatalog) : DirectoryId :=
  (scan.tree.rootEntry.bind fun entry ↦ ids.find? entry.1.id).getD ⟨0⟩

def addScan (metadata : TreeCatalog → FileRecord → FileRecord) (state : CombineState)
    (scan : TreeCatalog) : Except CombineError CombineState :=
  let assigned := assignNumbers scan.tree.directories state.nextDirectory
  let state := { state with nextDirectory := assigned.2 }
  let state := scan.tree.volumes.foldl (addVolume assigned.1 (sourceRoot assigned.1 scan)) state
  let state := { state with
    transaction := scan.tree.directories.foldl (fun transaction directory ↦
      transaction.insertDirectory (combinedDirectory assigned.1 directory)) state.transaction }
  scan.tree.files.foldlM (addFile metadata scan assigned.1) state

/-! ## Combining -/

def combinedState (metadata : TreeCatalog → FileRecord → FileRecord) (scans : List TreeCatalog) :
    Except CombineError CombineState :=
  scans.foldlM (addScan metadata)
    { transaction := BufferedIndexTransaction.insertDirectory {} multipleRoots }

/-- `combine_with`; no tree when building it takes more than `fuel` steps. -/
def combineWith (fuel : ℕ) (toLowercase : String → String)
    (metadata : TreeCatalog → FileRecord → FileRecord) (scans : List TreeCatalog) :
    Except CombineError (Option TreeCatalog) :=
  if scans.isEmpty then .error (.invalidInput "No scan roots")
  else
    (checkRoots toLowercase scans).bind fun _ ↦
      (combinedState metadata scans).map fun state ↦
        (TreeIndex.build fuel state.transaction).map fun tree ↦
          { tree := tree
            exportMetadata := state.supplemental.foldl
              (fun metadata entry ↦ metadata.set entry.1 entry.2) .empty }

def combine (fuel : ℕ) (toLowercase : String → String) (scans : List TreeCatalog) :
    Except CombineError (Option TreeCatalog) :=
  combineWith fuel toLowercase (fun _ file ↦ file) scans

end MultipleRoots

end WinBlaze
