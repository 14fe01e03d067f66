import Mathlib.Data.UInt
import Mathlib.Data.List.Nodup
import Mathlib.Data.List.TakeWhile
import WinBlaze.Lib.KeyedArena
import WinBlaze.Lib.KeyOrder

/-!
# Catalog records

The records a scan produces and an index stores, the path conventions that
connect a file to its directory, and the comparison of two file lists by id.
-/

namespace WinBlaze

structure FileId where
  val : UInt64
  deriving DecidableEq, Repr, Inhabited

structure DirectoryId where
  val : UInt64
  deriving DecidableEq, Repr, Inhabited

structure VolumeId where
  val : UInt64
  deriving DecidableEq, Repr, Inhabited

theorem FileId.val_injective : Function.Injective FileId.val := by
  rintro ⟨a⟩ ⟨b⟩ h
  exact congrArg FileId.mk h

theorem DirectoryId.val_injective : Function.Injective DirectoryId.val := by
  rintro ⟨a⟩ ⟨b⟩ h
  exact congrArg DirectoryId.mk h

inductive FileSystemKind
  | ntfs | refs | fat32 | exFat | unknown
  deriving DecidableEq, Repr, Inhabited

structure FileAttributes where
  bits : UInt32
  deriving DecidableEq, Repr, Inhabited

namespace FileAttributes

def directory : FileAttributes := ⟨0x10⟩

def archive : FileAttributes := ⟨0x20⟩

end FileAttributes

/-- The three optional times of a file. The source packs them behind one
presence byte; a value is observable only through the three getters. -/
structure FileTimestamps where
  created : Option Int64
  modified : Option Int64
  accessed : Option Int64
  deriving DecidableEq, Repr, Inhabited

structure FileRecord where
  id : FileId
  parentDirectoryId : DirectoryId
  name : String
  /-- Empty when the path is to be derived from the parent directory. -/
  fullPath : String
  sizeBytes : UInt64
  allocationBytes : UInt64
  attributes : FileAttributes
  timestamps : FileTimestamps
  deriving DecidableEq, Repr, Inhabited

structure DirectoryRecord where
  id : DirectoryId
  parentDirectoryId : Option DirectoryId
  name : String
  fullPath : String
  directBytes : UInt64 := 0
  totalBytes : UInt64 := 0
  directEntries : UInt64 := 0
  totalEntries : UInt64 := 0
  deriving DecidableEq, Repr, Inhabited

structure VolumeRecord where
  id : VolumeId
  mountPoint : String
  label : Option String
  fileSystem : FileSystemKind
  totalBytes : UInt64
  freeBytes : UInt64
  rootDirectoryId : DirectoryId
  deriving DecidableEq, Repr, Inhabited

inductive ScanState
  | idle | initializing | scanning | indexing | completed | failed | cancelled
  deriving DecidableEq, Repr, Inhabited

structure ScanProgress where
  completedItems : UInt64
  totalItems : UInt64
  completedBytes : UInt64
  totalBytes : UInt64
  deriving DecidableEq, Repr, Inhabited

structure ScanSession where
  sessionId : UInt64
  volumeId : VolumeId
  rootPath : String
  state : ScanState
  progress : ScanProgress
  deriving DecidableEq, Repr, Inhabited

structure ScanSummary where
  filesSeen : UInt64
  directoriesSeen : UInt64
  totalSizeBytes : UInt64
  totalAllocationBytes : UInt64
  deriving DecidableEq, Repr, Inhabited

structure FileLineageRecord where
  fileId : FileId
  previousParentDirectoryId : DirectoryId
  currentParentDirectoryId : DirectoryId
  previousFullPath : String
  currentFullPath : String
  renamed : Bool
  moved : Bool
  deriving DecidableEq, Repr, Inhabited

inductive FileChangeKind
  | added | removed | modified | renamed | moved
  deriving DecidableEq, Repr, Inhabited

structure FileChangeRecord where
  fileId : FileId
  kind : FileChangeKind
  previousFullPath : Option String
  currentFullPath : Option String
  deriving DecidableEq, Repr, Inhabited

structure FileChangeSet where
  changes : List FileChangeRecord
  deriving DecidableEq, Repr, Inhabited

/-- `usize::MAX`. -/
def usizeMax : ℕ := 2 ^ 64 - 1

/-! ## Texts -/

/-- `char::is_whitespace`. -/
def isWhitespace (c : Char) : Bool :=
  (9 ≤ c.toNat && c.toNat ≤ 13) || c.toNat = 0x20 || c.toNat = 0x85 || c.toNat = 0xA0 ||
    c.toNat = 0x1680 || (0x2000 ≤ c.toNat && c.toNat ≤ 0x200A) || c.toNat = 0x2028 ||
    c.toNat = 0x2029 || c.toNat = 0x202F || c.toNat = 0x205F || c.toNat = 0x3000

def trim (text : List Char) : List Char :=
  ((text.dropWhile isWhitespace).reverse.dropWhile isWhitespace).reverse

/-- The parts of a text around the last `c`. -/
def rsplitOnce (c : Char) (text : List Char) : Option (List Char × List Char) :=
  match text.reverse.dropWhile (fun d ↦ d ≠ c) with
  | [] => none
  | _ :: stem => some (stem.reverse, (text.reverse.takeWhile (fun d ↦ d ≠ c)).reverse)

theorem rsplitOnce_eq_some_iff {c : Char} {text front back : List Char} :
    rsplitOnce c text = some (front, back) ↔ text = front ++ c :: back ∧ c ∉ back := by
  unfold rsplitOnce
  constructor
  · intro h
    have hcut : text.reverse.takeWhile (fun d ↦ decide (d ≠ c)) ++
        text.reverse.dropWhile (fun d ↦ decide (d ≠ c)) = text.reverse :=
      List.takeWhile_append_dropWhile
    have hback : c ∉ text.reverse.takeWhile (fun d ↦ decide (d ≠ c)) := by
      intro hmem
      have hne := List.mem_takeWhile_imp hmem
      simp at hne
    split at h
    case h_1 => cases h
    case h_2 d rest hrest =>
      obtain ⟨rfl, rfl⟩ := Prod.mk.inj (Option.some.inj h)
      have hd : d = c := by
        have hhead := List.head?_dropWhile_not (fun d ↦ decide (d ≠ c)) text.reverse
        rw [hrest] at hhead
        simpa using hhead
      rw [hrest, hd] at hcut
      refine ⟨?_, by rwa [List.mem_reverse]⟩
      have hreverse := congrArg List.reverse hcut
      simpa using hreverse.symm
  · rintro ⟨rfl, hback⟩
    have hall : ∀ d ∈ back.reverse, decide (d ≠ c) = true := fun d hd ↦
      decide_eq_true fun heq ↦ hback (heq ▸ List.mem_reverse.mp hd)
    have hstop : decide (c ≠ c) = false := decide_eq_false fun h ↦ h rfl
    rw [List.reverse_append, List.reverse_cons, List.append_assoc, List.singleton_append,
      List.dropWhile_append_of_pos hall, List.takeWhile_append_of_pos hall,
      List.dropWhile_cons_of_neg (by simp), List.takeWhile_cons_of_neg (by simp)]
    simp

/-! ## Paths -/

def endsWithBackslash (path : String) : Bool := path.toList.getLast? = some '\\'

/-- Joins a parent directory path and child name with a single backslash. -/
def joinPath (parent name : String) : String :=
  let separator := !parent.isEmpty && !endsWithBackslash parent
  parent ++ (if separator then "\\" else "") ++ name

/-- Directory records by id, in the order their ids first arrived. -/
abbrev DirectoryRecords := KeyedArena DirectoryRecord.id

/-- Parent path and name, or the bare name under an unknown parent. -/
def pathFromParent (directories : DirectoryRecords) (file : FileRecord) : String :=
  match directories.get? file.parentDirectoryId with
  | some parent => joinPath parent.fullPath file.name
  | none => file.name

/-- Resolves a file's full path: the stored path when present, otherwise
derived from the parent directory. -/
def deriveFilePath (directories : DirectoryRecords) (file : FileRecord) : String :=
  if !file.fullPath.isEmpty then file.fullPath else pathFromParent directories file

/-! ## Comparing two file lists -/

def detectFileLineageChange (previous current : FileRecord) : Option FileLineageRecord :=
  if previous.id ≠ current.id then none
  else
    let renamed : Bool := previous.name ≠ current.name
    let moved : Bool := previous.parentDirectoryId ≠ current.parentDirectoryId ∨
      previous.fullPath ≠ current.fullPath
    if !renamed && !moved then none
    else some {
      fileId := current.id
      previousParentDirectoryId := previous.parentDirectoryId
      currentParentDirectoryId := current.parentDirectoryId
      previousFullPath := previous.fullPath
      currentFullPath := current.fullPath
      renamed := renamed
      moved := moved }

/-- The fields `diffFileRecords` compares; the full path is not one of them. -/
def FileRecord.unchangedFrom (previous current : FileRecord) : Prop :=
  previous.name = current.name ∧
    previous.parentDirectoryId = current.parentDirectoryId ∧
      previous.sizeBytes = current.sizeBytes ∧
        previous.allocationBytes = current.allocationBytes ∧
          previous.attributes = current.attributes ∧
            previous.timestamps = current.timestamps

instance (previous current : FileRecord) : Decidable (previous.unchangedFrom current) :=
  inferInstanceAs (Decidable (_ ∧ _))

def changeKind (previous current : FileRecord) : FileChangeKind :=
  match detectFileLineageChange previous current with
  | some lineage =>
      if lineage.renamed && lineage.moved then .moved
      else if lineage.renamed then .renamed
      else if lineage.moved then .moved
      else .modified
  | none => .modified

/-- The change a current record makes against the record with its id. -/
def currentChange (previousById : KeyedArena FileRecord.id) (current : FileRecord) :
    Option FileChangeRecord :=
  match previousById.get? current.id with
  | none => some {
      fileId := current.id
      kind := .added
      previousFullPath := none
      currentFullPath := some current.fullPath }
  | some previous =>
      if previous.unchangedFrom current then none
      else some {
        fileId := current.id
        kind := changeKind previous current
        previousFullPath := some previous.fullPath
        currentFullPath := some current.fullPath }

def removedChange (currentById : KeyedArena FileRecord.id) (previous : FileRecord) :
    Option FileChangeRecord :=
  if (currentById.get? previous.id).isSome then none
  else some {
    fileId := previous.id
    kind := .removed
    previousFullPath := some previous.fullPath
    currentFullPath := none }

/-- Whether neighbouring records have strictly increasing ids. -/
def strictlyIncreasingIds (files : List FileRecord) : Bool :=
  (files.zip files.tail).all (fun pair ↦ pair.1.id.val < pair.2.id.val)

def diffFileRecords (previous current : List FileRecord) : FileChangeSet :=
  -- Equal snapshots with unique ids need no lookup tables.
  if previous = current ∧ strictlyIncreasingIds previous = true then ⟨[]⟩
  else
    let previousById : KeyedArena FileRecord.id := KeyedArena.ofList previous
    let currentById : KeyedArena FileRecord.id := KeyedArena.ofList current
    ⟨current.filterMap (currentChange previousById) ++
      previous.filterMap (removedChange currentById)⟩

end WinBlaze
