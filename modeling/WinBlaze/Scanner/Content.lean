import Mathlib.Data.List.Destutter
import Mathlib.Data.List.Sort
import WinBlaze.Lib.IdMap
import WinBlaze.Lib.KeyOrder
import WinBlaze.Lib.OnlineClasses
import WinBlaze.Lib.Saturating

/-!
# Duplicate files

Files of one size are compared byte by byte with the first file of each group
found so far. A digest, when one is asked for, saves comparisons. The files stay
as they are during the search, so what is read of a file at the end of a
comparison is what was read at its start.
-/

namespace WinBlaze

open OnlineClasses

inductive HashAlgorithm
  | none
  | sha256
  | md5
  | sha1
  | sha512
  deriving DecidableEq, Repr

def HashAlgorithm.provider : HashAlgorithm → Option String
  | .none => .none
  | .sha256 => some "SHA256"
  | .md5 => some "MD5"
  | .sha1 => some "SHA1"
  | .sha512 => some "SHA512"

structure FileDetails where
  allocationBytes : UInt64
  identity : UInt64 × BitVec 128
  links : UInt32
  deriving DecidableEq, Repr

/-- What is found at a path: the metadata, the contents, and what asking for the
details and opening the file give. -/
structure LocalFile where
  attributes : UInt32
  isFile : Bool
  isSymlink : Bool
  len : UInt64
  bytes : List UInt8
  length_bytes : bytes.length = len.toNat
  details : Except String FileDetails
  opened : Except String Unit

/-- What `symlink_metadata` finds at each path. -/
abbrev LocalFiles (P : Type*) := P → Except String LocalFile

/-- The attributes offline, recall on open and recall on data access. -/
def offlineContent (file : LocalFile) : Bool :=
  file.attributes &&& (0x1000 ||| 0x40000 ||| 0x400000) != 0

/-- The files that `open_local_file` does not open. -/
def LocalFile.rejected (file : LocalFile) : Bool :=
  !file.isFile || file.attributes &&& (0x400 ||| 0x1000 ||| 0x40000 ||| 0x400000) != 0

structure DuplicateReport (P : Type*) [DecidableEq P] where
  groups : List (List P) := []
  errors : List (P × String) := []
  reclaimableBytes : UInt64 := 0
  hashes : IdMap P String := .empty

section

variable {P : Type*} (files : LocalFiles P)

def openLocalFile (path : P) : Except String LocalFile := do
  if (← files path).rejected then throw "Skipped offline/cloud or reparse content"
  let file ← files path
  file.opened
  if file.rejected then throw "Content became offline/cloud or reparse"
  pure file

/-! ## Comparison -/

/-- The next bytes of a file, and what is left of it. -/
def readExact (bytes : List UInt8) (size : ℕ) : Except String (List UInt8 × List UInt8) :=
  if bytes.length < size then throw "failed to fill whole buffer"
  else pure (bytes.take size, bytes.drop size)

/-- The loop over blocks of at most `capacity` bytes. -/
def compareBlocks (capacity : ℕ) (left right : List UInt8) (remaining : ℕ) : Except String Bool :=
  if _h : min remaining capacity = 0 then pure true
  else do
    let a ← readExact left (min remaining capacity)
    let b ← readExact right (min remaining capacity)
    if a.1 ≠ b.1 then pure false
    else compareBlocks capacity a.2 b.2 (remaining - min remaining capacity)
  termination_by remaining
  decreasing_by omega

def equalContents (left right : P) (expected : UInt64) : Except String Bool := do
  let left ← openLocalFile files left
  let right ← openLocalFile files right
  if left.len ≠ expected ∨ right.len ≠ expected then
    throw "File changed during duplicate detection"
  compareBlocks (min expected.toNat (64 * 1024)) left.bytes right.bytes expected.toNat

/-- The digest of the contents of a file, by the provider's function. -/
def fileDigest (digest : String → List UInt8 → String) (path : P) (provider : String) :
    Except String String := do
  let found ← files path
  if !found.isFile || found.isSymlink || offlineContent found then
    throw "Skipped offline/cloud or reparse content"
  let input ← openLocalFile files path
  pure (digest provider input.bytes)

end

/-! ## Files by size -/

section

variable {P : Type*} [LinearOrder P] (files : LocalFiles P)

/-- The state of the loop over the paths. -/
structure SizeTable (P : Type*) where
  errors : List (P × String) := []
  sizes : IdMap UInt64 (List P) := .empty
  identities : List (UInt64 × BitVec 128) := []

def SizeTable.fail (table : SizeTable P) (path : P) (error : String) : SizeTable P :=
  { table with errors := table.errors ++ [(path, error)] }

/-- A local file with its details: a multiply-linked one counts once. -/
def SizeTable.addFile (table : SizeTable P) (path : P) (len : UInt64) (details : FileDetails) :
    SizeTable P :=
  if details.links ≤ 1 then { table with sizes := table.sizes.push len path }
  else if details.identity ∈ table.identities then table
  else
    { table with
      sizes := table.sizes.push len path
      identities := table.identities ++ [details.identity] }

def SizeTable.add (table : SizeTable P) (path : P) : SizeTable P :=
  match files path with
  | .error error => table.fail path error
  | .ok found =>
      if offlineContent found then
        table.fail path "Skipped offline/cloud placeholder: content reads could download data"
      else if found.isFile && !found.isSymlink then
        match found.details with
        | .error error => table.fail path error
        | .ok details => table.addFile path found.len details
      else table

/-! ## Groups -/

variable (digest : String → List UInt8 → String) (algorithm : HashAlgorithm)

/-- The state of the loop over the candidates of one size. -/
structure GroupTable (P : Type*) [DecidableEq P] where
  groups : List (NonemptyList P)
  errors : List (P × String)
  hashes : IdMap P String

/-- The hashes with that of a candidate. -/
def hashCandidate (hashes : IdMap P String) (path : P) : Except String (IdMap P String) :=
  match algorithm.provider with
  | none => pure hashes
  | some provider => (fileDigest files digest path provider).map (hashes.set path)

/-- The loop over the groups from this index on. -/
def findDestination (hashes : IdMap P String) (size : UInt64) (path : P) :
    List (NonemptyList P) → ℕ → Except String (Option ℕ)
  | [], _ => pure none
  | group :: rest, index =>
      if algorithm ≠ .none ∧ hashes.find? group.first ≠ hashes.find? path then
        findDestination hashes size path rest (index + 1)
      else
        match equalContents files group.first path size with
        | .ok true => pure (some index)
        | .ok false => findDestination hashes size path rest (index + 1)
        | .error error => throw error

def GroupTable.add (size : UInt64) (table : GroupTable P) (path : P) : GroupTable P :=
  match hashCandidate files digest algorithm table.hashes path with
  | .error error => { table with errors := table.errors ++ [(path, error)] }
  | .ok hashes =>
      match findDestination files algorithm hashes size path table.groups 0 with
      | .error error => { table with errors := table.errors ++ [(path, error)], hashes := hashes }
      | .ok destination =>
          { table with groups := place table.groups path destination, hashes := hashes }

/-- `sort` and `dedup`. -/
def sortedCandidates (candidates : List P) : List P :=
  (candidates.insertionSort (· ≤ ·)).destutter (· ≠ ·)

/-- The bytes that all files of a group but one take. -/
def reclaimed (size : UInt64) (group : List P) : UInt64 :=
  .ofNat (min (size.toNat * (group.length - 1)) Saturating.maxValue)

def DuplicateReport.addSize (report : DuplicateReport P) (candidates : UInt64 × List P) :
    DuplicateReport P :=
  if candidates.2.length < 2 then report
  else
    let table := (sortedCandidates candidates.2).foldl
      (GroupTable.add files digest algorithm candidates.1)
      { groups := [], errors := report.errors, hashes := report.hashes }
    let groups := (table.groups.map NonemptyList.toList).filter (fun group ↦ 1 < group.length)
    { groups := report.groups ++ groups
      errors := table.errors
      reclaimableBytes := groups.foldl
        (fun bytes group ↦ Saturating.satAdd bytes (reclaimed candidates.1 group))
        report.reclaimableBytes
      hashes := table.hashes }

def findDuplicatesWithAlgorithm (paths : List P) : DuplicateReport P :=
  let table := paths.foldl (SizeTable.add files) {}
  (KeyOrder.sortByKey (fun candidates ↦ candidates.1.toNat) table.sizes.records).foldl
    (DuplicateReport.addSize files digest algorithm) { errors := table.errors }

end

end WinBlaze
