import Mathlib
import WinBlaze.Lib.Overlays

/-!
# Installing a portable update

The files of a staging directory are copied over an installation. Every system call
may fail; a copy is tried again a few times, and a failed one may leave its target
torn. An update that failed can be run again.
-/

set_option mvcgen.warning false

namespace WinBlaze

namespace Updater

open Std.Do Overlay

/-! ## Files -/

/-- The names on the way to a file. -/
abbrev Path := List String

inductive Node
  | directory
  | file (content : List UInt8)
  deriving DecidableEq, Repr

def Node.isDirectory : Node → Bool
  | directory => true
  | file _ => false

/-- One can be written over the other. -/
def SameKind (node other : Node) : Prop := node.isDirectory = other.isDirectory

theorem SameKind.refl (node : Node) : SameKind node node := rfl

abbrev Files := Path → Option Node

/-- What the enumeration of a directory yields, one entry after the other. A link is
what `fs::copy` reads through it. -/
inductive Folder
  | empty
  | file (name : String) (content : List UInt8) (rest : Folder)
  | folder (name : String) (inner rest : Folder)
  deriving DecidableEq, Repr

namespace Folder

def names : Folder → List String
  | empty => []
  | file name _ rest | folder name _ rest => name :: rest.names

/-- No directory has a name twice. -/
def Distinct : Folder → Prop
  | empty => True
  | file name _ rest => name ∉ rest.names ∧ rest.Distinct
  | folder name inner rest => name ∉ rest.names ∧ inner.Distinct ∧ rest.Distinct

def fileCount : Folder → ℕ
  | empty => 0
  | file _ _ rest => 1 + rest.fileCount
  | folder _ inner rest => inner.fileCount + rest.fileCount

/-- The node at a path from here. -/
def find : Folder → Path → Option Node
  | _, [] => some .directory
  | empty, _ :: _ => none
  | file found content rest, name :: path =>
      if name = found then if path = [] then some (.file content) else none
      else rest.find (name :: path)
  | folder found inner rest, name :: path =>
      if name = found then inner.find path else rest.find (name :: path)

end Folder

/-! ## System calls -/

/-- How a system call ends. A copy that fails may leave some of the file, and a directory
may be created in part. -/
inductive Outcome
  | done
  | failed (error : UInt32) (left : Option (List UInt8)) (created : ℕ)
  deriving DecidableEq, Repr

/-- Calls behind the given outcomes succeed. -/
structure Machine where
  files : Files
  outcomes : List Outcome

/-- An operation that returns an error leaves what it did until then. -/
abbrev Update := ExceptT UInt32 (StateM Machine)

/-- `ERROR_ACCESS_DENIED`. -/
def accessDenied : UInt32 := 5

/-- `ERROR_ALREADY_EXISTS`. -/
def alreadyExists : UInt32 := 183

def nextOutcome : Update Outcome := do
  let machine ← get
  set { machine with outcomes := machine.outcomes.tail }
  return machine.outcomes.headD .done

/-- A call that only reads the staging directory. -/
def readCall : Update Unit := do
  match ← nextOutcome with
  | .done => pure ()
  | .failed error _ _ => throw error

/-- The missing directories on a path. -/
def makeDirectories (path : Path) (files : Files) : Files := fun place ↦
  if place <+: path ∧ files place = none then some .directory else files place

/-- A file is in the way. -/
def isBlocked (path : Path) (files : Files) : Bool :=
  path.inits.any fun place ↦ (files place).any fun node ↦ node ≠ .directory

def createDirAll (path : Path) : Update Unit := do
  match ← nextOutcome with
  | .failed error _ created =>
      modify fun machine ↦ { machine with files := makeDirectories (path.take created) machine.files }
      throw error
  | .done =>
      let machine ← get
      if isBlocked path machine.files then throw alreadyExists
      set { machine with files := makeDirectories path machine.files }

/-- A file can be written where its directory is and no directory is in its place. -/
def isWritable (path : Path) (files : Files) : Bool :=
  files path ≠ some .directory && files path.dropLast = some .directory

def writeFile (path : Path) (content : List UInt8) (machine : Machine) : Machine :=
  { machine with files := Function.update machine.files path (some (.file content)) }

/-- `fs::copy` of a file with this content. -/
def copyFile (content : List UInt8) (path : Path) : Update Unit := do
  let outcome ← nextOutcome
  let machine ← get
  if !isWritable path machine.files then throw accessDenied
  match outcome with
  | .done => set (writeFile path content machine)
  | .failed error left _ =>
      set (left.elim machine fun torn ↦ writeFile path torn machine)
      throw error

/-- The copy is tried once more for each of the retries. -/
def copyFileWithRetry (content : List UInt8) (path : Path) : ℕ → Update Unit
  | 0 => copyFile content path
  | retries + 1 => tryCatch (copyFile content path) fun _ ↦ copyFileWithRetry content path retries

/-- The loop over the entries. The enumeration can fail, also behind the last of them,
and so can the read of a type. -/
def copyEntries (retries : ℕ) : Folder → Path → Update ℕ
  | .empty, _ => do
      readCall
      return 0
  | .file name content rest, target => do
      readCall
      readCall
      copyFileWithRetry content (target ++ [name]) retries
      let copied ← copyEntries retries rest target
      return 1 + copied
  | .folder name inner rest, target => do
      readCall
      readCall
      createDirAll (target ++ [name])
      readCall
      let inside ← copyEntries retries inner (target ++ [name])
      let copied ← copyEntries retries rest target
      return inside + copied

/-- The number of files that were copied. -/
def copyTree (retries : ℕ) (source : Folder) (target : Path) : Update ℕ := do
  createDirAll target
  readCall
  copyEntries retries source target

/-! ## What an update installs -/

/-- The places an update writes, with what belongs there. -/
def installed (source : Folder) (target : Path) : Files := fun place ↦
  if place <+: target then some .directory
  else if target <+: place then source.find (place.drop target.length) else none

theorem installed_above {source : Folder} {target place : Path} (h : place <+: target) :
    installed source target place = some .directory := if_pos h

theorem not_append_prefix (target : Path) (name : String) (path : Path) :
    ¬ target ++ name :: path <+: target := fun h ↦ by simpa using h.length_le

theorem installed_append (source : Folder) (target : Path) (name : String) (path : Path) :
    installed source target (target ++ name :: path) = source.find (name :: path) := by
  have hbelow : target <+: target ++ name :: path := List.prefix_append _ _
  simp only [installed, not_append_prefix, if_false, hbelow, if_true, List.drop_left]

theorem installed_of_not {source : Folder} {target place : Path} (h : ¬ place <+: target)
    (hbelow : ¬ target <+: place) : installed source target place = none := by
  simp only [installed, h, hbelow, if_false]

/-- A place is on the way to the target, below it or elsewhere. -/
theorem place_cases (target place : Path) : place <+: target ∨
    (∃ name path, place = target ++ name :: path) ∨ (¬ place <+: target ∧ ¬ target <+: place) := by
  by_cases habove : place <+: target
  · exact Or.inl habove
  · refine Or.inr ?_
    by_cases hbelow : target <+: place
    · obtain ⟨rest, rfl⟩ := hbelow
      cases rest with
      | nil => simp at habove
      | cons name path => exact Or.inl ⟨name, path, rfl⟩
    · exact Or.inr ⟨habove, hbelow⟩

theorem Folder.find_of_notMem {source : Folder} {name : String} (h : name ∉ source.names)
    (path : Path) : source.find (name :: path) = none := by
  induction source with
  | empty => rfl
  | file found content rest ih =>
      obtain ⟨hname, hrest⟩ : name ≠ found ∧ name ∉ rest.names := by simpa [names] using h
      simp only [find, hname, if_false, ih hrest]
  | folder found inner rest _ ih =>
      obtain ⟨hname, hrest⟩ : name ≠ found ∧ name ∉ rest.names := by simpa [names] using h
      simp only [find, hname, if_false, ih hrest]

theorem Folder.find_nil (source : Folder) : source.find [] = some .directory := by
  cases source <;> rfl

theorem installed_eq_some {source : Folder} {target place : Path} {node : Node}
    (h : installed source target place = some node) : (place <+: target ∧ node = .directory) ∨
      ∃ name path, place = target ++ name :: path ∧ source.find (name :: path) = some node := by
  rcases place_cases target place with hplace | ⟨name, path, rfl⟩ | ⟨habove, hbelow⟩
  · rw [installed_above hplace] at h
    exact Or.inl ⟨hplace, (Option.some.inj h).symm⟩
  · rw [installed_append] at h
    exact Or.inr ⟨name, path, rfl, h⟩
  · simp [installed_of_not habove hbelow] at h

theorem part_installed {source other : Folder} {target : Path}
    (h : ∀ name path node, source.find (name :: path) = some node →
      other.find (name :: path) = some node) :
    Part (installed source target) (installed other target) := by
  intro place node hnode
  rcases installed_eq_some hnode with ⟨hplace, rfl⟩ | ⟨name, path, rfl, hfind⟩
  · exact installed_above hplace
  · rw [installed_append]
    exact h name path node hfind

/-- A single file. -/
def single (path : Path) (content : List UInt8) : Files :=
  Function.update (fun _ ↦ none) path (some (.file content))

theorem overlay_single (path : Path) (content : List UInt8) (files : Files) :
    overlay (single path content) files = Function.update files path (some (.file content)) := by
  funext place
  by_cases hplace : place = path
  · simp [overlay, single, hplace]
  · simp [overlay, single, hplace]

section Entries

variable {name : String} {content : List UInt8} {inner rest : Folder} {target : Path}

theorem part_file_rest (hname : name ∉ rest.names) :
    Part (installed rest target) (installed (.file name content rest) target) := by
  refine part_installed fun found path node hfind ↦ ?_
  have hne : found ≠ name := by
    rintro rfl
    simp [Folder.find_of_notMem hname] at hfind
  simpa only [Folder.find, hne, if_false] using hfind

theorem part_file_single :
    Part (single (target ++ [name]) content) (installed (.file name content rest) target) := by
  intro place node hnode
  by_cases hplace : place = target ++ [name]
  · rw [hplace, installed_append]
    simpa [single, hplace, Folder.find] using hnode
  · simp [single, hplace] at hnode

theorem cover_file {place : Path} {node : Node}
    (h : installed (.file name content rest) target place = some node) :
    single (target ++ [name]) content place = some node ∨ installed rest target place = some node := by
  rcases installed_eq_some h with ⟨hplace, rfl⟩ | ⟨found, path, rfl, hfind⟩
  · exact Or.inr (installed_above hplace)
  · by_cases hfound : found = name
    · subst hfound
      cases path with
      | nil => exact Or.inl (by simpa [single, Folder.find] using hfind)
      | cons next path => simp [Folder.find] at hfind
    · rw [installed_append]
      exact Or.inr (by simpa only [Folder.find, hfound, if_false] using hfind)

theorem part_folder_rest (hname : name ∉ rest.names) :
    Part (installed rest target) (installed (.folder name inner rest) target) := by
  refine part_installed fun found path node hfind ↦ ?_
  have hne : found ≠ name := by
    rintro rfl
    simp [Folder.find_of_notMem hname] at hfind
  simpa only [Folder.find, hne, if_false] using hfind

theorem part_folder_inner :
    Part (installed inner (target ++ [name])) (installed (.folder name inner rest) target) := by
  intro place node hnode
  rcases installed_eq_some hnode with ⟨hplace, rfl⟩ | ⟨found, path, rfl, hfind⟩
  · rcases List.prefix_concat_iff.mp (by simpa using hplace) with rfl | hplace
    · rw [installed_append]
      simp only [Folder.find, if_true, Folder.find_nil]
    · exact installed_above hplace
  · rw [List.append_assoc, List.singleton_append, installed_append]
    simpa only [Folder.find, if_true] using hfind

theorem cover_folder {place : Path} {node : Node}
    (h : installed (.folder name inner rest) target place = some node) :
    installed inner (target ++ [name]) place = some node ∨ installed rest target place = some node := by
  rcases installed_eq_some h with ⟨hplace, rfl⟩ | ⟨found, path, rfl, hfind⟩
  · exact Or.inr (installed_above hplace)
  · by_cases hfound : found = name
    · subst hfound
      refine Or.inl ?_
      simp only [Folder.find, if_true] at hfind
      cases path with
      | nil =>
          rw [installed_above (List.prefix_refl _), ← hfind, Folder.find_nil]
      | cons next path =>
          have hplace : target ++ found :: next :: path = (target ++ [found]) ++ next :: path := by simp
          rw [hplace, installed_append]
          exact hfind
    · rw [installed_append]
      exact Or.inr (by simpa only [Folder.find, hfound, if_false] using hfind)

/-- A file and then the entries behind it. -/
theorem overlay_file (hname : name ∉ rest.names) (files : Files) :
    overlay (installed rest target) (Function.update files (target ++ [name]) (some (.file content))) =
      overlay (installed (.file name content rest) target) files := by
  rw [← overlay_single]
  exact overlay_overlay_of_parts part_file_single (part_file_rest hname) (fun _ _ h ↦ cover_file h) files

/-- A directory and then the entries behind it. -/
theorem overlay_folder (hname : name ∉ rest.names) (files : Files) :
    overlay (installed rest target) (overlay (installed inner (target ++ [name])) files) =
      overlay (installed (.folder name inner rest) target) files :=
  overlay_overlay_of_parts part_folder_inner (part_folder_rest hname) (fun _ _ h ↦ cover_folder h) files

end Entries

/-- The way to a place is there. -/
def HasDirectory (files : Files) (target : Path) : Prop :=
  ∀ place, place <+: target → files place = some .directory

theorem makeDirectories_eq {files : Files} {path : Path} (h : isBlocked path files = false) :
    makeDirectories path files = overlay (installed .empty path) files := by
  funext place
  by_cases hplace : place <+: path
  · rw [overlay_of_some (installed_above hplace)]
    have hopen := List.any_eq_false.mp h place ((List.mem_inits _ _).mpr hplace)
    cases hnode : files place with
    | none => simp only [makeDirectories, hplace, hnode, and_self, if_true]
    | some node =>
        have hdirectory : node = .directory := by simpa [hnode] using hopen
        simp only [makeDirectories, hnode, hdirectory, reduceCtorEq, and_false, if_false]
  · have hnone : installed .empty path place = none := by
      rcases place_cases path place with h | ⟨name, rest, rfl⟩ | ⟨habove, hbelow⟩
      · exact (hplace h).elim
      · exact installed_append .empty path name rest
      · exact installed_of_not habove hbelow
    rw [overlay_of_none hnone]
    simp only [makeDirectories, hplace, false_and, if_false]

/-- Directories are created where the update needs them, and never over something. -/
theorem mixed_makeDirectories (broken : List Path) {layer : Files} {path : Path}
    (h : ∀ place, place <+: path → layer place = some .directory) (files : Files) :
    Mixed SameKind broken layer files (makeDirectories path files) := by
  intro place
  by_cases hmissing : place <+: path ∧ files place = none
  · exact Or.inr ⟨.directory, .directory, h place hmissing.1, if_pos hmissing, rfl, fun _ ↦ rfl⟩
  · exact Or.inl (if_neg hmissing)

/-! ## What the calls do -/

section Calls

variable (files : Files)

theorem nextOutcome_spec : ⦃fun machine ↦ ⌜machine.files = files⌝⦄ nextOutcome
    ⦃post⟨fun _ machine ↦ ⌜machine.files = files⌝, fun _ _ ↦ ⌜False⌝⟩⦄ := by
  mvcgen [nextOutcome]

theorem readCall_spec : ⦃fun machine ↦ ⌜machine.files = files⌝⦄ readCall
    ⦃post⟨fun _ machine ↦ ⌜machine.files = files⌝, fun _ machine ↦ ⌜machine.files = files⌝⟩⦄ := by
  mvcgen [readCall, nextOutcome_spec] <;> simp_all

theorem createDirAll_spec (path : Path) :
    ⦃fun machine ↦ ⌜machine.files = files⌝⦄ createDirAll path
    ⦃post⟨fun _ machine ↦ ⌜machine.files = overlay (installed .empty path) files⌝,
      fun _ machine ↦ ⌜machine.files = files ∨
        ∃ created, machine.files = makeDirectories (path.take created) files⌝⟩⦄ := by
  mvcgen [createDirAll, nextOutcome_spec] with simp_all
  case vc1.post.success.h_1 machine hfiles outcome error left created hfailed next hnext pair =>
    refine Or.inr ⟨created, ?_⟩
    simp only [pair, hnext]
  case vc3.post.success.h_2.isFalse hopen => exact makeDirectories_eq hopen

/-- Nothing has changed but a file that an attempt has torn. -/
def Torn (path : Path) (after : Files) : Prop :=
  ∀ place, after place = files place ∨ place = path ∧ ∃ torn, after place = some (.file torn)

variable {files} in
theorem Torn.writeFile {path : Path} {machine : Machine} (h : Torn files path machine.files)
    (content : List UInt8) : Torn files path (writeFile path content machine).files := by
  intro place
  by_cases hplace : place = path
  · exact Or.inr ⟨hplace, content, by simp [Updater.writeFile, hplace]⟩
  · simpa [Updater.writeFile, hplace] using h place

variable {files} in
theorem Torn.writeFile_eq {path : Path} {machine : Machine} (h : Torn files path machine.files)
    (content : List UInt8) :
    (Updater.writeFile path content machine).files = Function.update files path (some (.file content)) := by
  funext place
  by_cases hplace : place = path
  · simp [Updater.writeFile, hplace]
  · simpa [Updater.writeFile, hplace] using h place

theorem copyFile_keeps (content : List UInt8) (path : Path) :
    ⦃fun machine ↦ ⌜Torn files path machine.files⌝⦄ copyFile content path
    ⦃post⟨fun _ machine ↦ ⌜machine.files = Function.update files path (some (.file content))⌝,
      fun _ machine ↦ ⌜Torn files path machine.files⌝⟩⦄ := by
  mvcgen [copyFile, nextOutcome_spec]
  case vc1.post.success.isTrue machine htorn outcome next hnext rest hwritable => exact hnext ▸ htorn
  case vc2.post.success.isFalse.h_1 machine htorn outcome next hnext rest hwritable hdone =>
    exact (hnext ▸ htorn).writeFile_eq content
  case vc3.post.success.isFalse.h_2 machine htorn outcome next hnext rest hwritable error left created
      hfailed =>
    cases left with
    | none => exact hnext ▸ htorn
    | some torn => exact (hnext ▸ htorn).writeFile torn

theorem copyFileWithRetry_keeps (content : List UInt8) (path : Path) (retries : ℕ) :
    ⦃fun machine ↦ ⌜Torn files path machine.files⌝⦄ copyFileWithRetry content path retries
    ⦃post⟨fun _ machine ↦ ⌜machine.files = Function.update files path (some (.file content))⌝,
      fun _ machine ↦ ⌜Torn files path machine.files⌝⟩⦄ := by
  induction retries with
  | zero => exact copyFile_keeps files content path
  | succ retries ih =>
      mvcgen [copyFileWithRetry, copyFile_keeps, ih]
      exact id

theorem copyFileWithRetry_spec (content : List UInt8) (path : Path) (retries : ℕ) :
    ⦃fun machine ↦ ⌜machine.files = files⌝⦄ copyFileWithRetry content path retries
    ⦃post⟨fun _ machine ↦ ⌜machine.files = Function.update files path (some (.file content))⌝,
      fun _ machine ↦ ⌜Torn files path machine.files⌝⟩⦄ := by
  intro machine hfiles
  exact copyFileWithRetry_keeps files content path retries machine fun place ↦ Or.inl
    (congrFun hfiles place)

end Calls

/-! ## Copying -/

section Entries

variable {name : String} {inner rest : Folder} {target : Path} {files after : Files}

theorem HasDirectory.update (h : HasDirectory files target) (content : List UInt8) :
    HasDirectory (Function.update files (target ++ [name]) (some (.file content))) target := by
  intro place hplace
  have hne : place ≠ target ++ [name] := by
    rintro rfl
    exact not_append_prefix target name [] hplace
  rw [Function.update_of_ne hne, h place hplace]

theorem hasDirectory_overlay (source : Folder) (target : Path) (files : Files) :
    HasDirectory (overlay (installed source target) files) target := fun _ hplace ↦
  overlay_of_some (installed_above hplace)

theorem HasDirectory.parent (h : HasDirectory files (target ++ [name])) : HasDirectory files target :=
  fun place hplace ↦ h place (hplace.trans (List.prefix_append _ _))

theorem part_empty (source : Folder) (target : Path) :
    Part (installed .empty target) (installed source target) :=
  part_installed fun _ _ _ h ↦ by simp [Folder.find] at h

theorem HasDirectory.overlay_empty (h : HasDirectory files target) :
    overlay (installed .empty target) files = files := by
  funext place
  cases hplace : installed .empty target place with
  | none => exact overlay_of_none hplace
  | some node =>
      rw [overlay_of_some hplace]
      rcases installed_eq_some hplace with ⟨habove, rfl⟩ | ⟨found, path, rfl, hfind⟩
      · exact (h place habove).symm
      · simp [Folder.find] at hfind

/-- How the copy of a directory ends. -/
def Copied (source : Folder) (target : Path) (files after : Files) (copied : ℕ) : Prop :=
  copied = source.fileCount ∧ after = overlay (installed source target) files

/-- How it ends with an error. -/
def CopiedPartly (source : Folder) (target : Path) (files after : Files) : Prop :=
  ∃ broken : List Path, broken.length ≤ 1 ∧ Mixed SameKind broken (installed source target) files after

theorem CopiedPartly.refl (source : Folder) (target : Path) (files : Files) :
    CopiedPartly source target files files := ⟨[], Nat.zero_le 1, Mixed.refl _ _ _ _⟩

theorem copiedPartly_of_createDirAll {source : Folder} (h : after = files ∨
    ∃ created, after = makeDirectories (target.take created) files) :
    CopiedPartly source target files after := by
  rcases h with rfl | ⟨created, rfl⟩
  · exact CopiedPartly.refl _ _ _
  · refine ⟨[], Nat.zero_le 1, mixed_makeDirectories [] (fun place hplace ↦ ?_) files⟩
    exact installed_above (hplace.trans (List.take_prefix _ _))

theorem copiedPartly_of_torn {content : List UInt8} (h : Torn files (target ++ [name]) after) :
    CopiedPartly (.file name content rest) target files after := by
  refine ⟨[target ++ [name]], le_rfl, fun place ↦ ?_⟩
  rcases h place with h | ⟨rfl, torn, h⟩
  · exact Or.inl h
  · refine Or.inr ⟨.file content, .file torn, ?_, h, rfl, fun hbroken ↦ (hbroken List.mem_cons_self).elim⟩
    rw [installed_append]
    simp [Folder.find]

/-- The directory is created before its entries are copied. -/
theorem Copied.of_created {source : Folder} {copied : ℕ}
    (h : Copied source target (overlay (installed .empty target) files) after copied) :
    Copied source target files after copied :=
  ⟨h.1, h.2.trans ((part_empty source target).within files).overlay_eq⟩

theorem CopiedPartly.of_created {source : Folder}
    (h : CopiedPartly source target (overlay (installed .empty target) files) after) :
    CopiedPartly source target files after := by
  obtain ⟨broken, hfew, hmixed⟩ := h
  exact ⟨broken, hfew, hmixed.after_overlay SameKind.refl (part_empty source target) (Part.refl _)⟩

theorem Copied.file {content : List UInt8} {copied : ℕ} (hname : name ∉ rest.names)
    (h : Copied rest target (Function.update files (target ++ [name]) (some (.file content))) after copied) :
    Copied (.file name content rest) target files after (1 + copied) :=
  ⟨congrArg (1 + ·) h.1, h.2.trans (overlay_file hname files)⟩

theorem CopiedPartly.file {content : List UInt8} (hname : name ∉ rest.names)
    (h : CopiedPartly rest target (Function.update files (target ++ [name]) (some (.file content))) after) :
    CopiedPartly (.file name content rest) target files after := by
  obtain ⟨broken, hfew, hmixed⟩ := h
  rw [← overlay_single] at hmixed
  exact ⟨broken, hfew, hmixed.after_overlay SameKind.refl part_file_single (part_file_rest hname)⟩

theorem Copied.folder {inside copied : ℕ} {middle : Files} (hname : name ∉ rest.names)
    (hinner : Copied inner (target ++ [name]) files middle inside)
    (h : Copied rest target middle after copied) :
    Copied (.folder name inner rest) target files after (inside + copied) := by
  obtain ⟨rfl, rfl⟩ := hinner
  exact ⟨congrArg (inner.fileCount + ·) h.1, h.2.trans (overlay_folder hname files)⟩

theorem CopiedPartly.folder {inside : ℕ} {middle : Files} (hname : name ∉ rest.names)
    (hinner : Copied inner (target ++ [name]) files middle inside)
    (h : CopiedPartly rest target middle after) :
    CopiedPartly (.folder name inner rest) target files after := by
  obtain ⟨broken, hfew, hmixed⟩ := h
  obtain ⟨-, rfl⟩ := hinner
  exact ⟨broken, hfew, hmixed.after_overlay SameKind.refl part_folder_inner (part_folder_rest hname)⟩

theorem copiedPartly_inner (h : CopiedPartly inner (target ++ [name]) files after) :
    CopiedPartly (.folder name inner rest) target files after := by
  obtain ⟨broken, hfew, hmixed⟩ := h
  exact ⟨broken, hfew, hmixed.mono part_folder_inner⟩

end Entries

theorem copyEntries_spec (retries : ℕ) (source : Folder) (hdistinct : source.Distinct) (target : Path)
    (files : Files) (htarget : HasDirectory files target) :
    ⦃fun machine ↦ ⌜machine.files = files⌝⦄ copyEntries retries source target
    ⦃post⟨fun copied machine ↦ ⌜Copied source target files machine.files copied⌝,
      fun _ machine ↦ ⌜CopiedPartly source target files machine.files⌝⟩⦄ := by
  induction source generalizing target files with
  | empty =>
      mvcgen [copyEntries, readCall_spec]
      case vc1.empty.post.success start hstart _ last hlast =>
        exact ⟨rfl, (hlast.trans hstart).trans htarget.overlay_empty.symm⟩
      case vc2.empty.post.except.handle start hstart error last =>
        intro hlast
        rw [hlast, hstart]
        exact CopiedPartly.refl _ _ _
  | file name content rest ih =>
      obtain ⟨hname, hrest⟩ := hdistinct
      mvcgen [copyEntries, readCall_spec, copyFileWithRetry_spec, ih]
      case vc2.htarget start hstart _ first hfirst _ second hsecond _ written hwritten =>
        rw [hwritten, hsecond, hfirst, hstart]
        exact htarget.update content
      case vc3.file.post.success.post.success.post.success.post.success start hstart _ first hfirst _ second
          hsecond _ written hwritten copied last hcopied =>
        rw [hwritten, hsecond, hfirst, hstart] at hcopied
        exact hcopied.file hname
      case vc4.file.post.success.post.success.post.success.post.except.handle start hstart _ first hfirst _
          second hsecond _ written hwritten error last =>
        rw [hwritten, hsecond, hfirst, hstart]
        exact fun hpartly ↦ hpartly.file hname
      case vc5.file.post.success.post.success.post.except.handle start hstart _ first hfirst _ second hsecond
          error last =>
        rw [hsecond, hfirst, hstart]
        exact copiedPartly_of_torn
      case vc6.file.post.success.post.except.handle start hstart _ first hfirst error last =>
        intro hlast
        rw [hlast, hfirst, hstart]
        exact CopiedPartly.refl _ _ _
      case vc7.file.post.except.handle start hstart error last =>
        intro hlast
        rw [hlast, hstart]
        exact CopiedPartly.refl _ _ _
  | folder name inner rest ihinner ihrest =>
      obtain ⟨hname, hinner, hrest⟩ := hdistinct
      mvcgen [copyEntries, readCall_spec, createDirAll_spec, ihinner, ihrest]
      case vc2.htarget start hstart _ first hfirst _ second hsecond _ created hcreated _ read hread =>
        rw [hread, hcreated]
        exact hasDirectory_overlay _ _ _
      case vc4.htarget start hstart _ first hfirst _ second hsecond _ created hcreated _ read hread inside
          middle hmiddle =>
        rw [hmiddle.2]
        exact (hasDirectory_overlay _ _ _).parent
      case vc5.folder.post.success.post.success.post.success.post.success.post.success.post.success start hstart
          _ first hfirst _ second hsecond _ created hcreated _ read hread inside middle hmiddle copied last
          hcopied =>
        rw [hread, hcreated, hsecond, hfirst, hstart] at hmiddle
        exact Copied.folder hname hmiddle.of_created hcopied
      case vc6.folder.post.success.post.success.post.success.post.success.post.success.post.except.handle start
          hstart _ first hfirst _ second hsecond _ created hcreated _ read hread inside middle hmiddle error
          last =>
        rw [hread, hcreated, hsecond, hfirst, hstart] at hmiddle
        exact CopiedPartly.folder hname hmiddle.of_created
      case vc7.folder.post.success.post.success.post.success.post.success.post.except.handle start hstart _ first
          hfirst _ second hsecond _ created hcreated _ read hread error last =>
        rw [hread, hcreated, hsecond, hfirst, hstart]
        exact fun hpartly ↦ copiedPartly_inner hpartly.of_created
      case vc8.folder.post.success.post.success.post.success.post.except.handle start hstart _ first hfirst _
          second hsecond _ created hcreated error last =>
        intro hlast
        rw [hlast, hcreated, hsecond, hfirst, hstart]
        exact copiedPartly_inner (CopiedPartly.refl _ _ _).of_created
      case vc9.folder.post.success.post.success.post.except.handle start hstart _ first hfirst _ second hsecond
          error last =>
        rw [hsecond, hfirst, hstart]
        exact fun hlast ↦ copiedPartly_inner (copiedPartly_of_createDirAll hlast)
      case vc10.folder.post.success.post.except.handle start hstart _ first hfirst error last =>
        intro hlast
        rw [hlast, hfirst, hstart]
        exact CopiedPartly.refl _ _ _
      case vc11.folder.post.except.handle start hstart error last =>
        intro hlast
        rw [hlast, hstart]
        exact CopiedPartly.refl _ _ _

theorem copyTree_spec (retries : ℕ) (source : Folder) (hdistinct : source.Distinct) (target : Path)
    (files : Files) :
    ⦃fun machine ↦ ⌜machine.files = files⌝⦄ copyTree retries source target
    ⦃post⟨fun copied machine ↦ ⌜Copied source target files machine.files copied⌝,
      fun _ machine ↦ ⌜CopiedPartly source target files machine.files⌝⟩⦄ := by
  have hentries := copyEntries_spec retries source hdistinct target
      (overlay (installed .empty target) files)
    (hasDirectory_overlay _ _ _)
  mvcgen [copyTree, createDirAll_spec, readCall_spec, hentries]
  case vc1.post.success.post.success start hstart _ created hcreated _ read hread =>
    rw [hread, hcreated, hstart]
  case vc2.post.success.post.success.post.success start hstart _ created hcreated _ read hread copied last =>
    exact Copied.of_created
  case vc3.post.success.post.success.post.except.handle start hstart _ created hcreated _ read hread error
      last =>
    exact CopiedPartly.of_created
  case vc4.post.success.post.except.handle start hstart _ created hcreated error last =>
    intro hlast
    rw [hlast, hcreated, hstart]
    exact (CopiedPartly.refl _ _ _).of_created
  case vc5.post.except.handle start hstart error last => exact hstart ▸ copiedPartly_of_createDirAll

/-- One run of the updater, with what is left of the files. -/
def update (retries : ℕ) (source : Folder) (target : Path) (outcomes : List Outcome) (files : Files) :
    Except UInt32 ℕ × Files :=
  let (result, machine) := (copyTree retries source target).run.run ⟨files, outcomes⟩
  (result, machine.files)

theorem update_spec (retries : ℕ) {source : Folder} (hdistinct : source.Distinct) (target : Path)
    (outcomes : List Outcome) (files : Files) :
    (∀ copied, (update retries source target outcomes files).1 = .ok copied →
      Copied source target files (update retries source target outcomes files).2 copied) ∧
    ∀ error, (update retries source target outcomes files).1 = .error error →
      CopiedPartly source target files (update retries source target outcomes files).2 := by
  have h := copyTree_spec retries source hdistinct target files ⟨files, outcomes⟩ rfl
  simp only [wp, PredTrans.apply_pushExcept, PredTrans.apply_pushArg, PredTrans.apply_Pure_pure] at h
  revert h
  simp only [update]
  rcases (copyTree retries source target).run.run ⟨files, outcomes⟩ with ⟨error | copied, machine⟩
  · exact fun h ↦ ⟨fun _ hok ↦ by simp at hok, fun _ _ ↦ h⟩
  · refine fun h ↦ ⟨fun found hok ↦ ?_, fun _ herror ↦ by simp at herror⟩
    obtain rfl : copied = found := Except.ok.inj hok
    exact h

/-! ## Calls that all succeed -/

theorem isBlocked_of_fits {source : Folder} {target : Path} {files : Files}
    (h : Fits SameKind (installed source target) files) : isBlocked target files = false := by
  refine List.any_eq_false.mpr fun place hplace ↦ ?_
  have hdirectory : installed source target place = some .directory :=
    installed_above ((List.mem_inits _ _).mp hplace)
  cases hfound : files place with
  | none => simp
  | some found =>
      have hkind : found.isDirectory = true := h place .directory found hdirectory hfound
      cases found with
      | directory => simp
      | file content => simp [Node.isDirectory] at hkind

theorem isWritable_of_fits {name : String} {content : List UInt8} {rest : Folder} {target : Path}
    {files : Files} (h : Fits SameKind (installed (.file name content rest) target) files)
    (htarget : HasDirectory files target) : isWritable (target ++ [name]) files = true := by
  have hparent : files target = some .directory := htarget target (List.prefix_refl _)
  have hfile : installed (.file name content rest) target (target ++ [name]) = some (.file content) := by
    rw [installed_append]
    simp [Folder.find]
  have hplace : files (target ++ [name]) ≠ some .directory := by
    intro hfound
    have hkind := h _ _ _ hfile hfound
    simp [SameKind, Node.isDirectory] at hkind
  simp [isWritable, hplace, hparent]

section Quiet

variable (files : Files)

/-- No call fails any more. -/
def Quiet (machine : Machine) : Prop := machine.files = files ∧ machine.outcomes = []

variable {files} in
theorem Quiet.next {machine : Machine} (h : Quiet files machine) : machine.outcomes.headD .done = .done ∧
    Quiet files { machine with outcomes := machine.outcomes.tail } := by
  simp only [Quiet, h.1, h.2, List.headD_nil, List.tail_nil, and_self]

theorem nextOutcome_quiet : ⦃fun machine ↦ ⌜Quiet files machine⌝⦄ nextOutcome
    ⦃post⟨fun outcome machine ↦ ⌜outcome = .done ∧ Quiet files machine⌝, fun _ _ ↦ ⌜False⌝⟩⦄ := by
  mvcgen [nextOutcome]
  case vc1 machine hquiet => exact hquiet.next

theorem readCall_quiet (start : Machine) (hstart : start.outcomes = []) :
    ⦃fun machine ↦ ⌜machine = start⌝⦄ readCall
    ⦃post⟨fun _ machine ↦ ⌜machine = start⌝, fun _ _ ↦ ⌜False⌝⟩⦄ := by
  mvcgen [readCall, nextOutcome]
  case vc1.h_1 machine hmachine hdone =>
    rw [hmachine, hstart, List.tail_nil, ← hstart]
  case vc2.h_2 machine hmachine error left created hfailed => simp [hmachine, hstart] at hfailed

theorem createDirAll_quiet (path : Path) (hopen : isBlocked path files = false) :
    ⦃fun machine ↦ ⌜Quiet files machine⌝⦄ createDirAll path
    ⦃post⟨fun _ machine ↦ ⌜Quiet (overlay (installed .empty path) files) machine⌝,
      fun _ _ ↦ ⌜False⌝⟩⦄ := by
  mvcgen [createDirAll, nextOutcome_quiet]
  case vc3.post.success.h_1 machine hfailed next => simp at hfailed
  case vc4.post.success.h_2.isTrue machine next hblocked hquiet =>
    rw [hquiet.2.1, hopen] at hblocked
    exact Bool.noConfusion hblocked
  case vc5.post.success.h_2.isFalse machine next hblocked hquiet =>
    exact ⟨by simp only [hquiet.2.1, makeDirectories_eq hopen], hquiet.2.2⟩

theorem copyFile_quiet (content : List UInt8) (path : Path) (hwritable : isWritable path files = true) :
    ⦃fun machine ↦ ⌜Quiet files machine⌝⦄ copyFile content path
    ⦃post⟨fun _ machine ↦ ⌜Quiet (Function.update files path (some (.file content))) machine⌝,
      fun _ _ ↦ ⌜False⌝⟩⦄ := by
  mvcgen [copyFile, nextOutcome_quiet]
  case vc3.post.success.isTrue machine hquiet next hblocked => simp [hquiet.2.1, hwritable] at hblocked
  case vc4.post.success.isFalse.h_1 machine hquiet next hopen hdone =>
    exact ⟨by simp only [writeFile, hquiet.2.1], hquiet.2.2⟩
  case vc5.post.success.isFalse.h_2 machine hquiet next hopen error left created hfailed =>
    exact Outcome.noConfusion (hquiet.1.symm.trans hfailed)

theorem copyFileWithRetry_quiet (content : List UInt8) (path : Path) (retries : ℕ)
    (hwritable : isWritable path files = true) :
    ⦃fun machine ↦ ⌜Quiet files machine⌝⦄ copyFileWithRetry content path retries
    ⦃post⟨fun _ machine ↦ ⌜Quiet (Function.update files path (some (.file content))) machine⌝,
      fun _ _ ↦ ⌜False⌝⟩⦄ := by
  cases retries with
  | zero => exact copyFile_quiet files content path hwritable
  | succ retries =>
      mvcgen [copyFileWithRetry, copyFile_quiet]
      exact id

end Quiet

theorem copyEntries_quiet (retries : ℕ) (source : Folder) (hdistinct : source.Distinct) (target : Path)
    (files : Files) (htarget : HasDirectory files target)
    (hfits : Fits SameKind (installed source target) files) :
    ⦃fun machine ↦ ⌜Quiet files machine⌝⦄ copyEntries retries source target
    ⦃post⟨fun _ machine ↦ ⌜Quiet (overlay (installed source target) files) machine⌝,
      fun _ _ ↦ ⌜False⌝⟩⦄ := by
  induction source generalizing target files with
  | empty =>
      mvcgen [copyEntries, readCall_quiet]
      case vc1.hstart start hstart => exact hstart.2
      case vc2.empty.post.success start hstart _ last hlast =>
        rw [hlast, htarget.overlay_empty]
        exact hstart
  | file name content rest ih =>
      obtain ⟨hname, hrest⟩ := hdistinct
      have hcopy := copyFileWithRetry_quiet files content (target ++ [name]) retries
        (isWritable_of_fits hfits htarget)
      have hlater : Fits SameKind (installed rest target)
          (Function.update files (target ++ [name]) (some (.file content))) := by
        rw [← overlay_single]
        exact (hfits.overlay SameKind.refl part_file_single).mono (part_file_rest hname)
      have hnext := ih hrest target _ (htarget.update content) hlater
      rw [overlay_file hname] at hnext
      clear ih
      mvcgen [copyEntries, readCall_quiet, hcopy, hnext] <;> simp_all [Quiet]
  | folder name inner rest ihinner ihrest =>
      obtain ⟨hname, hinner, hrest⟩ := hdistinct
      have hbelow : Fits SameKind (installed inner (target ++ [name])) files := hfits.mono part_folder_inner
      have hcreate := createDirAll_quiet files (target ++ [name]) (isBlocked_of_fits hbelow)
      have hinside := ihinner hinner (target ++ [name]) _
          (hasDirectory_overlay .empty (target ++ [name]) files)
        (hbelow.overlay SameKind.refl (part_empty inner (target ++ [name])))
      rw [((part_empty inner (target ++ [name])).within files).overlay_eq] at hinside
      have hnext := ihrest hrest target _ (hasDirectory_overlay inner (target ++ [name]) files).parent
        ((hfits.overlay SameKind.refl part_folder_inner).mono (part_folder_rest hname))
      rw [overlay_folder hname] at hnext
      clear ihinner ihrest
      mvcgen [copyEntries, readCall_quiet, hcreate, hinside, hnext] <;> simp_all [Quiet]

theorem copyTree_quiet (retries : ℕ) (source : Folder) (hdistinct : source.Distinct) (target : Path)
    (files : Files) (hfits : Fits SameKind (installed source target) files) :
    ⦃fun machine ↦ ⌜Quiet files machine⌝⦄ copyTree retries source target
    ⦃post⟨fun _ machine ↦ ⌜Quiet (overlay (installed source target) files) machine⌝,
      fun _ _ ↦ ⌜False⌝⟩⦄ := by
  have hcreate := createDirAll_quiet files target (isBlocked_of_fits hfits)
  have hentries := copyEntries_quiet retries source hdistinct target _
      (hasDirectory_overlay .empty target files)
    (hfits.overlay SameKind.refl (part_empty source target))
  rw [((part_empty source target).within files).overlay_eq] at hentries
  mvcgen [copyTree, readCall_quiet, hcreate, hentries] <;> simp_all [Quiet]

theorem update_quiet (retries : ℕ) {source : Folder} (hdistinct : source.Distinct) (target : Path)
    (files : Files) (hfits : Fits SameKind (installed source target) files) :
    ∃ copied, (update retries source target [] files).1 = .ok copied := by
  have h := copyTree_quiet retries source hdistinct target files hfits ⟨files, []⟩ ⟨rfl, rfl⟩
  simp only [wp, PredTrans.apply_pushExcept, PredTrans.apply_pushArg, PredTrans.apply_Pure_pure] at h
  revert h
  simp only [update]
  rcases (copyTree retries source target).run.run ⟨files, []⟩ with ⟨error | copied, machine⟩
  · exact fun h ↦ h.elim
  · exact fun _ ↦ ⟨copied, rfl⟩

/-! ## Updates that are run again -/

/-- Another order in which the same staging directory may be read. -/
structure Folder.Reorders (order source : Folder) : Prop where
  distinct : order.Distinct
  find_eq : order.find = source.find

theorem Folder.Reorders.installed_eq {order source : Folder} (h : order.Reorders source)
    (target : Path) : installed order target = installed source target := by
  funext place
  simp only [installed, h.find_eq]

/-- The files after some runs with the same staging directory, in whatever orders it was
read. So many of the runs have failed. -/
inductive Attempts (source : Folder) (target : Path) (files : Files) : ℕ → Files → Prop
  | start : Attempts source target files 0 files
  | copied {failed copied retries : ℕ} {order : Folder} {outcomes : List Outcome} {middle : Files} :
      Attempts source target files failed middle → order.Reorders source →
      (update retries order target outcomes middle).1 = .ok copied →
      Attempts source target files failed (update retries order target outcomes middle).2
  | failed {failed retries : ℕ} {order : Folder} {outcomes : List Outcome} {middle : Files}
      {error : UInt32} :
      Attempts source target files failed middle → order.Reorders source →
      (update retries order target outcomes middle).1 = .error error →
      Attempts source target files (failed + 1) (update retries order target outcomes middle).2

section Attempts

variable {source order : Folder} {target : Path} {files middle : Files} {failed : ℕ}

/-- A run brings the whole update or leaves at most one more file torn. -/
theorem Folder.Reorders.update_spec (h : order.Reorders source) (retries : ℕ) (target : Path)
    (outcomes : List Outcome) (files : Files) :
    (∀ copied, (update retries order target outcomes files).1 = .ok copied →
      copied = order.fileCount ∧
        (update retries order target outcomes files).2 = overlay (installed source target) files) ∧
    ∀ error, (update retries order target outcomes files).1 = .error error →
      ∃ broken : List Path, broken.length ≤ 1 ∧ Mixed SameKind broken (installed source target) files
        (update retries order target outcomes files).2 := by
  rw [← h.installed_eq target]
  exact Updater.update_spec retries h.distinct target outcomes files

/-- Each failed run leaves at most one more file torn. -/
theorem Attempts.mixed (h : Attempts source target files failed middle) :
    ∃ broken : List Path, broken.length ≤ failed ∧
      Mixed SameKind broken (installed source target) files middle := by
  induction h with
  | start => exact ⟨[], le_rfl, Mixed.refl _ _ _ _⟩
  | copied _ horder hok ih =>
      obtain ⟨broken, hfew, hmixed⟩ := ih
      rw [((horder.update_spec _ _ _ _).1 _ hok).2]
      refine ⟨broken ++ [], ?_, hmixed.trans (mixed_overlay SameKind.refl [] _ _)⟩
      rwa [List.append_nil]
  | failed _ horder herror ih =>
      obtain ⟨broken, hfew, hmixed⟩ := ih
      obtain ⟨torn, hone, hlast⟩ := (horder.update_spec _ _ _ _).2 _ herror
      refine ⟨broken ++ torn, ?_, hmixed.trans hlast⟩
      rw [List.length_append]
      exact Nat.add_le_add hfew hone

/-- Runs touch nothing but what belongs to the update, and each failed one leaves at most
one more file torn. One that reports success has brought everything to the last file, and
it does where no call fails any more. -/
theorem update_after_attempts (hattempts : Attempts source target files failed middle)
    (horder : order.Reorders source) (retries : ℕ) (outcomes : List Outcome) :
    (∀ place, installed source target place = none → middle place = files place) ∧
    (∃ broken : List Path, broken.length ≤ failed ∧
      Mixed SameKind broken (installed source target) files middle) ∧
    (∀ copied, (update retries order target outcomes middle).1 = .ok copied →
      copied = order.fileCount ∧
        (update retries order target outcomes middle).2 = overlay (installed source target) files) ∧
    (∀ error, (update retries order target outcomes middle).1 = .error error →
      ∃ broken : List Path, broken.length ≤ 1 ∧ Mixed SameKind broken (installed source target) middle
        (update retries order target outcomes middle).2) ∧
    (Fits SameKind (installed source target) files →
      update retries order target [] middle = (.ok order.fileCount,
        overlay (installed source target) files)) := by
  obtain ⟨broken, hfew, hmixed⟩ := hattempts.mixed
  have hdone : ∀ outcomes copied, (update retries order target outcomes middle).1 = .ok copied →
      copied = order.fileCount ∧
        (update retries order target outcomes middle).2 = overlay (installed source target) files := by
    intro outcomes copied hok
    obtain ⟨hcopied, hafter⟩ := (horder.update_spec retries target outcomes middle).1 copied hok
    exact ⟨hcopied, hafter.trans hmixed.within.overlay_eq⟩
  refine ⟨hmixed.within, ⟨broken, hfew, hmixed⟩, hdone outcomes,
    (horder.update_spec retries target outcomes middle).2, fun hfits ↦ ?_⟩
  have hstill : Fits SameKind (installed order target) middle := by
    rw [horder.installed_eq target]
    exact hmixed.fits hfits
  obtain ⟨copied, hok⟩ := update_quiet retries horder.distinct target middle hstill
  obtain ⟨rfl, hafter⟩ := hdone [] copied hok
  exact Prod.ext hok hafter

end Attempts

/-- An installation with a file of the last version and one of the user. -/
def oldInstallation : Files := fun place ↦
  if place = [] ∨ place = ["app"] then some .directory
  else if place = ["app", "WinBlaze.UI.exe"] then some (.file [1])
  else if place = ["app", "notes.txt"] then some (.file [7])
  else none

def stagedBuild : Folder :=
  .file "WinBlaze.UI.exe" [2, 2] (.folder "resources" (.file "app.ico" [3] .empty) .empty)

/-- The same files, the directory first. -/
def iconFirst : Folder :=
  .folder "resources" (.file "app.ico" [3] .empty) (.file "WinBlaze.UI.exe" [2, 2] .empty)

theorem reorders_iconFirst : iconFirst.Reorders stagedBuild where
  distinct := by simp [iconFirst, Folder.Distinct, Folder.names]
  find_eq := by
    funext path
    rcases path with _ | ⟨name, path⟩
    · rfl
    · by_cases hexe : name = "WinBlaze.UI.exe" <;> simp [iconFirst, stagedBuild, Folder.find, hexe]

/-- The first run tears the executable, the second the icon, which it reads first. -/
theorem update_after_attempts_torn :
    update 8 stagedBuild ["app"] [] (update 0 iconFirst ["app"]
      [.done, .done, .done, .done, .done, .done, .done, .done, .failed 32 (some [9]) 0]
        (update 0 stagedBuild ["app"]
          [.done, .done, .done, .done, .failed 32 (some [2]) 0] oldInstallation).2).2 =
        (.ok 2, overlay (installed stagedBuild ["app"]) oldInstallation) := by
  have hdistinct : stagedBuild.Distinct := by simp [stagedBuild, Folder.Distinct, Folder.names]
  have hattempts : Attempts stagedBuild ["app"] oldInstallation 2 (update 0 iconFirst ["app"]
      [.done, .done, .done, .done, .done, .done, .done, .done, .failed 32 (some [9]) 0]
        (update 0 stagedBuild ["app"]
          [.done, .done, .done, .done, .failed 32 (some [2]) 0] oldInstallation).2).2 :=
    .failed (.failed .start ⟨hdistinct, rfl⟩ rfl) reorders_iconFirst rfl
  refine (update_after_attempts hattempts ⟨hdistinct, rfl⟩ 8 []).2.2.2.2
    fun place value found hvalue hfound ↦ ?_
  simp only [oldInstallation] at hfound
  split_ifs at hfound with hdirectory hfile hnotes
  · obtain rfl : .directory = found := Option.some.inj hfound
    have hplace : place <+: ["app"] := by rcases hdirectory with rfl | rfl <;> simp
    obtain rfl : .directory = value := Option.some.inj ((installed_above hplace).symm.trans hvalue)
    exact SameKind.refl _
  · obtain rfl : .file [1] = found := Option.some.inj hfound
    obtain rfl : .file [2, 2] = value := by
      simpa [hfile, installed, stagedBuild, Folder.find] using hvalue
    exact rfl
  · simp [hnotes, installed, stagedBuild, Folder.find] at hvalue

end Updater

end WinBlaze
