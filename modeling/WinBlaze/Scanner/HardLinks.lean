import Mathlib.Logic.Relation
import WinBlaze.Core.Model

/-!
# Consolidating a duplicate

A file that equals another one byte by byte becomes a hard link to it: it is moved
aside under a backup name, the link takes its place and the backup is deleted. Any
system call may fail, and other processes change the volume in between, but not
a file that is held open here.
-/

namespace WinBlaze

namespace HardLinks

/-! ## Volumes -/

/-- What is asked of the metadata of a file. -/
structure Metadata where
  isFile : Bool
  attributes : FileAttributes
  deriving DecidableEq, Repr

/-- A file apart from its names. -/
structure FileBody where
  metadata : Metadata
  content : List UInt8
  streams : List String
  /-- The owner, the group and the permissions. -/
  security : String
  deriving DecidableEq, Repr

structure Volume (P F : Type*) where
  /-- The metadata of a path as it is written, links not followed. -/
  symlinkMetadata : P → Option Metadata
  canonicalize : P → Option P
  /-- The file at a canonical path. -/
  names : P → Option F
  files : F → FileBody

namespace Volume

variable {P F : Type*} [DecidableEq P]

/-- A rename never overwrites. The file stays where it is if the name is its own. -/
def rename (volume : Volume P F) (path target : P) : Option (Volume P F) :=
  if volume.names target = none ∨ target = path then
    some { volume with
      names := Function.update (Function.update volume.names path none) target (volume.names path) }
  else none

def hardLink (volume : Volume P F) (original link : P) : Option (Volume P F) :=
  if volume.names link = none then
    (volume.names original).map fun file ↦
      { volume with names := Function.update volume.names link (some file) }
  else none

def delete (volume : Volume P F) (path : P) : Volume P F :=
  { volume with names := Function.update volume.names path none }

variable {volume after : Volume P F}

theorem rename_eq_some_iff {path target : P} : volume.rename path target = some after ↔
    (volume.names target = none ∨ target = path) ∧ after = { volume with
      names := Function.update (Function.update volume.names path none) target (volume.names path) } := by
  unfold rename
  split
  case isTrue hfree =>
      simp only [hfree, true_and, Option.some.injEq]
      exact eq_comm
  case isFalse hfree => simp only [hfree, reduceCtorEq, false_and]

theorem hardLink_eq_some_iff {original link : P} : volume.hardLink original link = some after ↔
    volume.names link = none ∧ ∃ file, volume.names original = some file ∧
      after = { volume with names := Function.update volume.names link (some file) } := by
  unfold hardLink
  split
  case isTrue hfree =>
      simp only [hfree, true_and, Option.map_eq_some_iff]
      exact exists_congr fun file ↦ and_congr_right fun _ ↦ eq_comm
  case isFalse hfree => simp only [hfree, reduceCtorEq, false_and]

theorem files_rename {path target : P} (h : volume.rename path target = some after) :
    after.files = volume.files := by
  obtain ⟨-, rfl⟩ := rename_eq_some_iff.mp h
  rfl

theorem files_hardLink {original link : P} (h : volume.hardLink original link = some after) :
    after.files = volume.files := by
  obtain ⟨-, file, -, rfl⟩ := hardLink_eq_some_iff.mp h
  rfl

/-- A renamed file has its new name, and no other file has lost one. -/
theorem names_rename {path target : P} {file : F} (h : volume.rename path target = some after)
    (hpath : volume.names path = some file) :
    after.names target = some file ∧
      ∀ other found, found ≠ file → volume.names other = some found → after.names other = some found := by
  obtain ⟨hfree, rfl⟩ := rename_eq_some_iff.mp h
  refine ⟨by simp only [Function.update_self, hpath], fun other found hfound hother ↦ ?_⟩
  have htarget : other ≠ target := by
    rintro rfl
    rcases hfree with hfree | rfl
    · simp [hfree] at hother
    · exact hfound (Option.some.inj (hother.symm.trans hpath))
  have hpathne : other ≠ path := by
    rintro rfl
    exact hfound (Option.some.inj (hother.symm.trans hpath))
  simp only [Function.update_of_ne htarget, Function.update_of_ne hpathne, hother]

/-- A link is a second name, and no name is lost. -/
theorem names_hardLink {original link : P} {file : F} (h : volume.hardLink original link = some after)
    (horiginal : volume.names original = some file) :
    after.names link = some file ∧
      ∀ other found, volume.names other = some found → after.names other = some found := by
  obtain ⟨hfree, found, hfound, rfl⟩ := hardLink_eq_some_iff.mp h
  obtain rfl : found = file := Option.some.inj (hfound.symm.trans horiginal)
  refine ⟨Function.update_self .., fun other found hother ↦ ?_⟩
  have hlink : other ≠ link := by
    rintro rfl
    simp [hfree] at hother
  simp only [Function.update_of_ne hlink, hother]

theorem names_delete {path : P} {file : F} (hpath : volume.names path = some file) :
    (volume.delete path).names path = none ∧ ∀ other found, found ≠ file →
      volume.names other = some found → (volume.delete path).names other = some found := by
  refine ⟨Function.update_self .., fun other found hfound hother ↦ ?_⟩
  have hne : other ≠ path := by
    rintro rfl
    exact hfound (Option.some.inj (hother.symm.trans hpath))
  simp only [delete, Function.update_of_ne hne, hother]

end Volume

/-! ## The procedure -/

inductive ConsolidateError (P ε : Type*)
  /-- What a system call reports. -/
  | io (error : ε)
  | invalid (message : String)
  | rollbackFailed (error rollback : ε) (backup : P)
  | backupNotDeleted (backup : P) (error : ε)
  deriving DecidableEq, Repr

/-- The text of an error. -/
def ConsolidateError.text {P ε : Type*} (displayError : ε → String) (displayPath : P → String) :
    ConsolidateError P ε → String
  | io error => displayError error
  | invalid message => message
  | rollbackFailed error rollback backup =>
      "Link failed: " ++ displayError error ++ "; rollback failed: " ++ displayError rollback ++
        ". Original retained at " ++ displayPath backup
  | backupNotDeleted backup error =>
      "Link created, but original backup could not be deleted: " ++ displayPath backup ++ " (" ++
        displayError error ++ ")"

/-- The canonical paths, and the files that are held open. -/
structure Guards (P F : Type*) where
  master : P
  duplicate : P
  source : F
  target : F
  deriving DecidableEq, Repr

/-- The next system call before both files are open. -/
inductive Preparation (P F : Type*)
  | inspectMaster
  | inspectDuplicate
  | canonicalMaster
  | canonicalDuplicate (master : P)
  | openMaster (master duplicate : P)
  | openDuplicate (master duplicate : P) (source : F)
  deriving DecidableEq, Repr

/-- The next system call while both files are open. -/
inductive Stage (ε : Type*)
  | lengths
  | masterStreams
  | duplicateStreams
  | security
  | compare (remaining : ℕ)
  | rename
  | link
  | restore (error : ε)
  | delete
  deriving DecidableEq, Repr

inductive Point (P F ε : Type*)
  | preparing (stage : Preparation P F)
  | guarded (guards : Guards P F) (stage : Stage ε)
  | returned (guards : Option (Guards P F)) (result : Except (ConsolidateError P ε) Unit)

structure Config (P F ε : Type*) where
  volume : Volume P F
  point : Point P F ε

/-- `FILE_ATTRIBUTE_REPARSE_POINT`. -/
def reparsePoint : UInt32 := 0x400

/-- Read-only, system, reparse point, offline, encrypted, recall on open and on access. -/
def unsuitable : UInt32 := 0x1 ||| 0x4 ||| 0x400 ||| 0x1000 ||| 0x4000 ||| 0x40000 ||| 0x400000

def Metadata.suits (metadata : Metadata) (refused : UInt32) : Bool :=
  metadata.isFile && metadata.attributes.bits &&& refused == 0

/-- The length of the buffers. -/
def blockLength : ℕ := 65536

/-- Part of a content that `read_exact` returns. -/
def block (content : List UInt8) (offset count : ℕ) : List UInt8 := (content.drop offset).take count

variable {P F ε : Type*} [DecidableEq P] [DecidableEq F]

def fails (guards : Option (Guards P F)) (message : String) : Point P F ε :=
  .returned guards (.error (.invalid message))

/-- A call that fails ends the procedure, and one that does not needs a value. -/
def attempt {α : Type*} (guards : Option (Guards P F)) (fault : Option ε) (value : Option α)
    (next : α → Point P F ε) : Option (Point P F ε) :=
  match fault with
  | some error => some (.returned guards (.error (.io error)))
  | none => value.map next

def inspect (volume : Volume P F) (path : P) (fault : Option ε) (next : Point P F ε) :
    Option (Point P F ε) :=
  attempt none fault (volume.symlinkMetadata path) fun metadata ↦
    if metadata.suits reparsePoint then next
    else fails none "Reparse points and directories cannot be consolidated"

/-- A file that is held open for writing or deleting is not opened a second time. -/
def openGuard (volume : Volume P F) (path : P) (held : Option F) (fault : Option ε)
    (next : F → Point P F ε) : Option (Point P F ε) :=
  attempt none fault ((volume.names path).filter fun file ↦ some file ≠ held) fun file ↦
    if (volume.files file).metadata.suits unsuitable then next file
    else fails none "Requires ordinary writable, locally available files"

/-- `master` and `duplicate` are the paths as they are given. -/
def prepare (master duplicate : P) (volume : Volume P F) (fault : Option ε) :
    Preparation P F → Option (Point P F ε)
  | .inspectMaster => inspect volume master fault (.preparing .inspectDuplicate)
  | .inspectDuplicate => inspect volume duplicate fault (.preparing .canonicalMaster)
  | .canonicalMaster =>
      attempt none fault (volume.canonicalize master) fun path ↦ .preparing (.canonicalDuplicate path)
  | .canonicalDuplicate first =>
      attempt none fault (volume.canonicalize duplicate) fun second ↦
        if first = second then fails none "Choose two different paths"
        else .preparing (.openMaster first second)
  | .openMaster first second =>
      openGuard volume first none fault fun source ↦ .preparing (.openDuplicate first second source)
  | .openDuplicate first second source =>
      openGuard volume second (some source) fault fun target ↦
        .guarded ⟨first, second, source, target⟩ .lengths

def noNamedStreams (volume : Volume P F) (guards : Guards P F) (path : P) (fault : Option ε)
    (next : Stage ε) : Option (Point P F ε) :=
  attempt (some guards) fault (volume.names path) fun file ↦
    if (volume.files file).streams.all (· == "::$DATA") then .guarded guards next
    else fails (some guards) "Named streams must be removed or handled separately"

/-- One turn of the loop that compares the contents. -/
def compareBlock (volume : Volume P F) (guards : Guards P F) (remaining : ℕ) : Point P F ε :=
  if remaining = 0 then .guarded guards .rename
  else
    let source := (volume.files guards.source).content
    let target := (volume.files guards.target).content
    let count := min remaining blockLength
    let offset := source.length - remaining
    if block source offset count ≠ block target offset count then fails (some guards) "Files differ"
    else .guarded guards (.compare (remaining - count))

/-- The stages that only read. -/
def examine (volume : Volume P F) (guards : Guards P F) (fault : Option ε) :
    Stage ε → Option (Point P F ε)
  | .lengths =>
      let source := (volume.files guards.source).content.length
      attempt (some guards) fault (some ()) fun _ ↦
        if source ≠ (volume.files guards.target).content.length then fails (some guards) "Files differ"
        else .guarded guards .masterStreams
  | .masterStreams => noNamedStreams volume guards guards.master fault .duplicateStreams
  | .duplicateStreams => noNamedStreams volume guards guards.duplicate fault .security
  | .security =>
      attempt (some guards) fault
        ((volume.names guards.master).bind fun source ↦
          (volume.names guards.duplicate).map fun target ↦ (source, target)) fun (source, target) ↦
        if (volume.files source).security ≠ (volume.files target).security then
          fails (some guards) "Owner, group or permissions differ"
        else .guarded guards (.compare (volume.files guards.source).content.length)
  | .compare remaining =>
      attempt (some guards) fault (some ()) fun _ ↦ compareBlock volume guards remaining
  | .rename | .link | .restore _ | .delete => none

/-- The stages that change the volume. -/
def replace (backup : P) (volume : Volume P F) (guards : Guards P F) :
    Stage ε → Option ε → Option (Config P F ε)
  | .rename, some error => some ⟨volume, .returned (some guards) (.error (.io error))⟩
  | .rename, none =>
      (volume.rename guards.duplicate backup).map fun moved ↦ ⟨moved, .guarded guards .link⟩
  | .link, some error => some ⟨volume, .guarded guards (.restore error)⟩
  | .link, none =>
      (volume.hardLink guards.master guards.duplicate).map fun linked ↦
        ⟨linked, .guarded guards .delete⟩
  | .restore error, some rollback =>
      some ⟨volume, .returned (some guards) (.error (.rollbackFailed error rollback backup))⟩
  | .restore error, none =>
      (volume.rename backup guards.duplicate).map fun restored ↦
        ⟨restored, .returned (some guards) (.error (.io error))⟩
  | .delete, some error =>
      some ⟨volume, .returned (some guards) (.error (.backupNotDeleted backup error))⟩
  | .delete, none => some ⟨volume.delete backup, .returned (some guards) (.ok ())⟩
  | _, _ => none

def Stage.reads : Stage ε → Bool
  | .lengths | .masterStreams | .duplicateStreams | .security | .compare _ => true
  | .rename | .link | .restore _ | .delete => false

/-- One system call, which may fail with an error. Without an error there is no next
configuration where the call cannot succeed. -/
def consolidateStep (backupOf : P → P) (master duplicate : P) (config : Config P F ε)
    (fault : Option ε) : Option (Config P F ε) :=
  match config.point with
  | .preparing stage =>
      (prepare master duplicate config.volume fault stage).map fun point ↦ ⟨config.volume, point⟩
  | .guarded guards stage =>
      if stage.reads then
        (examine config.volume guards fault stage).map fun point ↦ ⟨config.volume, point⟩
      else replace (backupOf guards.duplicate) config.volume guards stage fault
  | .returned _ _ => none

/-! ## Runs -/

/-- The files that other processes neither change nor rename. -/
def Point.Locks (file : F) : Point P F ε → Prop
  | .preparing (.openDuplicate _ _ source) => file = source
  | .guarded guards _ => file = guards.source ∨ file = guards.target
  | _ => False

def Point.running : Point P F ε → Bool
  | .preparing _ | .guarded _ _ => true
  | .returned _ _ => false

/-- A file has the same content and the same names. -/
def Volume.SameFile (volume after : Volume P F) (file : F) : Prop :=
  after.files file = volume.files file ∧
    ∀ path, after.names path = some file ↔ volume.names path = some file

inductive ConsolidateStep (backupOf : P → P) (master duplicate : P) :
    Config P F ε → Config P F ε → Prop
  | call {config next : Config P F ε} (fault : Option ε)
      (h : consolidateStep backupOf master duplicate config fault = some next) :
      ConsolidateStep backupOf master duplicate config next
  /-- A change by other processes. -/
  | elsewhere {config : Config P F ε} (volume : Volume P F) (hrunning : config.point.running = true)
      (hlocked : ∀ file, config.point.Locks file → config.volume.SameFile volume file) :
      ConsolidateStep backupOf master duplicate config { config with volume }

abbrev ConsolidateRun (backupOf : P → P) (master duplicate : P) :
    Config P F ε → Config P F ε → Prop :=
  Relation.ReflTransGen (ConsolidateStep backupOf master duplicate)

def consolidateStart (volume : Volume P F) : Config P F ε := ⟨volume, .preparing .inspectMaster⟩

/-! ## What is kept at every stage -/

/-- The contents are equal up to where the loop has come. -/
def SameUntil (source target : List UInt8) (remaining : ℕ) : Prop :=
  source.length = target.length ∧ remaining ≤ source.length ∧
    source.take (source.length - remaining) = target.take (source.length - remaining)

theorem sameUntil_start {source target : List UInt8} (h : source.length = target.length) :
    SameUntil source target source.length := by
  refine ⟨h, le_rfl, ?_⟩
  simp only [Nat.sub_self, List.take_zero]

theorem SameUntil.eq {source target : List UInt8} (h : SameUntil source target 0) :
    source = target := by
  obtain ⟨hlength, -, htake⟩ := h
  rw [Nat.sub_zero, List.take_length, hlength, List.take_length] at htake
  exact htake

theorem SameUntil.next {source target : List UInt8} {remaining count : ℕ}
    (h : SameUntil source target remaining) (hcount : count ≤ remaining)
    (hblock : block source (source.length - remaining) count =
      block target (source.length - remaining) count) :
    SameUntil source target (remaining - count) := by
  obtain ⟨hlength, hremaining, htake⟩ := h
  have hplace : source.length - (remaining - count) = source.length - remaining + count := by omega
  refine ⟨hlength, (Nat.sub_le _ _).trans hremaining, ?_⟩
  simp only [block] at hblock
  simp only [hplace, List.take_add, htake, hblock]

/-- What each result says of the two paths. -/
def Leaves (backup : P) (guards : Guards P F) (volume : Volume P F) :
    Except (ConsolidateError P ε) Unit → Prop
  | .ok () => volume.names guards.duplicate = some guards.source ∧ volume.names backup = none ∧
      (volume.files guards.source).content = (volume.files guards.target).content
  | .error (.io _) | .error (.invalid _) => volume.names guards.duplicate = some guards.target
  | .error (.rollbackFailed _ _ path) => path = backup ∧ volume.names backup = some guards.target
  | .error (.backupNotDeleted path _) => path = backup ∧
      volume.names guards.duplicate = some guards.source ∧ volume.names backup = some guards.target ∧
      (volume.files guards.source).content = (volume.files guards.target).content

/-- Where the duplicate is, and how much of it is known to be in the master. -/
def Stage.Holds (backup : P) (guards : Guards P F) (volume : Volume P F) : Stage ε → Prop
  | .lengths => volume.names guards.duplicate = some guards.target
  | .masterStreams | .duplicateStreams | .security =>
      volume.names guards.duplicate = some guards.target ∧
        (volume.files guards.source).content.length = (volume.files guards.target).content.length
  | .compare remaining => volume.names guards.duplicate = some guards.target ∧
      SameUntil (volume.files guards.source).content (volume.files guards.target).content remaining
  | .rename => volume.names guards.duplicate = some guards.target ∧
      (volume.files guards.source).content = (volume.files guards.target).content
  | .link | .restore _ => volume.names backup = some guards.target ∧
      (volume.files guards.source).content = (volume.files guards.target).content
  | .delete => (volume.names guards.duplicate = some guards.source ∧
      volume.names backup = some guards.target) ∧
      (volume.files guards.source).content = (volume.files guards.target).content

/-- The master is where it was found, and the two files are different ones. -/
structure Guards.Held (guards : Guards P F) (volume : Volume P F) : Prop where
  distinct : guards.source ≠ guards.target
  master : volume.names guards.master = some guards.source

def Config.Consistent (backupOf : P → P) (config : Config P F ε) : Prop :=
  match config.point with
  | .preparing (.openDuplicate master _ source) => config.volume.names master = some source
  | .preparing _ => True
  | .guarded guards stage => guards.Held config.volume ∧
      stage.Holds (backupOf guards.duplicate) guards config.volume
  | .returned (some guards) result => Leaves (backupOf guards.duplicate) guards config.volume result
  | .returned none _ => True

section Steps

variable {backupOf : P → P} {master duplicate : P} {volume : Volume P F} {guards : Guards P F}

omit [DecidableEq P] [DecidableEq F] in
theorem Config.Consistent.of_attempt {α : Type*} {held : Option (Guards P F)} {fault : Option ε}
    {value : Option α} {next : α → Point P F ε} {point : Point P F ε}
    (h : attempt held fault value next = some point)
    (herror : ∀ error : ε, Consistent backupOf ⟨volume, .returned held (.error (.io error))⟩)
    (hnext : ∀ found, value = some found → Consistent backupOf ⟨volume, next found⟩) :
    Consistent backupOf ⟨volume, point⟩ := by
  cases fault with
  | some error =>
      obtain rfl := Option.some.inj h
      exact herror error
  | none =>
      obtain ⟨found, hfound, rfl⟩ := Option.map_eq_some_iff.mp h
      exact hnext found hfound

omit [DecidableEq P] [DecidableEq F] in
theorem consistent_inspect {path : P} {fault : Option ε} {stage : Preparation P F}
    (hstage : Config.Consistent backupOf (⟨volume, .preparing stage⟩ : Config P F ε))
    {point : Point P F ε} (h : inspect volume path fault (.preparing stage) = some point) :
    Config.Consistent backupOf ⟨volume, point⟩ := by
  refine Config.Consistent.of_attempt h (fun _ ↦ trivial) fun metadata _ ↦ ?_
  split
  · exact hstage
  · trivial

theorem consistent_prepare {fault : Option ε} {stage : Preparation P F}
    (hstage : Config.Consistent backupOf (⟨volume, .preparing stage⟩ : Config P F ε))
    {point : Point P F ε} (h : prepare master duplicate volume fault stage = some point) :
    Config.Consistent backupOf ⟨volume, point⟩ := by
  cases stage with
  | inspectMaster => exact consistent_inspect (by trivial) h
  | inspectDuplicate => exact consistent_inspect (by trivial) h
  | canonicalMaster => exact Config.Consistent.of_attempt h (fun _ ↦ trivial) fun _ _ ↦ trivial
  | canonicalDuplicate first =>
      refine Config.Consistent.of_attempt h (fun _ ↦ trivial) fun second _ ↦ ?_
      split
      · trivial
      · trivial
  | openMaster first second =>
      refine Config.Consistent.of_attempt h (fun _ ↦ trivial) fun source hsource ↦ ?_
      split
      · exact (Option.filter_eq_some_iff.mp hsource).1
      · trivial
  | openDuplicate first second source =>
      refine Config.Consistent.of_attempt h (fun _ ↦ trivial) fun target htarget ↦ ?_
      obtain ⟨hname, hother⟩ := Option.filter_eq_some_iff.mp htarget
      split
      · refine ⟨⟨fun hsame : source = target ↦ ?_, hstage⟩, hname⟩
        simp [hsame] at hother
      · trivial

omit [DecidableEq P] [DecidableEq F] in
theorem consistent_examine {fault : Option ε} {stage : Stage ε} (hheld : guards.Held volume)
    (hstage : stage.Holds (backupOf guards.duplicate) guards volume) {point : Point P F ε}
    (h : examine volume guards fault stage = some point) : Config.Consistent backupOf ⟨volume, point⟩ := by
  cases stage with
  | lengths =>
      refine Config.Consistent.of_attempt h (fun _ ↦ hstage) fun _ _ ↦ ?_
      split
      case isTrue => exact hstage
      case isFalse hlength => exact ⟨hheld, hstage, not_not.mp hlength⟩
  | masterStreams | duplicateStreams =>
      refine Config.Consistent.of_attempt h (fun _ ↦ hstage.1) fun _ _ ↦ ?_
      split
      · exact ⟨hheld, hstage⟩
      · exact hstage.1
  | security =>
      refine Config.Consistent.of_attempt h (fun _ ↦ hstage.1) fun (first, second) _ ↦ ?_
      dsimp only
      split
      · exact hstage.1
      · exact ⟨hheld, hstage.1, sameUntil_start hstage.2⟩
  | compare remaining =>
      refine Config.Consistent.of_attempt h (fun _ ↦ hstage.1) fun _ _ ↦ ?_
      obtain ⟨hname, hsame⟩ := hstage
      unfold compareBlock
      split
      case isTrue hzero => exact ⟨hheld, hname, (hzero ▸ hsame).eq⟩
      case isFalse =>
        dsimp only
        split
        case isTrue => exact hname
        case isFalse hblock =>
          exact ⟨hheld, hname, hsame.next (min_le_left _ _) (not_not.mp hblock)⟩
  | rename | link | restore error | delete => cases h

omit [DecidableEq F] in
theorem consistent_replace {fault : Option ε} {stage : Stage ε} (hheld : guards.Held volume)
    (hstage : stage.Holds (backupOf guards.duplicate) guards volume) {next : Config P F ε}
    (h : replace (backupOf guards.duplicate) volume guards stage fault = some next) :
    next.Consistent backupOf ∧ next.volume.files = volume.files ∧ ∀ path file,
      volume.names path = some file → file ≠ guards.target → next.volume.names path = some file := by
  obtain ⟨hdistinct, hmaster⟩ := hheld
  cases stage with
  | lengths | masterStreams | duplicateStreams | security | compare remaining => cases fault <;> cases h
  | rename =>
      obtain ⟨hname, hcontent⟩ := hstage
      cases fault with
      | some error =>
          obtain rfl := Option.some.inj h
          exact ⟨hname, rfl, fun _ _ hpath _ ↦ hpath⟩
      | none =>
          obtain ⟨moved, hmoved, rfl⟩ := Option.map_eq_some_iff.mp h
          obtain ⟨hbackup, hothers⟩ := Volume.names_rename hmoved hname
          have hfiles := Volume.files_rename hmoved
          refine ⟨⟨⟨hdistinct, hothers _ _ hdistinct hmaster⟩, hbackup, ?_⟩, hfiles,
            fun path file hpath hfile ↦ hothers path file hfile hpath⟩
          simp only [hfiles, hcontent]
  | link =>
      obtain ⟨hbackup, hcontent⟩ := hstage
      cases fault with
      | some error =>
          obtain rfl := Option.some.inj h
          exact ⟨⟨⟨hdistinct, hmaster⟩, hbackup, hcontent⟩, rfl, fun _ _ hpath _ ↦ hpath⟩
      | none =>
          obtain ⟨linked, hlinked, rfl⟩ := Option.map_eq_some_iff.mp h
          obtain ⟨hlink, hothers⟩ := Volume.names_hardLink hlinked hmaster
          have hfiles := Volume.files_hardLink hlinked
          refine ⟨⟨⟨hdistinct, hothers _ _ hmaster⟩, ⟨hlink, hothers _ _ hbackup⟩, ?_⟩, hfiles,
            fun path file hpath _ ↦ hothers path file hpath⟩
          simp only [hfiles, hcontent]
  | restore error =>
      obtain ⟨hbackup, hcontent⟩ := hstage
      cases fault with
      | some rollback =>
          obtain rfl := Option.some.inj h
          exact ⟨⟨rfl, hbackup⟩, rfl, fun _ _ hpath _ ↦ hpath⟩
      | none =>
          obtain ⟨restored, hrestored, rfl⟩ := Option.map_eq_some_iff.mp h
          obtain ⟨hname, hothers⟩ := Volume.names_rename hrestored hbackup
          exact ⟨hname, Volume.files_rename hrestored,
            fun path file hpath hfile ↦ hothers path file hfile hpath⟩
  | delete =>
      obtain ⟨⟨hlink, hbackup⟩, hcontent⟩ := hstage
      cases fault with
      | some error =>
          obtain rfl := Option.some.inj h
          exact ⟨⟨rfl, hlink, hbackup, hcontent⟩, rfl, fun _ _ hpath _ ↦ hpath⟩
      | none =>
          obtain rfl := Option.some.inj h
          obtain ⟨hgone, hothers⟩ := Volume.names_delete hbackup
          exact ⟨⟨hothers _ _ hdistinct hlink, hgone, hcontent⟩, rfl,
            fun path file hpath hfile ↦ hothers path file hfile hpath⟩

theorem consistent_call {config next : Config P F ε} (hconfig : config.Consistent backupOf)
    {fault : Option ε} (h : consolidateStep backupOf master duplicate config fault = some next) :
    next.Consistent backupOf := by
  obtain ⟨volume, point⟩ := config
  cases point with
  | preparing stage =>
      obtain ⟨point, hpoint, rfl⟩ := Option.map_eq_some_iff.mp h
      exact consistent_prepare hconfig hpoint
  | guarded guards stage =>
      simp only [consolidateStep] at h
      split at h
      · obtain ⟨point, hpoint, rfl⟩ := Option.map_eq_some_iff.mp h
        exact consistent_examine hconfig.1 hconfig.2 hpoint
      · exact (consistent_replace hconfig.1 hconfig.2 h).1
  | returned guards result => cases h

/-- A call changes no file, and takes names from the duplicate only. -/
theorem call_keeps {config next : Config P F ε} (hconfig : config.Consistent backupOf) {stage : Stage ε}
    (hpoint : config.point = .guarded guards stage) {fault : Option ε}
    (h : consolidateStep backupOf master duplicate config fault = some next) :
    next.volume.files = config.volume.files ∧ ∀ path file, config.volume.names path = some file →
      file ≠ guards.target → next.volume.names path = some file := by
  obtain ⟨volume, point⟩ := config
  obtain rfl : point = .guarded guards stage := hpoint
  simp only [consolidateStep] at h
  split at h
  · obtain ⟨point, -, rfl⟩ := Option.map_eq_some_iff.mp h
    exact ⟨rfl, fun path file hpath _ ↦ hpath⟩
  · exact (consistent_replace hconfig.1 hconfig.2 h).2

end Steps

/-! ## Changes from elsewhere -/

section Elsewhere

variable {backupOf : P → P} {guards : Guards P F} {volume after : Volume P F}

omit [DecidableEq P] [DecidableEq F] in
theorem Stage.Holds.elsewhere {backup : P} {stage : Stage ε} (h : stage.Holds backup guards volume)
    (hsource : volume.SameFile after guards.source) (htarget : volume.SameFile after guards.target) :
    stage.Holds backup guards after := by
  cases stage <;> simpa only [Holds, hsource.1, htarget.1, hsource.2, htarget.2] using h

omit [DecidableEq P] [DecidableEq F] in
theorem consistent_elsewhere {config : Config P F ε} (hconfig : config.Consistent backupOf)
    (hrunning : config.point.running = true)
    (hlocked : ∀ file, config.point.Locks file → config.volume.SameFile after file) :
    Config.Consistent backupOf { config with volume := after } := by
  obtain ⟨volume, point⟩ := config
  cases point with
  | preparing stage =>
      cases stage with
      | openDuplicate first second source => exact ((hlocked source rfl).2 first).mpr hconfig
      | inspectMaster | inspectDuplicate | canonicalMaster | canonicalDuplicate | openMaster => trivial
  | guarded guards stage =>
      obtain ⟨⟨hdistinct, hmaster⟩, hstage⟩ := hconfig
      have hsource := hlocked guards.source (Or.inl rfl)
      exact ⟨⟨hdistinct, (hsource.2 _).mpr hmaster⟩,
        hstage.elsewhere hsource (hlocked guards.target (Or.inr rfl))⟩
  | returned guards result => cases hrunning

end Elsewhere

/-! ## The content of the duplicate -/

section Runs

variable {backupOf : P → P} {master duplicate : P} {config next : Config P F ε} {guards : Guards P F}

theorem ConsolidateStep.consistent (h : ConsolidateStep backupOf master duplicate config next)
    (hconfig : config.Consistent backupOf) : next.Consistent backupOf := by
  cases h with
  | call fault hcall => exact consistent_call hconfig hcall
  | elsewhere volume hrunning hlocked => exact consistent_elsewhere hconfig hrunning hlocked

theorem ConsolidateRun.consistent (h : ConsolidateRun backupOf master duplicate config next)
    (hconfig : config.Consistent backupOf) : next.Consistent backupOf := by
  induction h with
  | refl => exact hconfig
  | tail _ hstep ih => exact hstep.consistent ih

/-- The guards are held until the procedure returns. -/
def Point.Keeps (guards : Guards P F) : Point P F ε → Prop
  | .preparing _ => False
  | .guarded held _ => held = guards
  | .returned held _ => held = some guards

omit [DecidableEq P] [DecidableEq F] in
theorem keeps_of_attempt {α : Type*} {fault : Option ε} {value : Option α} {following : α → Point P F ε}
    {point : Point P F ε} (h : attempt (some guards) fault value following = some point)
    (hfollowing : ∀ found, (following found).Keeps guards) : point.Keeps guards := by
  cases fault with
  | some error =>
      obtain rfl := Option.some.inj h
      rfl
  | none =>
      obtain ⟨found, -, rfl⟩ := Option.map_eq_some_iff.mp h
      exact hfollowing found

omit [DecidableEq P] [DecidableEq F] in
theorem keeps_examine {volume : Volume P F} {fault : Option ε} {stage : Stage ε} {point : Point P F ε}
    (h : examine volume guards fault stage = some point) : point.Keeps guards := by
  cases stage with
  | lengths | masterStreams | duplicateStreams =>
      refine keeps_of_attempt h fun _ ↦ ?_
      split
      · rfl
      · rfl
  | security =>
      refine keeps_of_attempt h fun (first, second) ↦ ?_
      dsimp only
      split
      · rfl
      · rfl
  | compare remaining =>
      refine keeps_of_attempt h fun _ ↦ ?_
      unfold compareBlock
      dsimp only
      split
      · rfl
      · split
        · rfl
        · rfl
  | rename | link | restore error | delete => cases h

omit [DecidableEq F] in
theorem keeps_replace {backup : P} {volume : Volume P F} {fault : Option ε} {stage : Stage ε}
    (h : replace backup volume guards stage fault = some next) : next.point.Keeps guards := by
  cases stage with
  | lengths | masterStreams | duplicateStreams | security | compare remaining => cases fault <;> cases h
  | rename | link | restore error =>
      cases fault with
      | some error =>
          obtain rfl := Option.some.inj h
          rfl
      | none =>
          obtain ⟨changed, -, rfl⟩ := Option.map_eq_some_iff.mp h
          rfl
  | delete =>
      cases fault with
      | some error =>
          obtain rfl := Option.some.inj h
          rfl
      | none =>
          obtain rfl := Option.some.inj h
          rfl

theorem keeps_call (hpoint : config.point.Keeps guards) {fault : Option ε}
    (h : consolidateStep backupOf master duplicate config fault = some next) :
    next.point.Keeps guards := by
  obtain ⟨volume, point⟩ := config
  cases point with
  | preparing stage => exact hpoint.elim
  | guarded held stage =>
      obtain rfl : held = guards := hpoint
      simp only [consolidateStep] at h
      split at h
      · obtain ⟨point, hexamined, rfl⟩ := Option.map_eq_some_iff.mp h
        exact keeps_examine hexamined
      · exact keeps_replace h
  | returned held result => cases h

/-- From when both files are open, what they hold does not change. -/
theorem ConsolidateStep.keeps (h : ConsolidateStep backupOf master duplicate config next)
    (hconfig : config.Consistent backupOf) (hpoint : config.point.Keeps guards) :
    next.point.Keeps guards ∧ next.volume.files guards.target = config.volume.files guards.target := by
  cases h with
  | call fault hcall =>
      refine ⟨keeps_call hpoint hcall, ?_⟩
      obtain ⟨volume, point⟩ := config
      cases point with
      | preparing stage => exact hpoint.elim
      | guarded held stage => exact congrFun (call_keeps hconfig rfl hcall).1 _
      | returned held result => cases hcall
  | elsewhere volume hrunning hlocked =>
      refine ⟨hpoint, (hlocked guards.target ?_).1⟩
      obtain ⟨before, point⟩ := config
      cases point with
      | preparing stage => exact hpoint.elim
      | guarded held stage =>
          obtain rfl : held = guards := hpoint
          exact Or.inr rfl
      | returned held result => cases hrunning

theorem ConsolidateRun.keeps (h : ConsolidateRun backupOf master duplicate config next)
    (hconfig : config.Consistent backupOf) (hpoint : config.point.Keeps guards) :
    next.point.Keeps guards ∧ next.volume.files guards.target = config.volume.files guards.target := by
  induction h with
  | refl => exact ⟨hpoint, rfl⟩
  | tail hrun hstep ih =>
      obtain ⟨hkeeps, hfile⟩ := hstep.keeps (ConsolidateRun.consistent hrun hconfig) ih.1
      exact ⟨hkeeps, hfile.trans ih.2⟩

/-- The content is at the place of the duplicate or at that of its backup. -/
def Available (backup : P) (guards : Guards P F) (volume : Volume P F) (content : List UInt8) : Prop :=
  ∃ path ∈ [guards.duplicate, backup], ∃ file, volume.names path = some file ∧
    (volume.files file).content = content

omit [DecidableEq P] [DecidableEq F] in
theorem available_of_consistent (hconfig : config.Consistent backupOf)
    (hpoint : config.point.Keeps guards) : Available (backupOf guards.duplicate) guards config.volume
      (config.volume.files guards.target).content := by
  obtain ⟨volume, point⟩ := config
  have hplace : volume.names guards.duplicate = some guards.target →
      Available (backupOf guards.duplicate) guards volume (volume.files guards.target).content :=
    fun h ↦ ⟨guards.duplicate, List.mem_cons_self, guards.target, h, rfl⟩
  have hbackup : volume.names (backupOf guards.duplicate) = some guards.target →
      Available (backupOf guards.duplicate) guards volume (volume.files guards.target).content :=
    fun h ↦ ⟨_, List.mem_cons_of_mem _ List.mem_cons_self, guards.target, h, rfl⟩
  cases point with
  | preparing stage => exact hpoint.elim
  | guarded held stage =>
      obtain rfl : held = guards := hpoint
      cases stage with
      | lengths => exact hplace hconfig.2
      | masterStreams | duplicateStreams | security | compare remaining | rename =>
          exact hplace hconfig.2.1
      | link | restore error => exact hbackup hconfig.2.1
      | delete => exact hbackup hconfig.2.1.2
  | returned held result =>
      obtain rfl : held = some guards := hpoint
      cases result with
      | ok done => exact ⟨guards.duplicate, List.mem_cons_self, guards.source, hconfig.1, hconfig.2.2⟩
      | error error =>
          cases error with
          | io error => exact hplace hconfig
          | invalid message => exact hplace hconfig
          | rollbackFailed error rollback path => exact hbackup hconfig.2
          | backupNotDeleted path error => exact hbackup hconfig.2.2.1

/-- From when both files are open, the content of the duplicate stays on the volume
through every call, whether it fails or not, and every change from elsewhere. The
result says where, and no other file loses a name. -/
theorem consolidate_never_loses {start : Volume P F} {guards : Guards P F} {stage : Stage ε}
    (hstart : ConsolidateRun backupOf master duplicate (consolidateStart start) config)
    (hopen : config.point = .guarded guards stage)
    (hrun : ConsolidateRun backupOf master duplicate config next) :
    next.volume.files guards.target = config.volume.files guards.target ∧
      Available (backupOf guards.duplicate) guards next.volume
        (config.volume.files guards.target).content ∧
      (∀ held result, next.point = .returned held result →
        Leaves (backupOf guards.duplicate) guards next.volume result) ∧
      ∀ fault after, consolidateStep backupOf master duplicate next fault = some after →
        after.volume.files = next.volume.files ∧ ∀ path file, next.volume.names path = some file →
          file ≠ guards.target → after.volume.names path = some file := by
  have hconfig : config.Consistent backupOf := ConsolidateRun.consistent hstart trivial
  have hkept : config.point.Keeps guards := by
    rw [hopen]
    rfl
  have hnext := ConsolidateRun.consistent hrun hconfig
  obtain ⟨hkeeps, hfile⟩ := ConsolidateRun.keeps hrun hconfig hkept
  refine ⟨hfile, ?_, fun held result hpoint ↦ ?_, fun fault after hcall ↦ ?_⟩
  · rw [← hfile]
    exact available_of_consistent hnext hkeeps
  · obtain ⟨volume, point⟩ := next
    obtain rfl : point = .returned held result := hpoint
    obtain rfl : held = some guards := hkeeps
    exact hnext
  · obtain ⟨volume, point⟩ := next
    cases point with
    | preparing stage => exact hkeeps.elim
    | guarded held stage =>
        obtain rfl : held = guards := hkeeps
        exact call_keeps hnext rfl hcall
    | returned held result => cases hcall

theorem consolidateRun_of_calls {faults : List (Option ε)}
    (h : faults.foldlM (consolidateStep backupOf master duplicate) config = some next) :
    ConsolidateRun backupOf master duplicate config next := by
  induction faults generalizing config with
  | nil =>
      obtain rfl := Option.some.inj h
      exact Relation.ReflTransGen.refl
  | cons fault faults ih =>
      obtain ⟨middle, hcall, hrest⟩ := Option.bind_eq_some_iff.mp h
      exact Relation.ReflTransGen.head (.call fault hcall) (ih hrest)

end Runs

/-- Two ordinary files of one byte. -/
def sampleVolume : Volume String Bool where
  symlinkMetadata path := if path = "a" ∨ path = "b" then some ⟨true, ⟨0x20⟩⟩ else none
  canonicalize := some
  names path := if path = "a" then some true else if path = "b" then some false else none
  files _ := ⟨⟨true, ⟨0x20⟩⟩, [7], ["::$DATA"], "D:"⟩

def sampleBackup (_ : String) : String := ".winblaze-link-backup-1-0"

/-- The link fails and the duplicate is moved back. -/
theorem consolidate_never_loses_rollback : ∃ config next,
    (List.replicate 6 none).foldlM (consolidateStep sampleBackup "a" "b")
      (consolidateStart sampleVolume) = some config ∧
    (List.replicate 7 none ++ [some "denied", none]).foldlM (consolidateStep sampleBackup "a" "b")
      config = some next ∧
    next.volume.names "b" = some false ∧
    Available ".winblaze-link-backup-1-0" ⟨"a", "b", true, false⟩ next.volume [7] := by
  have hcalls : ∃ config next,
      (List.replicate 6 none).foldlM (consolidateStep sampleBackup "a" "b")
        (consolidateStart sampleVolume) = some config ∧
      (List.replicate 7 none ++ [some "denied", none]).foldlM (consolidateStep sampleBackup "a" "b")
        config = some next ∧
      config.point = .guarded ⟨"a", "b", true, false⟩ .lengths ∧
      (config.volume.files false).content = [7] ∧
      next.point = .returned (some ⟨"a", "b", true, false⟩) (.error (.io "denied")) :=
    ⟨_, _, rfl, rfl, rfl, rfl, rfl⟩
  obtain ⟨config, next, hfirst, hsecond, hopen, hcontent, hreturned⟩ := hcalls
  obtain ⟨-, havailable, hleaves, -⟩ := consolidate_never_loses (consolidateRun_of_calls hfirst) hopen
    (consolidateRun_of_calls hsecond)
  exact ⟨config, next, hfirst, hsecond, hleaves _ _ hreturned, hcontent ▸ havailable⟩

end HardLinks

end WinBlaze
