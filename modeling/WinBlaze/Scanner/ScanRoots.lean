import Mathlib.Data.List.Basic
import Mathlib.Data.List.Infix

/-!
# Roots of scans

A path is normalized by pushing its components on an empty path, where `..` pops
one. A name that starts with a drive, and a `..` with nothing to remove before it,
lead elsewhere.
-/

namespace WinBlaze

namespace ScanRoots

def isSeparator (c : Char) : Bool := c = '\\' || c = '/'

def IsName (text : List Char) : Prop :=
  text ≠ [] ∧ text ≠ ['.'] ∧ text ≠ ['.', '.'] ∧ text.all (!isSeparator ·)

instance (text : List Char) : Decidable (IsName text) :=
  inferInstanceAs (Decidable (_ ∧ _ ∧ _ ∧ _))

/-- The name of a normal component. -/
abbrev Name := { text : List Char // IsName text }

/-- `Prefix` -/
inductive VolumePrefix
  | verbatim (text : List Char)
  | verbatimUnc (server share : List Char)
  | verbatimDisk (letter : Char)
  | deviceNs (device : List Char)
  | unc (server share : List Char)
  /-- A letter in upper case. -/
  | disk (letter : Char)
  deriving DecidableEq

namespace VolumePrefix

/-- Paths with such a prefix have a root without a separator behind it. -/
def hasImplicitRoot : VolumePrefix → Bool
  | deviceNs _ | unc _ _ => true
  | verbatim _ | verbatimUnc _ _ | verbatimDisk _ | disk _ => false

end VolumePrefix

/-- A component behind prefix and root. -/
inductive Part
  | curDir
  | parentDir
  | normal (name : Name)
  deriving DecidableEq

inductive Component
  | volumePrefix (volumePrefix : VolumePrefix)
  | rootDir
  | part (part : Part)

/-- Paths with equal components are equal. -/
structure Path where
  volumePrefix : Option VolumePrefix
  rooted : Bool
  parts : List Part
  implicitlyRooted : volumePrefix.any VolumePrefix.hasImplicitRoot = true → rooted = true
  deriving DecidableEq

/-! ## Texts as paths -/

/-- A drive at the start of a name, and what is behind its colon. -/
def driveOf (name : Name) : Option (Char × List Char) :=
  match name.val with
  | letter :: ':' :: rest => if letter.isAlpha then some (letter.toUpper, rest) else none
  | _ => none

/-- The components of a text without separators. -/
def partsOf (text : List Char) : List Part :=
  if h : IsName text then [.normal ⟨text, h⟩]
  else if text = ['.'] then [.curDir]
  else if text = ['.', '.'] then [.parentDir]
  else []

namespace Path

def empty : Path := ⟨none, false, [], fun h ↦ h⟩

def ofPrefix (volumePrefix : VolumePrefix) : Path :=
  ⟨some volumePrefix, volumePrefix.hasImplicitRoot, [], fun h ↦ h⟩

/-- The path of one separator. -/
def mainSeparator : Path := ⟨none, true, [], fun _ ↦ rfl⟩

def ofName (name : Name) : Path :=
  match driveOf name with
  | some (letter, rest) => ⟨some (.disk letter), false, partsOf rest, fun h ↦ h⟩
  | none => ⟨none, false, [.normal name], fun h ↦ h⟩

def components (path : Path) : List Component :=
  path.volumePrefix.toList.map .volumePrefix ++ (if path.rooted then [.rootDir] else []) ++
    path.parts.map .part

/-- A path with a prefix replaces what it is pushed on. -/
def push (base path : Path) : Path :=
  if path.volumePrefix.isSome then path
  else if path.rooted then ⟨base.volumePrefix, true, path.parts, fun _ ↦ rfl⟩
  else { base with parts := base.parts ++ path.parts }

/-- Nothing changes where the parent is none. -/
def pop (path : Path) : Path := { path with parts := path.parts.dropLast }

def addComponent (output : Path) : Component → Path
  | .volumePrefix volumePrefix => output.push (.ofPrefix volumePrefix)
  | .rootDir => output.push mainSeparator
  | .part .curDir => output
  | .part .parentDir => output.pop
  | .part (.normal name) => output.push (.ofName name)

end Path

def normalizeScanRoot (input : Path) : Path := input.components.foldl Path.addComponent .empty

/-! ## Where a path leads -/

/-- A place: names below a root, or below some parent of the current directory. -/
@[ext]
structure Location where
  volumePrefix : Option VolumePrefix
  rooted : Bool
  /-- How often the path goes up from the current directory. -/
  above : ℕ := 0
  names : List Name := []
  deriving DecidableEq

def Location.enter (place : Location) : Part → Location
  | .curDir => place
  | .parentDir =>
      if place.names ≠ [] then { place with names := place.names.dropLast }
      else if place.rooted then place
      else { place with above := place.above + 1 }
  | .normal name => { place with names := place.names ++ [name] }

def Path.location (path : Path) : Location :=
  path.parts.foldl Location.enter { volumePrefix := path.volumePrefix, rooted := path.rooted }

/-! ## One component at a time -/

/-- The loop behind prefix and root. -/
def addParts (output : Path) (parts : List Part) : Path :=
  parts.foldl (fun output part ↦ output.addComponent (.part part)) output

def Location.enterAll (place : Location) (parts : List Part) : Location := parts.foldl enter place

theorem normalizeScanRoot_eq (input : Path) :
    normalizeScanRoot input = addParts { input with parts := [] } input.parts := by
  obtain ⟨volumePrefix, rooted, parts, himplicit⟩ := input
  have hstart : (volumePrefix.toList.map Component.volumePrefix ++
      (if rooted then [Component.rootDir] else [])).foldl Path.addComponent .empty =
        ⟨volumePrefix, rooted, [], himplicit⟩ := by
    rcases volumePrefix with _ | volumePrefix
    · cases rooted <;> rfl
    · cases rooted with
      | true => rfl
      | false =>
          have hnone : volumePrefix.hasImplicitRoot = false := by simpa using himplicit
          simp [Path.addComponent, Path.push, Path.ofPrefix, hnone]
  rw [normalizeScanRoot, Path.components, List.foldl_append, hstart, List.foldl_map]
  rfl

theorem ofName_of_plain {name : Name} (h : driveOf name = none) :
    Path.ofName name = ⟨none, false, [.normal name], fun h ↦ h⟩ := by
  rw [Path.ofName, h]

theorem ofName_of_drive {name : Name} {letter : Char} {rest : List Char}
    (h : driveOf name = some (letter, rest)) :
    Path.ofName name = ⟨some (.disk letter), false, partsOf rest, fun h ↦ h⟩ := by
  rw [Path.ofName, h]

/-- No name of these components starts with a drive. -/
def Plain (parts : List Part) : Prop := ∀ name, .normal name ∈ parts → driveOf name = none

section Plain

variable {parts : List Part} {output : Path} {place : Location}

theorem addComponent_plain {name : Name} (h : driveOf name = none) (output : Path) :
    output.addComponent (.part (.normal name)) = { output with parts := output.parts ++ [.normal name] } := by
  simp [Path.addComponent, Path.push, ofName_of_plain h]

theorem names_enter_parentDir (place : Location) :
    (place.enter .parentDir).names = place.names.dropLast := by
  simp only [Location.enter]
  split
  · rfl
  · have hnone : place.names = [] := not_not.mp ‹_›
    split <;> simp [hnone]

/-- The path keeps the names that are kept on the way. -/
theorem addParts_plain (output : Path) (place : Location) (hplain : Plain parts)
    (hsame : output.parts = place.names.map .normal) :
    addParts output parts = { output with parts := (place.enterAll parts).names.map .normal } := by
  induction parts generalizing output place with
  | nil =>
      obtain ⟨volumePrefix, rooted, parts, himplicit⟩ := output
      exact congrArg (Path.mk volumePrefix rooted · himplicit) hsame
  | cons part parts ih =>
      have hrest : Plain parts := fun name h ↦ hplain name (List.mem_cons_of_mem _ h)
      cases part with
      | curDir => exact ih output place hrest hsame
      | parentDir =>
          refine ih output.pop (place.enter .parentDir) hrest ?_
          rw [names_enter_parentDir, Path.pop, hsame, List.map_dropLast]
      | normal name =>
          have hname := addComponent_plain (hplain name List.mem_cons_self) output
          refine (congrArg (addParts · parts) hname).trans
            (ih { output with parts := output.parts ++ [.normal name] } (place.enter (.normal name)) hrest ?_)
          rw [Location.enter, List.map_append, hsame]
          rfl

theorem mem_names_enterAll (place : Location) (parts : List Part) {name : Name}
    (h : name ∈ (place.enterAll parts).names) :
    name ∈ place.names ∨ .normal name ∈ parts := by
  induction parts generalizing place with
  | nil => exact .inl h
  | cons part parts ih =>
      rcases ih (place.enter part) h with h | h
      · cases part with
        | curDir => exact .inl h
        | parentDir =>
            rw [names_enter_parentDir] at h
            exact .inl (List.mem_of_mem_dropLast h)
        | normal added =>
            rcases List.mem_append.mp h with h | h
            · exact .inl h
            · exact .inr (List.mem_singleton.mp h ▸ List.mem_cons_self)
      · exact .inr (List.mem_cons_of_mem _ h)

theorem enterAll_names (place : Location) (names : List Name) :
    place.enterAll (names.map .normal) = { place with names := place.names ++ names } := by
  induction names generalizing place with
  | nil => simp [Location.enterAll]
  | cons name names ih =>
      refine (ih (place.enter (.normal name))).trans ?_
      simp [Location.enter]

end Plain

theorem fields_enterAll (place : Location) (parts : List Part) :
    (place.enterAll parts).volumePrefix = place.volumePrefix ∧
      (place.enterAll parts).rooted = place.rooted := by
  induction parts generalizing place with
  | nil => exact ⟨rfl, rfl⟩
  | cons part parts ih =>
      have hstep : (place.enter part).volumePrefix = place.volumePrefix ∧
          (place.enter part).rooted = place.rooted := by
        cases part with
        | curDir => exact ⟨rfl, rfl⟩
        | normal name => exact ⟨rfl, rfl⟩
        | parentDir =>
            simp only [Location.enter]
            split_ifs <;> exact ⟨rfl, rfl⟩
      exact ⟨(ih _).1.trans hstep.1, (ih _).2.trans hstep.2⟩

/-! ## Names with a drive -/

theorem exists_last_drive {parts : List Part} (h : ¬ Plain parts) :
    ∃ before name after drive, parts = before ++ .normal name :: after ∧ driveOf name = some drive ∧
      Plain after := by
  induction parts with
  | nil => exact absurd (fun _ h ↦ by cases h) h
  | cons part parts ih =>
      by_cases hrest : Plain parts
      · simp only [Plain, not_forall] at h
        obtain ⟨name, hmem, hdrive⟩ := h
        obtain ⟨drive, hdrive⟩ := Option.ne_none_iff_exists'.mp hdrive
        rcases List.mem_cons.mp hmem with rfl | hmem
        · exact ⟨[], name, parts, drive, rfl, hdrive, hrest⟩
        · exact absurd (hrest name hmem) (by simp [hdrive])
      · obtain ⟨before, name, after, drive, rfl, hdrive, hafter⟩ := ih hrest
        exact ⟨part :: before, name, after, drive, rfl, hdrive, hafter⟩

theorem length_partsOf_le (text : List Char) : (partsOf text).length ≤ 1 := by
  unfold partsOf
  split_ifs <;> simp

theorem addParts_drive {name : Name} {drive : Char × List Char} (h : driveOf name = some drive)
    (output : Path) (before after : List Part) :
    addParts output (before ++ .normal name :: after) = addParts (.ofName name) after := by
  have hpush : ∀ output : Path, output.addComponent (.part (.normal name)) = .ofName name := by
    intro output
    simp [Path.addComponent, Path.push, ofName_of_drive h]
  rw [addParts, List.foldl_append, List.foldl_cons, hpush]
  rfl

/-- The path lacks names of the place, since it began again with this one. -/
def Lags (name : Name) (output : Path) (place : Location) : Prop :=
  ∃ base first tail, base ≠ [] ∧ place.names = base ++ tail ∧
    output = { Path.ofName name with parts := first ++ tail.map .normal } ∧
    (first = [] ∨ first = (Path.ofName name).parts ∧ ∃ before, base = before ++ [name])

section Drives

variable {name : Name} {output : Path} {place : Location} {parts : List Part}

theorem Lags.names_ne_nil (h : Lags name output place) : place.names ≠ [] := by
  obtain ⟨base, first, tail, hbase, hnames, -⟩ := h
  simp [hnames, hbase]

theorem length_ofName_parts_le (name : Name) : (Path.ofName name).parts.length ≤ 1 := by
  unfold Path.ofName
  split
  · exact length_partsOf_le _
  · exact Nat.le_refl 1

/-- The path catches up with the place where no name is left. -/
theorem Lags.enter (h : Lags name output place) {part : Part} (hplain : Plain [part]) :
    ((place.enter part).names = [] →
      output.addComponent (.part part) = { Path.ofName name with parts := [] }) ∧
    ((place.enter part).names ≠ [] → Lags name (output.addComponent (.part part)) (place.enter part)) := by
  cases part with
  | curDir => exact ⟨fun hnone ↦ absurd hnone h.names_ne_nil, fun _ ↦ h⟩
  | normal added =>
      obtain ⟨base, first, tail, hbase, hnames, rfl, hfirst⟩ := h
      refine ⟨fun hnone ↦ ?_, fun _ ↦ ⟨base, first, tail ++ [added], hbase, ?_, ?_, hfirst⟩⟩
      · simp [Location.enter] at hnone
      · simp [Location.enter, hnames]
      · simp [addComponent_plain (hplain added List.mem_cons_self)]
  | parentDir =>
      obtain ⟨base, first, tail, hbase, hnames, rfl, hfirst⟩ := h
      rw [names_enter_parentDir, hnames]
      rcases List.eq_nil_or_concat tail with rfl | ⟨tail, last, rfl⟩
      · have hone : first.dropLast = [] := by
          rw [← List.length_eq_zero_iff, List.length_dropLast]
          have hlength := length_ofName_parts_le name
          rcases hfirst with rfl | ⟨rfl, -⟩
          · rfl
          · omega
        have hpop : ({ Path.ofName name with parts := first ++ [].map .normal } : Path).addComponent
            (.part .parentDir) = { Path.ofName name with parts := [] } := by
          simp [Path.addComponent, Path.pop, hone]
        refine ⟨fun _ ↦ hpop, fun hnone ↦ ⟨base.dropLast, [], [], ?_, ?_, hpop, .inl rfl⟩⟩
        · simpa using hnone
        · rw [names_enter_parentDir, hnames, List.append_nil, List.append_nil]
      · rw [List.concat_eq_append, ← List.append_assoc, List.dropLast_concat]
        refine ⟨fun hnone ↦ ?_, fun _ ↦ ⟨base, first, tail, hbase, ?_, ?_, hfirst⟩⟩
        · simp [hbase] at hnone
        · rw [names_enter_parentDir, hnames, List.concat_eq_append, ← List.append_assoc,
            List.dropLast_concat]
        · simp [Path.addComponent, Path.pop, List.dropLast_append_of_ne_nil]

/-- Whether some way into the path leaves no name. -/
def Empties (place : Location) (parts : List Part) : Prop :=
  ∃ init, init <+: parts ∧ (place.enterAll init).names = []

/-- Once no name is left, both keep the same ones, and none of the earlier ones. -/
theorem Lags.enterAll (h : Lags name output place) (hplain : Plain parts) :
    (Empties place parts → (∀ kept ∈ (place.enterAll parts).names, driveOf kept = none) ∧
      addParts output parts =
        { Path.ofName name with parts := (place.enterAll parts).names.map .normal }) ∧
    (¬ Empties place parts → Lags name (addParts output parts) (place.enterAll parts)) := by
  induction parts generalizing output place with
  | nil =>
      refine ⟨fun ⟨init, hinit, hnone⟩ ↦ ?_, fun _ ↦ h⟩
      rw [List.prefix_nil.mp hinit] at hnone
      exact absurd hnone h.names_ne_nil
  | cons part parts ih =>
      have hfirst : Plain [part] := fun name h ↦ hplain name (by simp_all)
      have hrest : Plain parts := fun name h ↦ hplain name (List.mem_cons_of_mem _ h)
      have hempties : Empties place (part :: parts) ↔ Empties (place.enter part) parts := by
        constructor
        · rintro ⟨init, hinit, hnone⟩
          rcases List.prefix_cons_iff.mp hinit with rfl | ⟨init, rfl, hbehind⟩
          · exact absurd hnone h.names_ne_nil
          · exact ⟨init, hbehind, hnone⟩
        · rintro ⟨init, hinit, hnone⟩
          exact ⟨part :: init, List.prefix_cons_iff.mpr (.inr ⟨init, rfl, hinit⟩), hnone⟩
      rw [hempties]
      by_cases hnone : (place.enter part).names = []
      · have hempty : Empties (place.enter part) parts := ⟨[], List.nil_prefix, hnone⟩
        refine ⟨fun _ ↦ ⟨fun kept hkept ↦ ?_, ?_⟩, fun hnever ↦ absurd hempty hnever⟩
        · rcases mem_names_enterAll (place.enter part) parts hkept with hkept | hkept
          · rw [hnone] at hkept
            cases hkept
          · exact hrest kept hkept
        · refine (congrArg (addParts · parts) ((h.enter hfirst).1 hnone)).trans ?_
          exact addParts_plain _ (place.enter part) hrest (by rw [hnone]; rfl)
      · exact ih ((h.enter hfirst).2 hnone) hrest

theorem location_eq (path : Path) (first : List Part) (tail : List Name) :
    ({ path with parts := first ++ tail.map .normal } : Path).location.names =
      ({ path with parts := first } : Path).location.names ++ tail := by
  have htail := enterAll_names ({ path with parts := first } : Path).location tail
  rw [Path.location, List.foldl_append]
  exact congrArg Location.names htail

theorem val_of_driveOf {drive : Char × List Char} (h : driveOf name = some drive) :
    name.val.length = drive.2.length + 2 := by
  unfold driveOf at h
  split at h
  case h_1 letter rest heq =>
    split at h
    · rw [heq, ← Option.some.inj h]
      rfl
    · cases h
  case h_2 => cases h

/-- Until then the path leads elsewhere. -/
theorem Lags.location_ne {drive : Char × List Char} (h : Lags name output place)
    (hdrive : driveOf name = some drive) : output.location.names ≠ place.names := by
  obtain ⟨base, first, tail, hbase, hnames, rfl, hfirst⟩ := h
  rw [location_eq, hnames, Ne, List.append_left_inj]
  intro hsame
  have hshort : ∀ kept ∈ base, kept.val = drive.2 := by
    intro kept hkept
    rw [← hsame] at hkept
    rcases hfirst with rfl | ⟨rfl, -⟩
    · cases hkept
    · rw [ofName_of_drive hdrive] at hkept
      simp only [partsOf] at hkept
      split_ifs at hkept
      · exact congrArg Subtype.val (List.mem_singleton.mp hkept)
      · cases hkept
      · cases hkept
      · cases hkept
  rcases hfirst with rfl | ⟨-, before, rfl⟩
  · exact hbase hsame.symm
  · have hlength := val_of_driveOf hdrive
    rw [hshort name List.mem_concat_self] at hlength
    omega

end Drives

/-! ## Roots that are kept -/

/-- No `..` goes above the current directory, and no name has a drive, or else all up
to the last of these are removed and it is the drive of a path without root. -/
structure KeepsPlace (input : Path) : Prop where
  notAbove : input.location.above = 0
  drives : Plain input.parts ∨
    ∃ before name after letter rest, input.parts = before ++ .normal name :: after ∧
      driveOf name = some (letter, rest) ∧ Plain after ∧
      input.rooted = false ∧ input.volumePrefix = some (.disk letter) ∧
      Empties (Path.location { input with parts := before ++ [.normal name] }) after

theorem location_normal (volumePrefix : Option VolumePrefix) (rooted : Bool) (names : List Name)
    (himplicit : volumePrefix.any VolumePrefix.hasImplicitRoot = true → rooted = true) :
    Path.location ⟨volumePrefix, rooted, names.map .normal, himplicit⟩ =
      { volumePrefix, rooted, names } :=
  (enterAll_names { volumePrefix, rooted } names).trans (by simp)

/-- A path of plain names is normal. -/
theorem normalizeScanRoot_normal (volumePrefix : Option VolumePrefix) (rooted : Bool)
    {names : List Name} (hplain : ∀ name ∈ names, driveOf name = none)
    (himplicit : volumePrefix.any VolumePrefix.hasImplicitRoot = true → rooted = true) :
    normalizeScanRoot ⟨volumePrefix, rooted, names.map .normal, himplicit⟩ =
      ⟨volumePrefix, rooted, names.map .normal, himplicit⟩ := by
  have hparts : Plain (names.map .normal) := by
    intro name hname
    obtain ⟨kept, hkept, heq⟩ := List.mem_map.mp hname
    cases heq
    exact hplain name hkept
  have hadd := addParts_plain ⟨volumePrefix, rooted, [], himplicit⟩ { volumePrefix, rooted } hparts rfl
  rw [enterAll_names] at hadd
  exact (normalizeScanRoot_eq _).trans (hadd.trans (by simp))

theorem normalizeScanRoot_plain {input : Path} (h : Plain input.parts) :
    normalizeScanRoot input = { input with parts := input.location.names.map .normal } ∧
      ∀ name ∈ input.location.names, driveOf name = none := by
  refine ⟨?_, fun name hname ↦ ?_⟩
  · exact (normalizeScanRoot_eq input).trans (addParts_plain { input with parts := [] }
      { volumePrefix := input.volumePrefix, rooted := input.rooted } h rfl)
  · rcases mem_names_enterAll _ input.parts hname with hname | hname
    · cases hname
    · exact h name hname

theorem location_fields (input : Path) : input.location.volumePrefix = input.volumePrefix ∧
    input.location.rooted = input.rooted := fields_enterAll _ input.parts

theorem normalizeScanRoot_drive {input : Path} {before after : List Part} {name : Name}
    {drive : Char × List Char} (hparts : input.parts = before ++ .normal name :: after)
    (hdrive : driveOf name = some drive) (hafter : Plain after) :
    (Empties (Path.location { input with parts := before ++ [.normal name] }) after →
      (∀ kept ∈ input.location.names, driveOf kept = none) ∧
      normalizeScanRoot input =
        { Path.ofName name with parts := input.location.names.map .normal }) ∧
    (¬ Empties (Path.location { input with parts := before ++ [.normal name] }) after →
      (normalizeScanRoot input).location ≠ input.location) := by
  have hplace : input.location =
      (Path.location { input with parts := before ++ [.normal name] }).enterAll after := by
    rw [Path.location, hparts, List.append_cons, List.foldl_append]
    rfl
  have hlags : Lags name (Path.ofName name)
      (Path.location { input with parts := before ++ [.normal name] }) := by
    refine ⟨(Path.location { input with parts := before }).names ++ [name], (Path.ofName name).parts, [],
      List.concat_ne_nil _ _, ?_, ?_, .inr ⟨rfl, _, rfl⟩⟩
    · exact (location_eq input before [name]).trans (List.append_nil _).symm
    · simp
  have hresult : normalizeScanRoot input = addParts (Path.ofName name) after := by
    rw [normalizeScanRoot_eq, hparts, addParts_drive hdrive]
  rw [hplace, hresult]
  refine ⟨(hlags.enterAll hafter).1, fun hnever hsame ↦ ?_⟩
  exact ((hlags.enterAll hafter).2 hnever).location_ne hdrive (congrArg Location.names hsame)

/-- What is left of a kept path are its names. -/
theorem KeepsPlace.normalized {input : Path} (h : KeepsPlace input) :
    normalizeScanRoot input = { input with parts := input.location.names.map .normal } ∧
      ∀ name ∈ input.location.names, driveOf name = none := by
  rcases h.drives with hplain | ⟨before, name, after, letter, rest, hparts, hdrive, hafter, hrooted,
    hvolume, hempties⟩
  · exact normalizeScanRoot_plain hplain
  · obtain ⟨hnames, hresult⟩ := (normalizeScanRoot_drive hparts hdrive hafter).1 hempties
    refine ⟨hresult.trans ?_, hnames⟩
    rw [ofName_of_drive hdrive]
    obtain ⟨volumePrefix, rooted, parts, himplicit⟩ := input
    obtain rfl : volumePrefix = some (.disk letter) := hvolume
    obtain rfl : rooted = false := hrooted
    rfl

/-- A path that is kept is normalized once and for all. -/
theorem normalizeScanRoot_iff (input : Path) :
    ((normalizeScanRoot input).location = input.location ∧
      normalizeScanRoot (normalizeScanRoot input) = normalizeScanRoot input) ↔ KeepsPlace input := by
  have hfields := location_fields input
  constructor
  · rintro ⟨hsame, -⟩
    by_cases hplain : Plain input.parts
    · rw [(normalizeScanRoot_plain hplain).1, location_normal] at hsame
      exact ⟨(congrArg Location.above hsame).symm, .inl hplain⟩
    · obtain ⟨before, name, after, drive, hparts, hdrive, hafter⟩ := exists_last_drive hplain
      have hrun := normalizeScanRoot_drive hparts hdrive hafter
      by_cases hempties : Empties (Path.location { input with parts := before ++ [.normal name] }) after
      · rw [(hrun.1 hempties).2, ofName_of_drive hdrive, location_normal] at hsame
        refine ⟨(congrArg Location.above hsame).symm,
          .inr ⟨before, name, after, drive.1, drive.2, hparts, hdrive, hafter, ?_, ?_, hempties⟩⟩
        · exact hfields.2.symm.trans (congrArg Location.rooted hsame).symm
        · exact hfields.1.symm.trans (congrArg Location.volumePrefix hsame).symm
      · exact absurd hsame (hrun.2 hempties)
  · intro h
    obtain ⟨hresult, hnames⟩ := h.normalized
    rw [hresult, location_normal]
    refine ⟨Location.ext hfields.1.symm hfields.2.symm h.notAbove.symm rfl, ?_⟩
    exact normalizeScanRoot_normal _ _ hnames _

/-- From the parent of the current directory the path falls into the directory itself. -/
theorem normalizeScanRoot_parent :
    let foo : Name := ⟨"foo".toList, by decide⟩
    normalizeScanRoot ⟨none, false, [.parentDir, .normal foo], fun h ↦ h⟩ =
        ⟨none, false, [.normal foo], fun h ↦ h⟩ ∧
      (normalizeScanRoot ⟨none, false, [.parentDir, .normal foo], fun h ↦ h⟩).location ≠
        Path.location ⟨none, false, [.parentDir, .normal foo], fun h ↦ h⟩ := by
  decide

/-! ## What is scanned -/

structure VolumeRootCandidate where
  normalizedPath : Path
  rootPath : Path
  driveLetter : Option Char
  isUnc : Bool
  isLongPath : Bool

inductive ScanBackend
  | ntfsMft
  | directoryWalk
  deriving DecidableEq

structure ScanAccessPlan where
  requestedRoot : Path
  selectedRoot : Path
  rootCandidate : Option VolumeRootCandidate
  primaryBackend : ScanBackend
  fallbackBackend : ScanBackend
  availableDriveRoots : List Path

def volumeRoot (volumePrefix : VolumePrefix) : Path := ⟨some volumePrefix, true, [], fun _ ↦ rfl⟩

section Plan

-- Whether a text is long is no matter of its components.
variable (isLongPath : Path → Bool)

def discoverVolumeRoot (path : Path) : Option VolumeRootCandidate :=
  let normalizedPath := normalizeScanRoot path
  match normalizedPath.volumePrefix with
  | some (.disk letter) | some (.verbatimDisk letter) =>
      some ⟨normalizedPath, volumeRoot (.disk letter.toUpper), some letter.toUpper, false, isLongPath path⟩
  | some (.unc server share) | some (.verbatimUnc server share) =>
      some ⟨normalizedPath, volumeRoot (.unc server share), none, true, isLongPath path⟩
  | _ => none

def requestsVolumeRoot (candidate : Option VolumeRootCandidate) : Bool :=
  candidate.any fun candidate ↦ candidate.normalizedPath = candidate.rootPath

def buildScanAccessPlan (availableDriveRoots : List Path) (root : Path)
    (preferredBackend : ScanBackend) : ScanAccessPlan :=
  let normalizedRoot := normalizeScanRoot root
  let rootCandidate := discoverVolumeRoot isLongPath normalizedRoot
  let requestedVolumeRoot := requestsVolumeRoot rootCandidate
  { requestedRoot := root
    selectedRoot :=
      if normalizedRoot = .empty then availableDriveRoots.head?.getD (volumeRoot (.disk 'C'))
      else if requestedVolumeRoot then (rootCandidate.map (·.rootPath)).getD normalizedRoot
      else normalizedRoot
    rootCandidate
    primaryBackend :=
      if preferredBackend = .ntfsMft ∧ requestedVolumeRoot then .ntfsMft else .directoryWalk
    fallbackBackend := .directoryWalk
    availableDriveRoots }

variable (availableDriveRoots : List Path) {root : Path} (preferredBackend : ScanBackend)

theorem normalizedPath_of_discoverVolumeRoot {path : Path} {candidate : VolumeRootCandidate}
    (h : discoverVolumeRoot isLongPath path = some candidate) :
    candidate.normalizedPath = normalizeScanRoot path := by
  simp only [discoverVolumeRoot] at h
  split at h <;> cases h <;> rfl

/-- A kept path is scanned where it leads, unless it leads to the current directory. -/
theorem selectedRoot_location (h : KeepsPlace root) (hnonempty : normalizeScanRoot root ≠ .empty) :
    (buildScanAccessPlan isLongPath availableDriveRoots root preferredBackend).selectedRoot.location =
      root.location := by
  obtain ⟨hlocation, hidempotent⟩ := (normalizeScanRoot_iff root).mpr h
  rw [← hlocation]
  apply congrArg Path.location
  simp only [buildScanAccessPlan, if_neg hnonempty]
  split
  case isFalse => rfl
  case isTrue hrequested =>
    obtain ⟨candidate, hcandidate, hroot⟩ := (Option.any_eq_true _ _).mp hrequested
    have hnormalized := normalizedPath_of_discoverVolumeRoot isLongPath hcandidate
    rw [hcandidate, Option.map_some, Option.getD_some, ← of_decide_eq_true hroot, hnormalized, hidempotent]

theorem requestsVolumeRoot_iff (path : Path) :
    requestsVolumeRoot (discoverVolumeRoot isLongPath path) = true ↔
      (∃ letter : Char, letter.toUpper = letter ∧ normalizeScanRoot path = volumeRoot (.disk letter)) ∨
        ∃ server share, normalizeScanRoot path = volumeRoot (.unc server share) := by
  have hvolume : ∀ volumePrefix, normalizeScanRoot path = volumeRoot volumePrefix →
      (normalizeScanRoot path).volumePrefix = some volumePrefix := fun _ h ↦ h ▸ rfl
  constructor
  · intro h
    obtain ⟨candidate, hcandidate, hroot⟩ := (Option.any_eq_true _ _).mp h
    have hsame := of_decide_eq_true hroot
    rw [normalizedPath_of_discoverVolumeRoot isLongPath hcandidate] at hsame
    simp only [discoverVolumeRoot] at hcandidate
    split at hcandidate <;> cases hcandidate
    case h_1 letter heq =>
      have hletter := Option.some.inj (heq.symm.trans (hvolume _ hsame))
      exact .inl ⟨letter, (VolumePrefix.disk.inj hletter).symm, hsame.trans (by rw [← hletter])⟩
    case h_2 letter heq => cases Option.some.inj (heq.symm.trans (hvolume _ hsame))
    case h_3 server share heq => exact .inr ⟨server, share, hsame⟩
    case h_4 server share heq => cases Option.some.inj (heq.symm.trans (hvolume _ hsame))
  · rintro (⟨letter, hupper, hsame⟩ | ⟨server, share, hsame⟩)
    · simp [requestsVolumeRoot, discoverVolumeRoot, hsame, volumeRoot, hupper]
    · simp [requestsVolumeRoot, discoverVolumeRoot, hsame, volumeRoot]

/-- Only the root of a volume is read from its file table. -/
theorem primaryBackend_iff (h : KeepsPlace root) :
    (buildScanAccessPlan isLongPath availableDriveRoots root preferredBackend).primaryBackend = .ntfsMft ↔
      preferredBackend = .ntfsMft ∧ ∃ volumePrefix,
        root.location = { volumePrefix := some volumePrefix, rooted := true } ∧
        ((∃ letter : Char, letter.toUpper = letter ∧ volumePrefix = .disk letter) ∨
          ∃ server share, volumePrefix = .unc server share) := by
  have hidempotent := ((normalizeScanRoot_iff root).mpr h).2
  have hroot : ∀ volumePrefix, normalizeScanRoot root = volumeRoot volumePrefix ↔
      root.location = { volumePrefix := some volumePrefix, rooted := true } := by
    intro volumePrefix
    obtain ⟨hvolume, hrooted⟩ := location_fields root
    rw [h.normalized.1, volumeRoot, Path.mk.injEq, Location.ext_iff]
    simp only [hvolume, hrooted, h.notAbove, List.map_eq_nil_iff, true_and]
  have hbackend : (buildScanAccessPlan isLongPath availableDriveRoots root preferredBackend).primaryBackend =
      .ntfsMft ↔ preferredBackend = .ntfsMft ∧
        requestsVolumeRoot (discoverVolumeRoot isLongPath (normalizeScanRoot root)) = true := by
    simp only [buildScanAccessPlan]
    split <;> simp [*]
  rw [hbackend, requestsVolumeRoot_iff, hidempotent]
  simp only [hroot]
  refine and_congr_right fun _ ↦ ⟨?_, ?_⟩
  · rintro (⟨letter, hupper, hlocation⟩ | ⟨server, share, hlocation⟩)
    · exact ⟨_, hlocation, .inl ⟨letter, hupper, rfl⟩⟩
    · exact ⟨_, hlocation, .inr ⟨server, share, rfl⟩⟩
  · rintro ⟨_, hlocation, ⟨letter, hupper, rfl⟩ | ⟨server, share, rfl⟩⟩
    · exact .inl ⟨letter, hupper, hlocation⟩
    · exact .inr ⟨server, share, hlocation⟩

end Plan

end ScanRoots

end WinBlaze
