import WinBlaze.Core.Model
import WinBlaze.Lib.IdMap
import WinBlaze.Lib.ParentChain
import WinBlaze.Lib.Saturating

/-!
# Totals of directories by walking up their ancestors

Every directory and every file adds to the totals of all directories above it.
The walk follows parent references until an id is unknown or has no parent.
The number of steps a walk may take is a parameter: a walk that needs more has
no result.
-/

namespace WinBlaze

open Saturating

structure DirectoryAggregation where
  directBytes : UInt64 := 0
  totalBytes : UInt64 := 0
  directEntries : UInt64 := 0
  totalEntries : UInt64 := 0
  deriving DecidableEq, Repr, Inhabited

abbrev ParentMap := IdMap DirectoryId (Option DirectoryId)

abbrev Aggregates := IdMap DirectoryId DirectoryAggregation

/-- The loop of both increments. The first directory takes `direct`, and every
directory takes `every`. -/
def incrementAncestors (direct every : DirectoryAggregation → DirectoryAggregation)
    (parentMap : ParentMap) : ℕ → Bool → DirectoryId → Aggregates → Option Aggregates
  | 0, _, _, _ => none
  | fuel + 1, isDirectEntry, current, aggregates =>
      match aggregates.find? current with
      | none => some aggregates
      | some aggregate =>
          let counted := every (if isDirectEntry then direct aggregate else aggregate)
          match (parentMap.find? current).join with
          | some parent =>
              incrementAncestors direct every parentMap fuel false parent
                (aggregates.set current counted)
          | none => some (aggregates.set current counted)

def incrementDirectoryEntryAggregation (fuel : ℕ) (parentMap : ParentMap) (current : DirectoryId)
    (aggregates : Aggregates) : Option Aggregates :=
  incrementAncestors
    (fun aggregate ↦ { aggregate with directEntries := satAdd aggregate.directEntries 1 })
    (fun aggregate ↦ { aggregate with totalEntries := satAdd aggregate.totalEntries 1 })
    parentMap fuel true current aggregates

def incrementFileAggregation (fuel : ℕ) (parentMap : ParentMap) (current : DirectoryId)
    (sizeBytes allocationBytes : UInt64) (aggregates : Aggregates) : Option Aggregates :=
  incrementAncestors
    (fun aggregate ↦ { aggregate with
      directBytes := satAdd aggregate.directBytes sizeBytes
      directEntries := satAdd aggregate.directEntries 1 })
    (fun aggregate ↦ { aggregate with
      totalEntries := satAdd aggregate.totalEntries 1
      totalBytes := satAdd aggregate.totalBytes allocationBytes })
    parentMap fuel true current aggregates

/-- Parents by id; the last record with an id decides. -/
def parentMapOf (directories : List DirectoryRecord) : ParentMap :=
  .ofPairs (directories.map fun directory ↦ (directory.id, directory.parentDirectoryId))

def emptyAggregates (directories : List DirectoryRecord) : Aggregates :=
  .ofPairs (directories.map fun directory ↦ (directory.id, {}))

def countDirectory (fuel : ℕ) (parentMap : ParentMap) (aggregates : Aggregates)
    (directory : DirectoryRecord) : Option Aggregates :=
  match directory.parentDirectoryId with
  | some parent => incrementDirectoryEntryAggregation fuel parentMap parent aggregates
  | none => some aggregates

def countFile (fuel : ℕ) (parentMap : ParentMap) (aggregates : Aggregates) (file : FileRecord) :
    Option Aggregates :=
  incrementFileAggregation fuel parentMap file.parentDirectoryId file.sizeBytes
    file.allocationBytes aggregates

def withAggregate (aggregates : Aggregates) (directory : DirectoryRecord) : DirectoryRecord :=
  match aggregates.find? directory.id with
  | some aggregate => { directory with
      directBytes := aggregate.directBytes
      totalBytes := aggregate.totalBytes
      directEntries := aggregate.directEntries
      totalEntries := aggregate.totalEntries }
  | none => directory

/-- `none` when a walk takes more than `fuel` steps. -/
def aggregateDirectoryRecords (fuel : ℕ) (directories : List DirectoryRecord)
    (files : List FileRecord) : Option (List DirectoryRecord) := do
  let parentMap := parentMapOf directories
  let aggregates ← directories.foldlM (countDirectory fuel parentMap) (emptyAggregates directories)
  let aggregates ← files.foldlM (countFile fuel parentMap) aggregates
  pure (directories.map (withAggregate aggregates))

/-! ## When the walks end -/

open ParentChain

/-- The parent the walk goes on to. -/
def parentOf (directories : List DirectoryRecord) (id : DirectoryId) : Option DirectoryId :=
  ((parentMapOf directories).find? id).join

/-- No directory is its own ancestor. -/
def NoParentCycle (directories : List DirectoryRecord) : Prop :=
  ∀ id, ¬ OnCycle (parentOf directories) id

/-- Totals are kept for exactly the ids of the given directories. -/
def KnowsIds (directories : List DirectoryRecord) (aggregates : Aggregates) : Prop :=
  ∀ id, aggregates.find? id = none ↔ id ∉ directories.map DirectoryRecord.id

theorem parentOf_eq_none {directories : List DirectoryRecord} {id : DirectoryId}
    (h : id ∉ directories.map DirectoryRecord.id) : parentOf directories id = none := by
  have hfind : (parentMapOf directories).find? id = none := by
    apply (IdMap.find?_ofPairs_eq_none_iff _ _).mpr
    rwa [List.map_map]
  rw [parentOf, hfind]
  rfl

/-- The parent comes from one of the records. -/
theorem exists_of_parentOf {directories : List DirectoryRecord} {id parent : DirectoryId}
    (h : parentOf directories id = some parent) :
    ∃ directory ∈ directories, directory.id = id ∧ directory.parentDirectoryId = some parent := by
  have hfind : (parentMapOf directories).find? id = some (some parent) :=
    Option.join_eq_some_iff.mp h
  obtain ⟨directory, hmem, heq⟩ := List.mem_map.mp (IdMap.mem_of_find?_ofPairs hfind)
  exact ⟨directory, hmem, congrArg Prod.fst heq, congrArg Prod.snd heq⟩

theorem knowsIds_emptyAggregates (directories : List DirectoryRecord) :
    KnowsIds directories (emptyAggregates directories) := by
  intro id
  rw [emptyAggregates, IdMap.find?_ofPairs_eq_none_iff, List.map_map]
  rfl

theorem KnowsIds.set {directories : List DirectoryRecord} {aggregates : Aggregates}
    (h : KnowsIds directories aggregates) {current : DirectoryId} {aggregate : DirectoryAggregation}
    (hfind : aggregates.find? current = some aggregate) (counted : DirectoryAggregation) :
    KnowsIds directories (aggregates.set current counted) := by
  intro id
  by_cases hid : id = current
  · subst hid
    have hknown : id ∈ directories.map DirectoryRecord.id := by
      by_contra hnot
      rw [(h id).mpr hnot] at hfind
      cases hfind
    rw [IdMap.find?_set_self]
    simp [hknown]
  · rw [IdMap.find?_set_of_ne aggregates counted hid]
    exact h id

section Walk

variable {directories : List DirectoryRecord} {direct every : DirectoryAggregation → DirectoryAggregation}

/-- A walk that ends keeps the known ids. -/
theorem KnowsIds.incrementAncestors {fuel : ℕ} {isDirectEntry : Bool} {current : DirectoryId}
    {aggregates result : Aggregates} (h : KnowsIds directories aggregates)
    (hwalk : incrementAncestors direct every (parentMapOf directories) fuel isDirectEntry current
      aggregates = some result) : KnowsIds directories result := by
  induction fuel generalizing isDirectEntry current aggregates with
  | zero => cases hwalk
  | succ fuel ih =>
      rw [WinBlaze.incrementAncestors] at hwalk
      cases hfind : aggregates.find? current with
      | none =>
          rw [hfind] at hwalk
          cases hwalk
          exact h
      | some aggregate =>
          simp only [hfind] at hwalk
          cases hparent : ((parentMapOf directories).find? current).join with
          | none =>
              simp only [hparent] at hwalk
              cases hwalk
              exact h.set hfind _
          | some parent =>
              simp only [hparent] at hwalk
              exact ih (h.set hfind _) hwalk

/-- A walk ends within its steps exactly when the chain of parents does. -/
theorem isSome_incrementAncestors_iff {aggregates : Aggregates}
    (h : KnowsIds directories aggregates) (fuel : ℕ) (isDirectEntry : Bool) (current : DirectoryId) :
    (incrementAncestors direct every (parentMapOf directories) fuel isDirectEntry current
        aggregates).isSome = true ↔ ancestor (parentOf directories) fuel current = none := by
  induction fuel generalizing isDirectEntry current aggregates with
  | zero => simp [incrementAncestors]
  | succ fuel ih =>
      rw [incrementAncestors]
      cases hfind : aggregates.find? current with
      | none =>
          have hnone := parentOf_eq_none ((h current).mp hfind)
          simp [ancestor_succ_of_none hnone]
      | some aggregate =>
          cases hparent : parentOf directories current with
          | none =>
              simp only [show ((parentMapOf directories).find? current).join = none from hparent]
              simp [ancestor_succ_of_none hparent]
          | some parent =>
              simp only [show ((parentMapOf directories).find? current).join = some parent
                from hparent]
              rw [ancestor_succ_of_some hparent]
              exact ih (h.set hfind _) false parent

end Walk

/-- A loop of walks, each started at an element's parent, if it has one. -/
theorem isSome_foldlM_walks {α : Type} {directories : List DirectoryRecord} (fuel : ℕ)
    {walk : Aggregates → α → Option Aggregates} {start : α → Option DirectoryId}
    (hkeeps : ∀ a aggregates result, KnowsIds directories aggregates →
      walk aggregates a = some result → KnowsIds directories result)
    (hwalk : ∀ a aggregates, KnowsIds directories aggregates →
      ((walk aggregates a).isSome = true ↔
        ∀ id, start a = some id → ancestor (parentOf directories) fuel id = none))
    (l : List α) {aggregates : Aggregates} (h : KnowsIds directories aggregates) :
    (l.foldlM walk aggregates).isSome = true ↔
      ∀ a ∈ l, ∀ id, start a = some id → ancestor (parentOf directories) fuel id = none := by
  induction l generalizing aggregates with
  | nil => simp
  | cons a rest ih =>
      rw [List.foldlM_cons, List.forall_mem_cons, ← hwalk a aggregates h]
      cases hresult : walk aggregates a with
      | none => simp
      | some result => simpa using ih (hkeeps a aggregates result h hresult)

theorem knowsIds_foldlM {α : Type} {directories : List DirectoryRecord}
    {walk : Aggregates → α → Option Aggregates}
    (hkeeps : ∀ a aggregates result, KnowsIds directories aggregates →
      walk aggregates a = some result → KnowsIds directories result)
    (l : List α) {aggregates result : Aggregates} (h : KnowsIds directories aggregates)
    (hfold : l.foldlM walk aggregates = some result) : KnowsIds directories result := by
  induction l generalizing aggregates with
  | nil =>
      cases hfold
      exact h
  | cons a rest ih =>
      rw [List.foldlM_cons] at hfold
      obtain ⟨middle, hmiddle, hrest⟩ := Option.bind_eq_some_iff.mp hfold
      exact ih (hkeeps a aggregates middle h hmiddle) hrest

section Aggregate

variable {directories : List DirectoryRecord} {fuel : ℕ}

theorem KnowsIds.countDirectory (directory : DirectoryRecord) (aggregates result : Aggregates)
    (h : KnowsIds directories aggregates)
    (hcount : countDirectory fuel (parentMapOf directories) aggregates directory = some result) :
    KnowsIds directories result := by
  rw [WinBlaze.countDirectory] at hcount
  cases hparent : directory.parentDirectoryId with
  | none =>
      rw [hparent] at hcount
      cases hcount
      exact h
  | some parent =>
      rw [hparent] at hcount
      exact h.incrementAncestors hcount

theorem isSome_countDirectory_iff (directory : DirectoryRecord) (aggregates : Aggregates)
    (h : KnowsIds directories aggregates) :
    (countDirectory fuel (parentMapOf directories) aggregates directory).isSome = true ↔
      ∀ id, directory.parentDirectoryId = some id →
        ancestor (parentOf directories) fuel id = none := by
  rw [countDirectory]
  cases hparent : directory.parentDirectoryId with
  | none => simp
  | some parent =>
      simp only [incrementDirectoryEntryAggregation, Option.some.injEq, forall_eq']
      exact isSome_incrementAncestors_iff h fuel true parent

theorem KnowsIds.countFile (file : FileRecord) (aggregates result : Aggregates)
    (h : KnowsIds directories aggregates)
    (hcount : countFile fuel (parentMapOf directories) aggregates file = some result) :
    KnowsIds directories result := h.incrementAncestors hcount

theorem isSome_countFile_iff (file : FileRecord) (aggregates : Aggregates)
    (h : KnowsIds directories aggregates) :
    (countFile fuel (parentMapOf directories) aggregates file).isSome = true ↔
      ∀ id, some file.parentDirectoryId = some id →
        ancestor (parentOf directories) fuel id = none := by
  rw [countFile, incrementFileAggregation, isSome_incrementAncestors_iff h]
  simp

/-- Aggregation ends within `fuel` steps a walk exactly when the chains above
all referenced parents do. -/
theorem isSome_aggregateDirectoryRecords_iff (files : List FileRecord) :
    (aggregateDirectoryRecords fuel directories files).isSome = true ↔
      (∀ directory ∈ directories, ∀ id, directory.parentDirectoryId = some id →
          ancestor (parentOf directories) fuel id = none) ∧
        ∀ file ∈ files, ancestor (parentOf directories) fuel file.parentDirectoryId = none := by
  have hempty := knowsIds_emptyAggregates directories
  have hdirectories := isSome_foldlM_walks fuel KnowsIds.countDirectory
    isSome_countDirectory_iff directories hempty
  rw [aggregateDirectoryRecords, ← hdirectories]
  cases hfold : directories.foldlM (countDirectory fuel (parentMapOf directories))
      (emptyAggregates directories) with
  | none => simp
  | some aggregates =>
      have hknows := knowsIds_foldlM KnowsIds.countDirectory directories hempty hfold
      have hfiles := isSome_foldlM_walks fuel KnowsIds.countFile
        isSome_countFile_iff files hknows
      simp only [Option.some.injEq, forall_eq'] at hfiles
      rw [← hfiles]
      cases hresult : files.foldlM (countFile fuel (parentMapOf directories)) aggregates <;>
        simp [hresult]

/-- Aggregation ends exactly when no directory is its own ancestor. -/
theorem aggregateDirectoryRecords_ends_iff (directories : List DirectoryRecord)
    (files : List FileRecord) :
    (∃ fuel, (aggregateDirectoryRecords fuel directories files).isSome = true) ↔
      NoParentCycle directories := by
  simp only [isSome_aggregateDirectoryRecords_iff]
  constructor
  · rintro ⟨fuel, hdirectories, -⟩ id hcycle
    obtain ⟨parent, hparent⟩ := hcycle.exists_next
    obtain ⟨directory, hmem, -, hreference⟩ := exists_of_parentOf hparent
    have hends : Ends (parentOf directories) parent := ⟨fuel, hdirectories directory hmem parent hreference⟩
    exact hcycle.not_ends ((ends_iff_of_some hparent).mpr hends)
  · intro hacyclic
    have hsupport : ∀ id parent, parentOf directories id = some parent →
        id ∈ directories.map DirectoryRecord.id := by
      intro id parent hparent
      obtain ⟨directory, hmem, rfl, -⟩ := exists_of_parentOf hparent
      exact List.mem_map_of_mem hmem
    have hends := (forall_ends_iff hsupport).mpr hacyclic
    obtain ⟨fuel, hfuel⟩ := exists_bound
      (directories.filterMap DirectoryRecord.parentDirectoryId ++
        files.map FileRecord.parentDirectoryId) fun id _ ↦ hends id
    refine ⟨fuel, fun directory hmem id hreference ↦ ?_, fun file hmem ↦ ?_⟩
    · apply hfuel
      exact List.mem_append_left _ (List.mem_filterMap.mpr ⟨directory, hmem, hreference⟩)
    · apply hfuel
      exact List.mem_append_right _ (List.mem_map_of_mem hmem)

end Aggregate

end WinBlaze
