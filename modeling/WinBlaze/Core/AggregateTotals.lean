import WinBlaze.Core.Aggregate

/-!
# What the ancestor walks add up to

Each walk adds a share to the totals of the directories it passes, so the
totals of a directory are the saturating sum of the shares of everything whose
walk passes it.
-/

namespace WinBlaze

open ParentChain Saturating

/-! ## Adding aggregations -/

namespace DirectoryAggregation

instance instAddDirectoryAggregation : Add DirectoryAggregation where
  add a b := {
    directBytes := satAdd a.directBytes b.directBytes
    totalBytes := satAdd a.totalBytes b.totalBytes
    directEntries := satAdd a.directEntries b.directEntries
    totalEntries := satAdd a.totalEntries b.totalEntries }

instance instZeroDirectoryAggregation : Zero DirectoryAggregation where
  zero := {}

theorem ext_fields {a b : DirectoryAggregation} (hdirectBytes : a.directBytes = b.directBytes)
    (htotalBytes : a.totalBytes = b.totalBytes) (hdirectEntries : a.directEntries = b.directEntries)
    (htotalEntries : a.totalEntries = b.totalEntries) : a = b := by
  cases a
  cases b
  simp_all

theorem add_eq (a b : DirectoryAggregation) : a + b = {
    directBytes := satAdd a.directBytes b.directBytes
    totalBytes := satAdd a.totalBytes b.totalBytes
    directEntries := satAdd a.directEntries b.directEntries
    totalEntries := satAdd a.totalEntries b.totalEntries } := rfl

theorem zero_eq : (0 : DirectoryAggregation) = {} := rfl

theorem add_comm (a b : DirectoryAggregation) : a + b = b + a :=
  ext_fields (satAdd_comm _ _) (satAdd_comm _ _) (satAdd_comm _ _) (satAdd_comm _ _)

theorem add_assoc (a b c : DirectoryAggregation) : a + b + c = a + (b + c) :=
  ext_fields (satAdd_assoc _ _ _) (satAdd_assoc _ _ _) (satAdd_assoc _ _ _) (satAdd_assoc _ _ _)

theorem add_zero (a : DirectoryAggregation) : a + 0 = a :=
  ext_fields (satAdd_zero _) (satAdd_zero _) (satAdd_zero _) (satAdd_zero _)

instance instAddCommMonoidDirectoryAggregation : AddCommMonoid DirectoryAggregation where
  add_assoc := add_assoc
  zero_add a := (add_comm 0 a).trans a.add_zero
  add_zero := add_zero
  add_comm := add_comm
  nsmul := nsmulRec

end DirectoryAggregation

/-! ## One walk -/

open Classical in
/-- What a walk from `start` adds to the totals of `top`. -/
noncomputable def walkShare (directories : List DirectoryRecord) (direct every : DirectoryAggregation)
    (isDirectEntry : Bool) (top start : DirectoryId) : DirectoryAggregation :=
  (if isDirectEntry = true ∧ start = top then direct else 0) +
    if Above (parentOf directories) top start then every else 0

section Walk

variable {directories : List DirectoryRecord} {direct every : DirectoryAggregation}

theorem walkShare_self (isDirectEntry : Bool) (id : DirectoryId) :
    walkShare directories direct every isDirectEntry id id =
      (if isDirectEntry = true then direct else 0) + every := by
  simp [walkShare, above_self]

theorem walkShare_parent (isDirectEntry : Bool) {top current parent : DirectoryId}
    (hparent : parentOf directories current = some parent) (hne : current ≠ top) :
    walkShare directories direct every isDirectEntry top current =
      walkShare directories direct every false top parent := by
  have habove := above_iff_of_some hparent hne
  rw [walkShare, walkShare, propext habove]
  simp [hne]

theorem walkShare_top (isDirectEntry : Bool) {top current : DirectoryId}
    (hparent : parentOf directories current = none) (hne : current ≠ top) :
    walkShare directories direct every isDirectEntry top current = 0 := by
  simp [walkShare, hne, above_iff_of_none hparent]

/-- A walk adds its share to every directory and changes nothing else. -/
theorem find?_incrementAncestors (hacyclic : NoParentCycle directories) {fuel : ℕ}
    {isDirectEntry : Bool} {current : DirectoryId} {aggregates result : Aggregates}
    (h : KnowsIds directories aggregates)
    (hwalk : incrementAncestors (· + direct) (· + every) (parentMapOf directories) fuel
      isDirectEntry current aggregates = some result) (id : DirectoryId) :
    result.find? id = (aggregates.find? id).map
      (· + walkShare directories direct every isDirectEntry id current) := by
  induction fuel generalizing isDirectEntry current aggregates with
  | zero => cases hwalk
  | succ fuel ih =>
      rw [incrementAncestors] at hwalk
      cases hfind : aggregates.find? current with
      | none =>
          rw [hfind] at hwalk
          cases hwalk
          have hparent := parentOf_eq_none ((h current).mp hfind)
          by_cases hid : current = id
          · simp [← hid, hfind]
          · simp [walkShare_top isDirectEntry hparent hid]
      | some aggregate =>
          simp only [hfind] at hwalk
          have hcounted : (if isDirectEntry = true then aggregate + direct else aggregate) + every =
              aggregate + ((if isDirectEntry = true then direct else 0) + every) := by
            cases isDirectEntry <;> simp [add_assoc]
          cases hparent : ((parentMapOf directories).find? current).join with
          | none =>
              simp only [hparent] at hwalk
              cases hwalk
              by_cases hid : current = id
              · subst hid
                rw [IdMap.find?_set_self, hfind, Option.map_some, walkShare_self, hcounted]
              · simp [IdMap.find?_set_of_ne _ _ (Ne.symm hid), walkShare_top isDirectEntry hparent hid]
          | some parent =>
              simp only [hparent] at hwalk
              rw [ih (h.set hfind _) hwalk]
              by_cases hid : current = id
              · subst hid
                -- The walk does not come back to where it has been.
                have habove := not_above_parent (hacyclic current) hparent
                have hrest : walkShare directories direct every false current parent = 0 := by
                  simp [walkShare, habove]
                rw [IdMap.find?_set_self, hfind, hrest, Option.map_some, Option.map_some,
                  walkShare_self, hcounted, add_zero]
              · rw [IdMap.find?_set_of_ne _ _ (Ne.symm hid),
                  walkShare_parent isDirectEntry hparent hid]

end Walk

/-! ## All walks -/

section Walks

variable {directories : List DirectoryRecord}

/-- A loop of walks adds up their shares. -/
theorem find?_foldlM_walks {α : Type} {walk : Aggregates → α → Option Aggregates}
    {share : α → DirectoryAggregation} (id : DirectoryId)
    (hkeeps : ∀ a aggregates result, KnowsIds directories aggregates →
      walk aggregates a = some result → KnowsIds directories result)
    (hwalk : ∀ a aggregates result, KnowsIds directories aggregates →
      walk aggregates a = some result → result.find? id = (aggregates.find? id).map (· + share a))
    (l : List α) {aggregates result : Aggregates} (h : KnowsIds directories aggregates)
    (hfold : l.foldlM walk aggregates = some result) :
    result.find? id = (aggregates.find? id).map (· + (l.map share).sum) := by
  induction l generalizing aggregates with
  | nil =>
      cases hfold
      simp
  | cons a rest ih =>
      rw [List.foldlM_cons] at hfold
      obtain ⟨middle, hmiddle, hrest⟩ := Option.bind_eq_some_iff.mp hfold
      rw [ih (hkeeps a aggregates middle h hmiddle) hrest, hwalk a aggregates middle h hmiddle,
        Option.map_map]
      simp [Function.comp_def, add_assoc]

/-- What a directory adds to the totals of `top`. -/
noncomputable def directoryShare (directories : List DirectoryRecord) (top : DirectoryId)
    (directory : DirectoryRecord) : DirectoryAggregation :=
  match directory.parentDirectoryId with
  | some parent => walkShare directories { directEntries := 1 } { totalEntries := 1 } true top parent
  | none => 0

/-- What a file adds to the totals of `top`. -/
noncomputable def fileShare (directories : List DirectoryRecord) (top : DirectoryId)
    (file : FileRecord) : DirectoryAggregation :=
  walkShare directories { directBytes := file.sizeBytes, directEntries := 1 }
    { totalBytes := file.allocationBytes, totalEntries := 1 } true top file.parentDirectoryId

theorem find?_countDirectory (hacyclic : NoParentCycle directories) {fuel : ℕ} (id : DirectoryId)
    (directory : DirectoryRecord) (aggregates result : Aggregates)
    (h : KnowsIds directories aggregates)
    (hcount : countDirectory fuel (parentMapOf directories) aggregates directory = some result) :
    result.find? id = (aggregates.find? id).map (· + directoryShare directories id directory) := by
  rw [countDirectory] at hcount
  rw [directoryShare]
  cases hparent : directory.parentDirectoryId with
  | none =>
      rw [hparent] at hcount
      cases hcount
      simp
  | some parent =>
      rw [hparent] at hcount
      have hwalk : incrementAncestors (· + { directEntries := 1 }) (· + { totalEntries := 1 })
          (parentMapOf directories) fuel true parent aggregates = some result := by
        refine .trans ?_ hcount
        simp only [incrementDirectoryEntryAggregation, DirectoryAggregation.add_eq, satAdd_zero]
      exact find?_incrementAncestors hacyclic h hwalk id

theorem find?_countFile (hacyclic : NoParentCycle directories) {fuel : ℕ} (id : DirectoryId)
    (file : FileRecord) (aggregates result : Aggregates) (h : KnowsIds directories aggregates)
    (hcount : countFile fuel (parentMapOf directories) aggregates file = some result) :
    result.find? id = (aggregates.find? id).map (· + fileShare directories id file) := by
  have hwalk : incrementAncestors (· + { directBytes := file.sizeBytes, directEntries := 1 })
      (· + { totalBytes := file.allocationBytes, totalEntries := 1 }) (parentMapOf directories) fuel
      true file.parentDirectoryId aggregates = some result := by
    refine .trans ?_ hcount
    simp only [countFile, incrementFileAggregation, DirectoryAggregation.add_eq, satAdd_zero]
  exact find?_incrementAncestors hacyclic h hwalk id

/-- The totals of a directory, as the walks leave them. -/
noncomputable def aggregateOf (directories : List DirectoryRecord) (files : List FileRecord)
    (top : DirectoryId) : DirectoryAggregation :=
  (directories.map (directoryShare directories top)).sum + (files.map (fileShare directories top)).sum

theorem aggregateDirectoryRecords_eq (hacyclic : NoParentCycle directories) {fuel : ℕ}
    {files : List FileRecord} {aggregated : List DirectoryRecord}
    (h : aggregateDirectoryRecords fuel directories files = some aggregated) :
    aggregated = directories.map fun directory ↦ { directory with
      directBytes := (aggregateOf directories files directory.id).directBytes
      totalBytes := (aggregateOf directories files directory.id).totalBytes
      directEntries := (aggregateOf directories files directory.id).directEntries
      totalEntries := (aggregateOf directories files directory.id).totalEntries } := by
  obtain ⟨middle, hmiddle, hrest⟩ := Option.bind_eq_some_iff.mp h
  obtain ⟨last, hlast, hresult⟩ := Option.bind_eq_some_iff.mp hrest
  have hempty := knowsIds_emptyAggregates directories
  have hknown := knowsIds_foldlM KnowsIds.countDirectory directories hempty hmiddle
  obtain rfl := Option.some.inj hresult
  refine List.map_congr_left fun directory hdirectory ↦ ?_
  have hzero : (emptyAggregates directories).find? directory.id = some 0 := by
    obtain ⟨aggregate, haggregate⟩ := Option.ne_none_iff_exists'.mp fun hnone ↦
      (hempty directory.id).mp hnone (List.mem_map_of_mem hdirectory)
    obtain ⟨_, _, heq⟩ := List.mem_map.mp (IdMap.mem_of_find?_ofPairs haggregate)
    rw [haggregate, ← (Prod.mk.inj heq).2]
    rfl
  have hdirectories := find?_foldlM_walks directory.id KnowsIds.countDirectory
    (fun directory aggregates result ↦ find?_countDirectory hacyclic _ directory aggregates result)
    directories hempty hmiddle
  have hfiles := find?_foldlM_walks directory.id KnowsIds.countFile
    (fun file aggregates result ↦ find?_countFile hacyclic _ file aggregates result)
    files hknown hlast
  rw [hdirectories, hzero, Option.map_some, Option.map_some, zero_add] at hfiles
  simp only [withAggregate, hfiles, aggregateOf]

/-! ## The values -/

/-- The directories that are directly in a directory. -/
def directoriesIn (directories : List DirectoryRecord) (top : DirectoryId) : List DirectoryRecord :=
  directories.filter fun directory ↦ directory.parentDirectoryId = some top

def filesIn (files : List FileRecord) (top : DirectoryId) : List FileRecord :=
  files.filter fun file ↦ file.parentDirectoryId = top

open Classical in
/-- The directories anywhere in a directory. -/
noncomputable def directoriesBelow (directories : List DirectoryRecord) (top : DirectoryId) :
    List DirectoryRecord :=
  directories.filter fun directory ↦
    ∃ parent, directory.parentDirectoryId = some parent ∧ Above (parentOf directories) top parent

open Classical in
noncomputable def filesBelow (directories : List DirectoryRecord) (files : List FileRecord)
    (top : DirectoryId) : List FileRecord :=
  files.filter fun file ↦ Above (parentOf directories) top file.parentDirectoryId

theorem sum_map_ite_zero {α : Type*} (l : List α) (p : α → Prop) [DecidablePred p] (f : α → ℕ) :
    (l.map fun a ↦ if p a then f a else 0).sum = ((l.filter p).map f).sum := by
  simp [List.sum_map_ite]

/-- A field of the totals is the saturating sum of that field of all shares. -/
theorem toNat_field_aggregateOf (field : DirectoryAggregation → UInt64) (hzero : field 0 = 0)
    (hadd : ∀ a b, field (a + b) = satAdd (field a) (field b)) (files : List FileRecord)
    (top : DirectoryId) :
    (field (aggregateOf directories files top)).toNat =
      min ((directories.map fun directory ↦ (field (directoryShare directories top directory)).toNat).sum +
        (files.map fun file ↦ (field (fileShare directories top file)).toNat).sum) maxValue := by
  rw [aggregateOf, hadd, toNat_satAdd, toNat_sum field hzero hadd, toNat_sum field hzero hadd,
    List.map_map, List.map_map]
  simp only [Function.comp_def]
  omega

open Classical in
theorem fileShare_eq (file : FileRecord) (top : DirectoryId) :
    fileShare directories top file = {
      directBytes := if file.parentDirectoryId = top then file.sizeBytes else 0
      totalBytes := if Above (parentOf directories) top file.parentDirectoryId then
        file.allocationBytes else 0
      directEntries := if file.parentDirectoryId = top then 1 else 0
      totalEntries := if Above (parentOf directories) top file.parentDirectoryId then 1 else 0 } := by
  unfold fileShare walkShare
  apply DirectoryAggregation.ext_fields
  all_goals
    simp only [DirectoryAggregation.add_eq, true_and]
    split_ifs <;> simp [DirectoryAggregation.zero_eq]

open Classical in
theorem directoryShare_eq (directory : DirectoryRecord) (top : DirectoryId) :
    directoryShare directories top directory = {
      directEntries := if directory.parentDirectoryId = some top then 1 else 0
      totalEntries := if ∃ parent, directory.parentDirectoryId = some parent ∧
        Above (parentOf directories) top parent then 1 else 0 } := by
  unfold directoryShare
  cases directory.parentDirectoryId with
  | none => simp [DirectoryAggregation.zero_eq]
  | some parent =>
      simp only [Option.some.injEq, exists_eq_left']
      unfold walkShare
      apply DirectoryAggregation.ext_fields
      all_goals
        simp only [DirectoryAggregation.add_eq, true_and]
        split_ifs <;> simp [DirectoryAggregation.zero_eq]

theorem toNat_ite (p : Prop) [Decidable p] (a : UInt64) :
    (if p then a else 0).toNat = if p then a.toNat else 0 := by
  split <;> rfl

theorem totalBytes_aggregateOf (files : List FileRecord) (top : DirectoryId) :
    (aggregateOf directories files top).totalBytes.toNat =
      min ((filesBelow directories files top).map fun file ↦ file.allocationBytes.toNat).sum
        maxValue := by
  classical
  rw [toNat_field_aggregateOf DirectoryAggregation.totalBytes rfl fun _ _ ↦ rfl]
  simp [directoryShare_eq, fileShare_eq, toNat_ite, sum_map_ite_zero, filesBelow]

theorem totalEntries_aggregateOf (files : List FileRecord) (top : DirectoryId) :
    (aggregateOf directories files top).totalEntries.toNat =
      min ((directoriesBelow directories top).length + (filesBelow directories files top).length)
        maxValue := by
  classical
  rw [toNat_field_aggregateOf DirectoryAggregation.totalEntries rfl fun _ _ ↦ rfl]
  simp [directoryShare_eq, fileShare_eq, toNat_ite, sum_map_ite_zero, filesBelow, directoriesBelow]

theorem directEntries_aggregateOf (files : List FileRecord) (top : DirectoryId) :
    (aggregateOf directories files top).directEntries.toNat =
      min ((directoriesIn directories top).length + (filesIn files top).length) maxValue := by
  rw [toNat_field_aggregateOf DirectoryAggregation.directEntries rfl fun _ _ ↦ rfl]
  simp [directoryShare_eq, fileShare_eq, toNat_ite, sum_map_ite_zero, filesIn, directoriesIn]

end Walks

end WinBlaze
