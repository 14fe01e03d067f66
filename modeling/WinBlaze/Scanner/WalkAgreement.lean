import WinBlaze.Scanner.DirectoryProgress
import WinBlaze.Scanner.SequentialWalk

/-!
# The fallback walk agrees with the sequential one

A walk that has ended is at a pool with no work left, and what such a pool has
put out is given by the tree.
-/

namespace WinBlaze

def WalkEvent.directory? : WalkEvent → Option DirectoryRecord
  | directory record => some record
  | file _ => none

def WalkEvent.file? : WalkEvent → Option FileRecord
  | directory _ => none
  | file record => some record

/-- The directories of some events. -/
def directoriesOf (events : List WalkEvent) : List DirectoryRecord :=
  events.filterMap WalkEvent.directory?

def filesOf (events : List WalkEvent) : List FileRecord := events.filterMap WalkEvent.file?

/-- The path of the directory that was emitted with an id. -/
def pathOfId (events : List WalkEvent) (id : DirectoryId) : Option String :=
  ((directoriesOf events).find? (fun record ↦ record.id = id)).map DirectoryRecord.fullPath

/-- The path of each directory, and that of its parent. -/
def directoryPlaces (events : List WalkEvent) : List (String × Option String) :=
  (directoriesOf events).map (fun record ↦
    (record.fullPath, record.parentDirectoryId.bind (pathOfId events)))

/-- The parent's path, the name and the logical size of each file. -/
def filePlaces (events : List WalkEvent) : List (Option String × String × UInt64) :=
  (filesOf events).map (fun record ↦
    (pathOfId events record.parentDirectoryId, record.name, record.sizeBytes))

/-- No two directories and no two files have one id, and every parent is one of
the directories. -/
structure ProperlyNumbered (events : List WalkEvent) : Prop where
  directories : ((directoriesOf events).map DirectoryRecord.id).Nodup
  files : ((filesOf events).map FileRecord.id).Nodup
  directoryParents : ∀ record ∈ directoriesOf events, ∀ parent ∈ record.parentDirectoryId,
    parent ∈ (directoriesOf events).map DirectoryRecord.id
  fileParents : ∀ record ∈ filesOf events,
    record.parentDirectoryId ∈ (directoriesOf events).map DirectoryRecord.id

variable {P N : Type*} [DecidableEq P]

/-- What a walk of a tree comes to. -/
structure WalkView.Describes (source : WalkSource P N)
    (allocation : UInt64 × BitVec 128 → UInt64) (depth : ℕ) (root : Visit P) (view : WalkView) :
    Prop where
  directories : (directoryPlaces view.events : Multiset (String × Option String)) =
    (source.displayPath root.path, none) ::ₘ (source.treeDirectories depth root).map
      (fun place ↦ (source.displayPath place.1, some (source.displayPath place.2)))
  files : (filePlaces view.events : Multiset (Option String × String × UInt64)) =
    (source.treeFiles depth root).map
      (fun place ↦ (some (source.displayPath place.1), source.displayName place.2.name,
        place.2.sizeBytes))
  numbered : ProperlyNumbered view.events
  directoriesSeen : view.directoriesSeen.toNat = 1 + (source.treeDirectories depth root).card
  filesSeen : view.filesSeen.toNat = (source.treeFiles depth root).card
  totalSizeBytes : view.totalSizeBytes.toNat =
    ((source.treeFiles depth root).map (fun file ↦ file.2.sizeBytes.toNat)).sum
  totalAllocationBytes : view.totalAllocationBytes.toNat =
    physicalBytes allocation ((source.treeFiles depth root).map Prod.snd)

/-- The root as it is emitted before the walk. -/
def rootEvent (source : WalkSource P N) (path : P) (name : String) : WalkEvent :=
  .directory (directoryRecord source 5 none path name)

/-- The task of the root. -/
def rootTask (root : Visit P) : FallbackTask P where
  path := root.path
  directoryId := ⟨5⟩
  ancestors := root.ancestors

/-! ## Ids and paths -/

theorem pathOfId_of_mem {events : List WalkEvent}
    (hnodup : ((directoriesOf events).map DirectoryRecord.id).Nodup) {record : DirectoryRecord}
    (hmem : record ∈ directoriesOf events) : pathOfId events record.id = some record.fullPath := by
  have hsome : ((directoriesOf events).find? (fun other ↦ other.id = record.id)).isSome := by
    simp only [List.find?_isSome, decide_eq_true_eq]
    exact ⟨record, hmem, rfl⟩
  obtain ⟨other, hother⟩ := Option.isSome_iff_exists.mp hsome
  have hid : other.id = record.id := by simpa using List.find?_some hother
  have hsame : other = record :=
    List.inj_on_of_nodup_map hnodup (List.mem_of_find?_eq_some hother) hmem hid
  simp only [pathOfId, hother, hsame, Option.map_some]

theorem filterMap_eq_zero {α β : Type*} {f : α → Option β} (h : ∀ a, f a = none) (s : Multiset α) :
    s.filterMap f = 0 := by
  refine Multiset.eq_zero_of_forall_notMem fun b hb ↦ ?_
  obtain ⟨a, -, hsome⟩ := (Multiset.mem_filterMap _ _).mp hb
  rw [h a] at hsome
  cases hsome

section Final

variable {source : WalkSource P N} {root : Visit P} {name : String}
  {allocation : UInt64 × BitVec 128 → UInt64} {depth : ℕ}
  {claims : Set (UInt64 × BitVec 128) → Prop} {view : WalkView} {pool : WalkPool P N}

/-- A walk that holds nothing any more. -/
abbrev Finished (source : WalkSource P N) (root : Visit P) (name : String)
    (claims : Set (UInt64 × BitVec 128) → Prop) (view : WalkView) (pool : WalkPool P N) : Prop :=
  RefinesAt source (rootTask root) (rootEvent source root.path name) claims view 0 pool

namespace Finished

theorem events_eq (h : Finished source root name claims view pool) :
    (view.events : Multiset WalkEvent) =
      rootEvent source root.path name ::ₘ pool.events source := by
  have hevents := congrArg Held.records h.total
  rwa [add_zero] at hevents

theorem directoriesOf_eq (h : Finished source root name claims view pool) :
    (directoriesOf view.events : Multiset DirectoryRecord) =
      directoryRecord source 5 none root.path name ::ₘ
        (pool.directoryRecords source : Multiset DirectoryRecord) := by
  have hfiles : Multiset.filterMap WalkEvent.directory?
      ((pool.fileRecords source).map WalkEvent.file) = 0 := by
    rw [Multiset.filterMap_map]
    exact filterMap_eq_zero (fun _ ↦ rfl) _
  have hdirectories : Multiset.filterMap WalkEvent.directory?
      ((pool.directoryRecords source).map WalkEvent.directory : List WalkEvent) =
        (pool.directoryRecords source : Multiset DirectoryRecord) := by
    rw [← Multiset.map_coe, Multiset.filterMap_map]
    exact Multiset.filterMap_some _
  rw [directoriesOf, ← Multiset.filterMap_coe, h.events_eq, rootEvent,
    Multiset.filterMap_cons_some WalkEvent.directory? _ _ rfl, WalkPool.events,
    Multiset.filterMap_add, hfiles, hdirectories, zero_add]

theorem filesOf_eq (h : Finished source root name claims view pool) :
    (filesOf view.events : Multiset FileRecord) = pool.fileRecords source := by
  have hfiles : Multiset.filterMap WalkEvent.file?
      ((pool.fileRecords source).map WalkEvent.file) = pool.fileRecords source := by
    rw [Multiset.filterMap_map]
    exact Multiset.filterMap_some _
  have hdirectories : Multiset.filterMap WalkEvent.file?
      ((pool.directoryRecords source).map WalkEvent.directory : List WalkEvent) = 0 := by
    rw [← Multiset.map_coe, Multiset.filterMap_map]
    exact filterMap_eq_zero (fun _ ↦ rfl) _
  rw [filesOf, ← Multiset.filterMap_coe, h.events_eq, rootEvent,
    Multiset.filterMap_cons_none _ _ rfl, WalkPool.events, Multiset.filterMap_add, hfiles,
    hdirectories, add_zero]

theorem parts_eq (h : Finished source root name claims view pool) : pool.parts = 0 :=
  (congrArg Held.parts h.total).symm

/-- The directory of a task was emitted with its path. -/
theorem exists_named (h : Finished source root name claims view pool) {task : FallbackTask P}
    (hnames : pool.Names (rootTask root) task) :
    ∃ record ∈ directoriesOf view.events,
      record.id = task.directoryId ∧ record.fullPath = source.displayPath task.path := by
  have hmem : ∀ record, record ∈ directoriesOf view.events ↔
      record = directoryRecord source 5 none root.path name ∨
        record ∈ pool.directoryRecords source := by
    intro record
    rw [← Multiset.mem_coe, h.directoriesOf_eq, Multiset.mem_cons, Multiset.mem_coe]
  rcases hnames with ⟨hid, hpath⟩ | ⟨index, found, hfound, hid, hpath⟩
  · exact ⟨_, (hmem _).mpr (Or.inl rfl), hid.symm, congrArg _ hpath.symm⟩
  · have hrecord : WalkPool.recordAt source (found, index) ∈ pool.directoryRecords source :=
      List.mem_map_of_mem (List.mem_zipIdx_iff_getElem?.mpr hfound)
    exact ⟨_, (hmem _).mpr (Or.inr hrecord), hid.symm, congrArg _ hpath.symm⟩

variable (hwalk : source.Bounded allocation depth root)

include hwalk

theorem accounted (h : Finished source root name claims view pool) :
    pool.Accounted source allocation depth (rootTask root) :=
  h.reachable.accounted hwalk

theorem treeFiles_eq (h : Finished source root name claims view pool) :
    source.treeFiles depth root =
      pool.files.map (fun file ↦ (file.1.task.path, file.1.entry)) := by
  have hfiles := (h.accounted hwalk).files
  have hnone : pool.remaining source fileOf depth = 0 := by simp [WalkPool.remaining, h.parts_eq]
  rw [hnone, add_zero] at hfiles
  exact hfiles.symm

theorem treeDirectories_eq (h : Finished source root name claims view pool) :
    source.treeDirectories depth root =
      ((pool.directories.map (fun found ↦ (found.path, found.parent.path)) : List (P × P)) :
        Multiset (P × P)) := by
  have hdirectories := (h.accounted hwalk).directories
  have hnone : pool.remaining source directoryOf depth = 0 := by
    simp [WalkPool.remaining, h.parts_eq]
  rw [hnone, add_zero, WalkPool.gathered_directoryOf] at hdirectories
  exact hdirectories.symm

theorem nodup_directoryIds (h : Finished source root name claims view pool) :
    ((directoriesOf view.events).map DirectoryRecord.id).Nodup := by
  have hids : ((directoriesOf view.events).map DirectoryRecord.id : Multiset DirectoryId) =
      ⟨5⟩ ::ₘ (Multiset.range pool.directories.length).map directoryIdAt := by
    have hrecords : (pool.directoryRecords source).map DirectoryRecord.id =
        (List.range pool.directories.length).map directoryIdAt := by
      rw [List.range_eq_range', ← List.zipIdx_map_snd, List.map_map, WalkPool.directoryRecords,
        List.map_map]
      rfl
    rw [← Multiset.map_coe, h.directoriesOf_eq, Multiset.map_cons, Multiset.map_coe, hrecords]
    rfl
  have hlt := hwalk.fits.directories
  rw [h.treeDirectories_eq hwalk] at hlt
  simp only [Multiset.coe_card, List.length_map] at hlt
  rw [← Multiset.coe_nodup, hids, Multiset.nodup_cons]
  constructor
  · intro hmem
    obtain ⟨index, hindex, hid⟩ := Multiset.mem_map.mp hmem
    have hval := congrArg (fun id : DirectoryId ↦ id.val.toNat) hid
    rw [Multiset.mem_range] at hindex
    simp only [directoryIdAt, UInt64.toNat_ofNat'] at hval
    have hfive : (5 : UInt64).toNat = 5 := rfl
    omega
  · refine Multiset.Nodup.map_on (fun first hfirst second hsecond hid ↦ ?_) (Multiset.nodup_range _)
    have hval := congrArg (fun id : DirectoryId ↦ id.val.toNat) hid
    rw [Multiset.mem_range] at hfirst hsecond
    simp only [directoryIdAt, UInt64.toNat_ofNat'] at hval
    omega

theorem nodup_fileIds (h : Finished source root name claims view pool) :
    ((filesOf view.events).map FileRecord.id).Nodup := by
  have hids : ((filesOf view.events).map FileRecord.id : Multiset FileId) =
      (Multiset.range pool.issued).map (fun index ↦ ⟨fileIdAt index⟩) := by
    have haccount := (h.accounted hwalk).fileIds
    simp only [WalkPool.fileIds, h.parts_eq, Multiset.map_zero, Multiset.sum_zero, add_zero] at haccount
    have hvals := congrArg (Multiset.map FileId.mk) haccount
    rw [Multiset.map_map, Multiset.map_map] at hvals
    rw [← Multiset.map_coe, h.filesOf_eq, WalkPool.fileRecords, Multiset.map_map]
    exact hvals
  have hlt := hwalk.fits.files
  have hle : pool.issued ≤ (source.treeFiles depth root).card := (h.accounted hwalk).issued_le
  rw [← Multiset.coe_nodup, hids]
  refine Multiset.Nodup.map_on (fun first hfirst second hsecond hid ↦ ?_) (Multiset.nodup_range _)
  have hval := congrArg (fun id : FileId ↦ id.val.toNat) hid
  rw [Multiset.mem_range] at hfirst hsecond
  simp only [fileIdAt, UInt64.toNat_ofNat'] at hval
  omega

theorem pathOfId_task (h : Finished source root name claims view pool) {task : FallbackTask P}
    (hnames : pool.Names (rootTask root) task) :
    pathOfId view.events task.directoryId = some (source.displayPath task.path) ∧
      task.directoryId ∈ (directoriesOf view.events).map DirectoryRecord.id := by
  obtain ⟨record, hrecord, hid, hpath⟩ := h.exists_named hnames
  have hfind := pathOfId_of_mem (h.nodup_directoryIds hwalk) hrecord
  rw [hid, hpath] at hfind
  exact ⟨hfind, hid ▸ List.mem_map_of_mem hrecord⟩

theorem directoryPlaces_eq (h : Finished source root name claims view pool) :
    (directoryPlaces view.events : Multiset (String × Option String)) =
      (source.displayPath root.path, none) ::ₘ (source.treeDirectories depth root).map
        (fun place ↦ (source.displayPath place.1, some (source.displayPath place.2))) := by
  have hfound : (pool.directoryRecords source).map (fun record ↦
        (record.fullPath, record.parentDirectoryId.bind (pathOfId view.events))) =
      pool.directories.map (fun found ↦
        (source.displayPath found.path, some (source.displayPath found.parent.path))) := by
    rw [WalkPool.directoryRecords, List.map_map]
    conv_rhs => rw [← List.zipIdx_map_fst 0 pool.directories]
    rw [List.map_map]
    refine List.map_congr_left fun found hmem ↦ ?_
    have hparent := List.fst_mem_of_mem_zipIdx hmem
    have hnames := (h.accounted hwalk).named.directories _ hparent
    have hpath := (h.pathOfId_task hwalk hnames).1
    simp only [Function.comp_apply, WalkPool.recordAt, directoryRecord, Option.bind_some, hpath]
  rw [directoryPlaces, ← Multiset.map_coe, h.directoriesOf_eq, Multiset.map_cons, Multiset.map_coe,
    hfound, h.treeDirectories_eq hwalk, Multiset.map_coe, List.map_map]
  rfl

theorem filePlaces_eq (h : Finished source root name claims view pool) :
    (filePlaces view.events : Multiset (Option String × String × UInt64)) =
      (source.treeFiles depth root).map
        (fun place ↦ (some (source.displayPath place.1), source.displayName place.2.name,
          place.2.sizeBytes)) := by
  rw [filePlaces, ← Multiset.map_coe, h.filesOf_eq, h.treeFiles_eq hwalk, WalkPool.fileRecords,
    Multiset.map_map, Multiset.map_map]
  refine Multiset.map_congr rfl fun file hfile ↦ ?_
  have hpath := (h.pathOfId_task hwalk ((h.accounted hwalk).named.files file hfile)).1
  simp only [Function.comp_apply, fileRecord, hpath]

theorem properlyNumbered (h : Finished source root name claims view pool) :
    ProperlyNumbered view.events where
  directories := h.nodup_directoryIds hwalk
  files := h.nodup_fileIds hwalk
  directoryParents := by
    intro record hrecord parent hparent
    rw [← Multiset.mem_coe, h.directoriesOf_eq, Multiset.mem_cons, Multiset.mem_coe] at hrecord
    rcases hrecord with rfl | hrecord
    · cases hparent
    · obtain ⟨found, hfound, rfl⟩ := List.mem_map.mp hrecord
      obtain rfl := Option.some.inj hparent
      have hmem := List.fst_mem_of_mem_zipIdx hfound
      exact (h.pathOfId_task hwalk ((h.accounted hwalk).named.directories _ hmem)).2
  fileParents := by
    intro record hrecord
    rw [← Multiset.mem_coe, h.filesOf_eq] at hrecord
    obtain ⟨file, hfile, rfl⟩ := Multiset.mem_map.mp hrecord
    exact (h.pathOfId_task hwalk ((h.accounted hwalk).named.files file hfile)).2

omit hwalk in
/-- What a finished walk comes to is given by the tree. -/
theorem describes (hwalk : source.Walkable allocation depth root)
    (h : Finished source root name claims view pool) : view.Describes source allocation depth root := by
  have htotal := h.total
  simp only [add_zero, Held.ext_iff, WalkView.published, WalkPool.total] at htotal
  obtain ⟨-, -, hdirectories, hfiles, hlogical, hphysical⟩ := htotal
  have hbounded := hwalk.bounded
  refine ⟨h.directoryPlaces_eq hbounded, h.filePlaces_eq hbounded, h.properlyNumbered hbounded,
    ?_, ?_, ?_, ?_⟩
  · simp [hdirectories, h.treeDirectories_eq hbounded]
  · simp [hfiles, h.treeFiles_eq hbounded]
  · simp [hlogical, h.treeFiles_eq hbounded]
  · rw [hphysical, h.reachable.physical hwalk, h.treeFiles_eq hbounded, Multiset.map_map]
    rfl

end Finished

/-- A pool with the root as its only work, before anything is claimed. -/
theorem initial_refines (claims : Set (UInt64 × BitVec 128) → Prop) (hclaims : claims ∅)
    (hview : view = { events := [rootEvent source root.path name], nextDirectoryId := 6,
                      nextFileId := 1, directoriesSeen := 1, filesSeen := 0,
                      totalSizeBytes := 0, totalAllocationBytes := 0 }) :
    Refines source (rootTask root) (rootEvent source root.path name) claims view
      (.part (.directory (rootTask root))) := by
  subst hview
  refine ⟨.initial (rootTask root), .refl, ?_, rfl, rfl, ?_⟩
  · refine Held.ext ?_ ?_ rfl rfl rfl rfl
    · simp [WalkView.published, Held.part, WalkPool.total, WalkPool.initial]
    · simp [WalkView.published, Held.part, WalkPool.total, WalkPool.initial, WalkPool.events,
        WalkPool.fileRecords, WalkPool.directoryRecords]
  · have hnone : claimedIdentities (0 : Multiset (NumberedFile P N × UInt64)) = ∅ := by
      ext identity
      simp [claimedIdentities]
    exact hnone.symm ▸ hclaims

/-- The sequential walk of a tree ends at a pool with no work left. -/
theorem exists_finished_walkDirectoryTree (orders : ℕ → IterationOrder)
    (hwalk : source.Bounded allocation depth root) (name : String) :
    ∃ state, walkDirectoryTree source orders depth root.path ⟨5⟩ root.ancestors
        (.new (rootEvent source root.path name)) = some state ∧
      ∃ claims pool, Finished source root name claims state.view pool := by
  have hstart : (DirectoryWalkState.new (rootEvent source root.path name)).At source (rootTask root)
      (rootEvent source root.path name) (.part (.directory (rootTask root)) + 0) := by
    rw [add_zero]
    exact initial_refines _ TrackedVolumes.represents_empty rfl
  obtain ⟨state, hstate, pool, hpool⟩ :=
    hstart.walk orders hwalk depth hwalk.finite
  exact ⟨state, hstate, _, pool, hpool⟩

end Final

/-- The state in which a fallback walk starts. -/
abbrev FallbackReachable (source : WalkSource P N) (root : Visit P) (name : String) (workerLimit : ℕ)
    (walk : FallbackWalk FallbackShared (FallbackTotals N) (FallbackTask P) (DirectoryJob P N)) :
    Prop :=
  FallbackWalk.Reachable (directoryProcessing source) workerLimit {}
    (.initial (rootEvent source root.path name)) (rootTask root) walk

section Fallback

variable {source : WalkSource P N} {allocation : UInt64 × BitVec 128 → UInt64} {depth : ℕ}
  {root : Visit P} {name : String} {workerLimit : ℕ}
  {walk : FallbackWalk FallbackShared (FallbackTotals N) (FallbackTask P) (DirectoryJob P N)}

/-- A fallback walk starts with the root as its only work. -/
theorem keeps_initial (hwalk : source.Bounded allocation depth (rootTask root).visit) :
    (poolAccount hwalk (rootEvent source root.path name)).Keeps
      (.initial (rootEvent source root.path name)) (FallbackTask.held (rootTask root)) :=
  fun _ ↦ initial_refines _ (FallbackShared.claims_initial _) rfl

/-- A fallback walk whose workers are all done has ended at a pool with no work left. -/
theorem FallbackReachable.exists_pool (hwalk : source.Bounded allocation depth root)
    (hreach : FallbackReachable source root name workerLimit walk)
    (hlive : walk.shared.cancelled = false) (hdone : ∀ worker ∈ walk.workers, worker.phase = .done) :
    ∃ claims pool, Finished source root name claims walk.shared.view pool := by
  have hidle : FallbackTotals.Idle ({} : FallbackTotals N) := ⟨rfl, rfl, rfl, rfl⟩
  have hvisit : source.Bounded allocation depth (rootTask root).visit := hwalk
  have htasks : walk.queue.tasks = [] := by
    have hcount := hreach.consistent.outstanding
    obtain ⟨worker, hworker⟩ := List.exists_mem_of_ne_nil _ hreach.consistent.nonempty
    have hzero := hreach.consistent.done worker hworker (hdone worker hworker)
    exact List.length_eq_zero_iff.mp (by omega)
  have hkeeps := (Account.holds_of_reachable hidle (keeps_initial hvisit) hreach).keeps
  rw [Account.Holds.total_eq_zero htasks hdone] at hkeeps
  obtain ⟨pool, hpool⟩ := hkeeps hlive
  exact ⟨_, pool, hpool⟩

end Fallback

/-- In a static tree and for any limit of workers, a fallback walk that is not
cancelled can come to its end from every state it reaches. When all its workers
are done, it has emitted the same directories and files as the sequential walk,
counted the same, and given every record an id of its own and the id of its
parent. -/
theorem fallback_agrees_with_sequential (source : WalkSource P N)
    (allocation : UInt64 × BitVec 128 → UInt64) (depth : ℕ) (root : Visit P) (name : String)
    (orders : ℕ → IterationOrder) (workerLimit : ℕ)
    (walk : FallbackWalk FallbackShared (FallbackTotals N) (FallbackTask P) (DirectoryJob P N))
    (hwalk : source.Walkable allocation depth root)
    (hreach : FallbackReachable source root name workerLimit walk)
    (hlive : walk.shared.cancelled = false) :
    (∃ final, Relation.ReflTransGen (FallbackStep (directoryProcessing source) workerLimit {})
        walk final ∧
      final.shared.cancelled = false ∧ ∀ worker ∈ final.workers, worker.phase = .done) ∧
    ((∀ worker ∈ walk.workers, worker.phase = .done) →
      ∃ state, walkDirectoryTree source orders depth root.path ⟨5⟩ root.ancestors
          (.new (rootEvent source root.path name)) = some state ∧
        (directoryPlaces walk.shared.events).Perm (directoryPlaces state.events) ∧
        (filePlaces walk.shared.events).Perm (filePlaces state.events) ∧
        walk.shared.filesSeen = state.filesSeen ∧
        walk.shared.directoriesSeen = state.directoriesSeen ∧
        walk.shared.totalSizeBytes = state.totalSizeBytes ∧
        walk.shared.totalAllocationBytes = state.totalAllocationBytes ∧
        ProperlyNumbered walk.shared.events ∧ ProperlyNumbered state.events) := by
  have hidle : FallbackTotals.Idle ({} : FallbackTotals N) := ⟨rfl, rfl, rfl, rfl⟩
  have hvisit : source.Bounded allocation depth (rootTask root).visit := hwalk.bounded
  refine ⟨hreach.exists_finished (directoryProgress hvisit _) hidle (keeps_initial hvisit) hlive,
    fun hdone ↦ ?_⟩
  obtain ⟨_, pool, hpool⟩ := hreach.exists_pool hwalk.bounded hlive hdone
  have hfallback := hpool.describes hwalk
  obtain ⟨state, hstate, _, other, hother⟩ := exists_finished_walkDirectoryTree orders hwalk.bounded name
  have hsequential := hother.describes hwalk
  refine ⟨state, hstate, ?_, ?_, ?_, ?_, ?_, ?_, hfallback.numbered, hsequential.numbered⟩
  · exact Multiset.coe_eq_coe.mp (hfallback.directories.trans hsequential.directories.symm)
  · exact Multiset.coe_eq_coe.mp (hfallback.files.trans hsequential.files.symm)
  · exact UInt64.toNat_inj.mp (hfallback.filesSeen.trans hsequential.filesSeen.symm)
  · exact UInt64.toNat_inj.mp (hfallback.directoriesSeen.trans hsequential.directoriesSeen.symm)
  · exact UInt64.toNat_inj.mp (hfallback.totalSizeBytes.trans hsequential.totalSizeBytes.symm)
  · exact UInt64.toNat_inj.mp
      (hfallback.totalAllocationBytes.trans hsequential.totalAllocationBytes.symm)

/-- A directory with two names of one file and a directory that is empty. -/
def linkedSource : WalkSource String String where
  readDir path :=
    if path = "r" then
      some [some (linkedEntry "a" false), some (linkedEntry "d" true), some (linkedEntry "b" false)]
    else none
  canonicalize _ := none
  stripVerbatimPrefix path := path
  join path name := path ++ name
  displayPath path := path
  displayName name := name
  isVolumePath _ := false
  allows _ _ := true
  policy := .skipAll
where
  linkedEntry (name : String) (directory : Bool) : FindEntry String :=
    { name := name, attributes := if directory then .directory else .archive, sizeBytes := 10,
      allocationBytes := 4096, physicalIdentity := some (7, 1), createdUtc := 0, modifiedUtc := 0,
      accessedUtc := 0 }

theorem linkedSource_walkable : linkedSource.Walkable (fun _ ↦ 4096) 2 ⟨"r", []⟩ where
  finite := by
    intro outcome houtcome child hchild
    have hitems : linkedSource.tree.items ⟨"r", []⟩ =
        [.file (linkedSource.linkedEntry "a" false), .directory "rd" "d" (.follow []),
          .file (linkedSource.linkedEntry "b" false)] := rfl
    rw [hitems] at houtcome
    simp only [List.mem_cons, List.not_mem_nil, or_false] at houtcome
    rcases houtcome with rfl | rfl | rfl
    · cases hchild
    · obtain rfl : (⟨"rd", []⟩ : Visit String) = child := Option.some.inj hchild
      exact fun outcome houtcome ↦ nomatch houtcome
    · cases hchild
  allocated := by
    have hfiles : linkedSource.treeFiles 2 ⟨"r", []⟩ =
        {("r", linkedSource.linkedEntry "a" false), ("r", linkedSource.linkedEntry "b" false)} := rfl
    intro file hfile identity _
    rw [hfiles] at hfile
    rcases Multiset.mem_cons.mp hfile with rfl | hfile
    · rfl
    · obtain rfl := Multiset.mem_singleton.mp hfile
      rfl
  fits := ⟨by decide, by decide, by decide, by decide⟩

theorem fallback_agrees_with_sequential_linked :
    ∃ walk, FallbackReachable linkedSource ⟨"r", []⟩ "r" 4 walk ∧
      (∀ worker ∈ walk.workers, worker.phase = .done) ∧ walk.shared.cancelled = false ∧
      ∃ state, walkDirectoryTree linkedSource (fun _ ↦ id) 2 "r" ⟨5⟩ []
          (.new (rootEvent linkedSource "r" "r")) = some state ∧
        (filePlaces walk.shared.events).Perm (filePlaces state.events) ∧
        walk.shared.totalAllocationBytes = state.totalAllocationBytes := by
  obtain ⟨⟨walk, hrun, hlive, hdone⟩, -⟩ := fallback_agrees_with_sequential linkedSource
    (fun _ ↦ 4096) 2 ⟨"r", []⟩ "r" (fun _ ↦ id) 4 _ linkedSource_walkable .refl rfl
  obtain ⟨-, hagree⟩ := fallback_agrees_with_sequential linkedSource
    (fun _ ↦ 4096) 2 ⟨"r", []⟩ "r" (fun _ ↦ id) 4 walk linkedSource_walkable hrun hlive
  obtain ⟨state, hstate, -, hfiles, -, -, -, hphysical, -⟩ := hagree hdone
  exact ⟨walk, hrun, hdone, hlive, state, hstate, hfiles, hphysical⟩

end WinBlaze
