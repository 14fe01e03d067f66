import WinBlaze.Native.UiForwarder
import WinBlaze.Scanner.DeliveryOrder

/-!
# Paths of forwarded files

File events carry no path. The forwarder takes it from the directories it has
seen, so it needs the directory of a file before the file.
-/

namespace WinBlaze

open PrivateBatches

namespace UiEventForwarder

/-! ## What the forwarder keeps -/

theorem directoryPaths_flushDirectoryBatch (forwarder : UiEventForwarder) :
    forwarder.flushDirectoryBatch.directoryPaths = forwarder.directoryPaths ∧
      forwarder.flushDirectoryBatch.liveCatalogEvents = forwarder.liveCatalogEvents := by
  rw [flushDirectoryBatch]
  split <;> exact ⟨rfl, rfl⟩

theorem directoryPaths_forwardDirectory (clock : ForwardClock) (forwarder : UiEventForwarder)
    (directory : DirectoryRecord) :
    (forwarder.forwardDirectory clock directory).directoryPaths =
        (if forwarder.liveCatalogEvents < uiLiveCatalogEventLimit then
          forwarder.directoryPaths.set directory.id directory.fullPath
        else forwarder.directoryPaths) ∧
      (forwarder.forwardDirectory clock directory).liveCatalogEvents =
        forwarder.liveCatalogEvents := by
  rw [forwardDirectory]
  dsimp only
  split
  case isTrue => exact directoryPaths_flushDirectoryBatch _
  case isFalse => exact ⟨rfl, rfl⟩

theorem directoryPaths_deliver (clock : ForwardClock) (forwarder : UiEventForwarder)
    (event : ScanEvent) :
    (forwarder.deliver clock event).directoryPaths = forwarder.directoryPaths ∧
      forwarder.liveCatalogEvents ≤ (forwarder.deliver clock event).liveCatalogEvents := by
  have hcheck : (forwarder.shouldForward clock event).2.directoryPaths = forwarder.directoryPaths ∧
      forwarder.liveCatalogEvents ≤ (forwarder.shouldForward clock event).2.liveCatalogEvents := by
    unfold shouldForward
    split
    · exact ⟨rfl, le_rfl⟩
    · split
      · exact ⟨rfl, le_rfl⟩
      · exact ⟨rfl, Nat.le_succ _⟩
    · split <;> exact ⟨rfl, le_rfl⟩
    · exact ⟨rfl, le_rfl⟩
  rw [deliver]
  split
  case isTrue =>
    dsimp only
    split <;> exact hcheck
  case isFalse => exact ⟨rfl, le_rfl⟩

/-- Events other than directories change no path. -/
theorem directoryPaths_forward (clock : ForwardClock) (forwarder : UiEventForwarder)
    {event : ScanEvent} (hevent : event.announced? = none) :
    (forwarder.forward clock event).directoryPaths = forwarder.directoryPaths ∧
      forwarder.liveCatalogEvents ≤ (forwarder.forward clock event).liveCatalogEvents := by
  have hflushed := directoryPaths_flushDirectoryBatch forwarder
  have hdeliver := directoryPaths_deliver clock forwarder.flushDirectoryBatch event
  rw [hflushed.1, hflushed.2] at hdeliver
  cases event with
  | directoryFound directory => cases hevent
  | fileFound file => exact directoryPaths_deliver clock (forwarder.recordExtension file) _
  | summary summary => exact hdeliver
  | completed => exact hdeliver
  | cancelled => exact hdeliver
  | failed message => exact hdeliver
  | _ => exact directoryPaths_deliver clock forwarder _

/-- While files are still delivered, the forwarder has a path of every
directory it has seen. -/
def KnowsPaths (forwarder : UiEventForwarder) (events : List ScanEvent) : Prop :=
  forwarder.liveCatalogEvents < uiLiveCatalogEventLimit → ∀ id,
    Announces events id → ∃ directory, .directoryFound directory ∈ events ∧ directory.id = id ∧
      forwarder.directoryPaths.find? id = some directory.fullPath

theorem KnowsPaths.forward {forwarder : UiEventForwarder} {events : List ScanEvent}
    (h : forwarder.KnowsPaths events) (clock : ForwardClock) (event : ScanEvent) :
    (forwarder.forward clock event).KnowsPaths (events ++ [event]) := by
  intro hlive id hannounced
  cases hevent : event.announced? with
  | none =>
      obtain ⟨hpaths, hle⟩ := directoryPaths_forward clock forwarder hevent
      have hbefore : Announces events id := by
        refine (announced_append.mp hannounced).resolve_right ?_
        rintro ⟨other, hother, hid⟩
        obtain rfl := List.mem_singleton.mp hother
        rw [hevent] at hid
        cases hid
      obtain ⟨directory, hmem, hid, hfind⟩ := h (hle.trans_lt hlive) id hbefore
      refine ⟨directory, List.mem_append_left _ hmem, hid, ?_⟩
      rw [hpaths]
      exact hfind
  | some announced =>
      cases event with
      | directoryFound directory =>
          obtain ⟨hpaths, hsame⟩ := directoryPaths_forwardDirectory clock forwarder directory
          have hroom : forwarder.liveCatalogEvents < uiLiveCatalogEventLimit := by
            rwa [UiEventForwarder.forward, hsame] at hlive
          rw [UiEventForwarder.forward, hpaths, if_pos hroom]
          by_cases hid : id = directory.id
          · refine ⟨directory, List.mem_append_right _ (List.mem_singleton.mpr rfl), hid.symm, ?_⟩
            rw [hid, IdMap.find?_set_self]
          · have hbefore : Announces events id := by
              refine (announced_append.mp hannounced).resolve_right ?_
              rintro ⟨other, hother, hother'⟩
              obtain rfl := List.mem_singleton.mp hother
              exact hid (Option.some.inj hother').symm
            obtain ⟨other, hmem, hother, hfind⟩ := h hroom id hbefore
            refine ⟨other, List.mem_append_left _ hmem, hother, ?_⟩
            rw [IdMap.find?_set_of_ne _ _ hid]
            exact hfind
      | _ => cases hevent

theorem knowsPaths_forwardAll (hasCallback : Bool) (timed : List (ForwardClock × ScanEvent)) :
    KnowsPaths (forwardAll { hasCallback := hasCallback } timed) (timed.map Prod.snd) := by
  induction timed using List.reverseRecOn with
  | nil =>
      rintro - id ⟨event, hevent, -⟩
      cases hevent
  | append_singleton timed last ih =>
      have hlast : forwardAll { hasCallback := hasCallback } (timed ++ [last]) =
          (forwardAll { hasCallback := hasCallback } timed).forward last.1 last.2 := by
        rw [forwardAll, List.foldl_append]
        rfl
      rw [hlast, List.map_append]
      exact ih.forward last.1 last.2

end UiEventForwarder

/-! ## Deriving paths -/

/-- As long as it delivers files, the forwarder gives each file without a path
the one under a directory it has seen. -/
def DerivesPaths (events : List ScanEvent) : Prop :=
  ∀ (hasCallback : Bool) (timed : List (ForwardClock × ScanEvent)) (file : FileRecord) later,
    events = timed.map Prod.snd ++ .fileFound file :: later → file.fullPath = "" →
      (UiEventForwarder.forwardAll { hasCallback := hasCallback } timed).liveCatalogEvents <
        uiLiveCatalogEventLimit →
      ∃ directory, .directoryFound directory ∈ timed.map Prod.snd ∧
        directory.id = file.parentDirectoryId ∧
        (UiEventForwarder.forwardAll { hasCallback := hasCallback } timed).nativeEvent
            (.fileFound file) =
          .fileFound { file with fullPath := joinPath directory.fullPath file.name }

theorem derivesPaths_of_parentsFirst {events : List ScanEvent} (h : ParentsFirst events) :
    DerivesPaths events := by
  intro hasCallback timed file later heq hpath hlive
  have hannounced := h _ _ _ heq file.parentDirectoryId rfl
  obtain ⟨directory, hmem, hid, hfind⟩ :=
    UiEventForwarder.knowsPaths_forwardAll hasCallback timed hlive _ hannounced
  refine ⟨directory, hmem, hid, ?_⟩
  have hempty : file.fullPath.isEmpty = true := by
    rw [hpath]
    rfl
  simp only [UiEventForwarder.nativeEvent, hempty, hfind, if_true]

open PipelinedWalk in
/-- In every run in which no batch overtakes the record of a directory it has
events in, parents arrive first and paths can be derived, in every state. Where
directories have different ids, only in such runs. -/
theorem delivered_parentsFirst {P N : Type*} [DecidableEq P] (source : WalkSource P N)
    (config : ScanPipelineConfig) (workerLimit : ℕ) (volume : VolumeRecord) (root : Visit P)
    (name : String) (steps : List (Option ℕ × PipelinedWalk P N))
    (hrun : IsRun source config workerLimit (initial source volume root name) steps) :
    (AlwaysBehindParents (initial source volume root name) steps →
      ∀ step ∈ steps, ParentsFirst step.2.delivered ∧ DerivesPaths step.2.delivered) ∧
    ((∀ step ∈ steps, step.2.DistinctDirectories) →
      (∀ step ∈ steps, ParentsFirst step.2.delivered) →
        AlwaysBehindParents (initial source volume root name) steps) := by
  have hstart : (initial source volume root name).Delivering source workerLimit root.path
      root.ancestors name := delivering_initial
  have hopening : ParentsFirst (initial source volume root name).delivered :=
    parentsFirst_initial source volume root name
  refine ⟨fun hbehind step hstep ↦ ?_, hstart.alwaysBehindParents hrun⟩
  have horder := hstart.parentsFirst_run hopening hrun hbehind step hstep
  exact ⟨horder, derivesPaths_of_parentsFirst horder⟩

section Samples

open PipelinedWalk

/-- Two directories, one of them with a directory of two files. -/
def nestedSource : WalkSource String String where
  readDir path :=
    if path = "r" then some [some (nestedEntry "x" true), some (nestedEntry "y" true)]
    else if path = "r\\y" then some [some (nestedEntry "z" true)]
    else if path = "r\\y\\z" then some [some (nestedEntry "a" false), some (nestedEntry "b" false)]
    else none
  canonicalize _ := none
  stripVerbatimPrefix path := path
  join path name := path ++ "\\" ++ name
  displayPath path := path
  displayName name := name
  isVolumePath _ := false
  allows _ _ := true
  policy := .skipAll
where
  nestedEntry (name : String) (directory : Bool) : FindEntry String :=
    { name := name, attributes := if directory then .directory else .archive, sizeBytes := 10,
      allocationBytes := 4096, physicalIdentity := none, createdUtc := 0, modifiedUtc := 0,
      accessedUtc := 0 }

def nestedStart : PipelinedWalk String String :=
  .initial nestedSource
    { id := ⟨0⟩, mountPoint := "r", label := none, fileSystem := .unknown, totalBytes := 0,
      freeBytes := 0, rootDirectoryId := ⟨0⟩ } ⟨"r", []⟩ "r"

/-- The first worker finds a directory, and the second one walks it and leaves. -/
def nestedSchedule : List ℕ := List.replicate 38 0 ++ List.replicate 40 1

/-- What has arrived when the schedule ends. -/
def nestedDelivered (config : ScanPipelineConfig) : Option (List ScanEvent) :=
  (nestedStart.runSchedule nestedSource config 2 id nestedSchedule).bind fun steps ↦
    steps.getLast?.map fun step ↦ step.2.delivered

theorem exists_nestedRun {config : ScanPipelineConfig} {events : List ScanEvent}
    (h : nestedDelivered config = some events) :
    ∃ steps, IsRun nestedSource config 2 nestedStart steps ∧
      ∃ step ∈ steps, step.2.delivered = events := by
  obtain ⟨steps, hsteps, hlast⟩ := Option.bind_eq_some_iff.mp h
  obtain ⟨step, hstep, rfl⟩ := Option.map_eq_some_iff.mp hlast
  exact ⟨steps, isRun_runSchedule hsteps, step, List.mem_of_getLast? hstep, rfl⟩

def nestedFile (id : UInt64) (name : String) : FileRecord :=
  fileRecord nestedSource id ⟨8⟩ (nestedSource.nestedEntry name false) 4096

/-- The directories that arrive before the files. -/
def nestedDirectories : List ScanEvent :=
  nestedStart.delivered ++
    [.directoryFound (directoryRecord nestedSource 6 (some ⟨5⟩) "r\\x" "x"),
      .directoryFound (directoryRecord nestedSource 7 (some ⟨5⟩) "r\\y" "y")]

/-- Batches of one event arrive in order. -/
theorem delivered_parentsFirst_nested :
    ∃ steps, IsRun nestedSource { batchSize := 1 } 2 nestedStart steps ∧
      ∃ step ∈ steps, step.2.delivered = nestedDirectories ++
          [.directoryFound (directoryRecord nestedSource 8 (some ⟨7⟩) "r\\y\\z" "z"),
            .fileFound (nestedFile 1 "a"), .fileFound (nestedFile 2 "b")] ∧
        ParentsFirst step.2.delivered ∧ DerivesPaths step.2.delivered := by
  have hdelivered : nestedDelivered { batchSize := 1 } = some (nestedDirectories ++
      [.directoryFound (directoryRecord nestedSource 8 (some ⟨7⟩) "r\\y\\z" "z"),
        .fileFound (nestedFile 1 "a"), .fileFound (nestedFile 2 "b")]) := by
    decide +kernel
  obtain ⟨steps, hrun, step, hmem, hevents⟩ := exists_nestedRun hdelivered
  have hbehind := alwaysBehindParents_of_batchSize (fun _ ↦ rfl) (le_refl 1) hrun
  obtain ⟨horder, hpaths⟩ :=
    (delivered_parentsFirst nestedSource _ 2 _ _ _ steps hrun).1 hbehind step hmem
  exact ⟨steps, hrun, step, hmem, hevents, horder, hpaths⟩

/-- With the default batches, the files arrive while the first worker keeps
the record of their directory. -/
theorem nestedFiles_overtake :
    ∃ steps, IsRun nestedSource {} 2 nestedStart steps ∧
      ∃ step ∈ steps, step.2.delivered =
          nestedDirectories ++ [.fileFound (nestedFile 1 "a"), .fileFound (nestedFile 2 "b")] ∧
        ¬ ParentsFirst step.2.delivered ∧ ¬ DerivesPaths step.2.delivered := by
  have hdelivered : nestedDelivered {} = some (nestedDirectories ++
      [.fileFound (nestedFile 1 "a"), .fileFound (nestedFile 2 "b")]) := by
    decide +kernel
  have hnone : ¬ Announces nestedDirectories ⟨8⟩ := by
    unfold Announces Announced
    decide
  obtain ⟨steps, hrun, step, hmem, hevents⟩ := exists_nestedRun hdelivered
  refine ⟨steps, hrun, step, hmem, hevents, fun horder ↦ ?_, fun hpaths ↦ ?_⟩
  · exact hnone (horder nestedDirectories _ _ hevents ⟨8⟩ rfl)
  · let timed : List (ForwardClock × ScanEvent) :=
      nestedDirectories.map fun event ↦ (⟨false, false⟩, event)
    have htimed : timed.map Prod.snd = nestedDirectories := rfl
    obtain ⟨directory, hdirectory, hid, -⟩ :=
      hpaths true timed (nestedFile 1 "a") [.fileFound (nestedFile 2 "b")] hevents rfl (by decide +kernel)
    rw [htimed] at hdirectory
    exact hnone ⟨_, hdirectory, congrArg some hid⟩

end Samples

end WinBlaze
