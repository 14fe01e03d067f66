import WinBlaze.Scanner.DirectoryWalk
import WinBlaze.Scanner.FallbackWorkers

/-!
# A directory of the fallback walk

What a worker does with a directory, one access to the shared state after the
other. The actions still to be done for the current entry are kept as a list.
Ids come from counters, those of files a batch at a time, and the counts of a
worker are published now and then, each with an addition of its own.
-/

namespace WinBlaze

structure FallbackTask (P : Type*) where
  path : P
  directoryId : DirectoryId
  ancestors : AncestorChain P

/-- The state that all workers share. -/
structure FallbackShared where
  physicalIds : Fin 64 → TrackedVolumes
  cancelled : Bool
  nextDirectoryId : UInt64
  nextFileId : UInt64
  directoriesSeen : UInt64
  filesSeen : UInt64
  totalSizeBytes : UInt64
  totalAllocationBytes : UInt64
  events : List WalkEvent

/-- The state at the start, after the scan emitted the root. -/
def FallbackShared.initial (rootEvent : WalkEvent) : FallbackShared where
  physicalIds := fun _ ↦ .empty
  cancelled := false
  nextDirectoryId := 6
  nextFileId := 1
  directoriesSeen := 1
  filesSeen := 0
  totalSizeBytes := 0
  totalAllocationBytes := 0
  events := [rootEvent]

/-- The counts of a worker that are not published, and the files it has not
emitted. -/
structure FallbackTotals (N : Type*) where
  files : UInt64 := 0
  logical : UInt64 := 0
  physical : UInt64 := 0
  pending : List (FindEntry N) := []

inductive WalkAction (P N : Type*)
  | flush
  | file (entry : FindEntry N) (id : UInt64)
  | emitFile (record : FileRecord)
  | publishWhenFull
  | publish
  | publishFiles (files : UInt64)
  | publishLogical (logical : UInt64)
  | publishPhysical (physical : UInt64)
  | directory (path : P) (name : N) (decision : ReparseDecision P)
  | countDirectory
  | emitDirectory (record : DirectoryRecord) (child : Option (FallbackTask P))

/-- A worker at a directory. `entries` are those to come, `none` after the loop. -/
structure DirectoryJob (P N : Type*) where
  task : FallbackTask P
  totals : FallbackTotals N
  newTasks : List (FallbackTask P)
  todo : List (WalkAction P N)
  entries : Option (List (Option (FindEntry N)))

section

variable {P N : Type*} [DecidableEq P] (source : WalkSource P N)

/-- The task of a directory that is descended into. -/
def ReparseDecision.task (decision : ReparseDecision P) (path : P) (id : DirectoryId) :
    Option (FallbackTask P) :=
  match decision with
  | .follow ancestors => some { path := path, directoryId := id, ancestors := ancestors }
  | _ => none

/-- `ConcurrentAllocationTracker::claim` for an entry that has an identity. -/
def claimShared (order : IterationOrder) (shared : FallbackShared) (entry : FindEntry N) :
    Option (UInt64 × FallbackShared) :=
  match entry.physicalIdentity with
  | some identity =>
      if entry.allocationBytes = 0 then some (0, shared)
      else
        let index := shardIndex identity.1 identity.2
        ((shared.physicalIds index).claim order identity.1 identity.2 entry.allocationBytes).map
          fun claimed ↦
            (claimed.1, { shared with
              physicalIds := Function.update shared.physicalIds index claimed.2 })
  | none => some (entry.allocationBytes, shared)

/-- The file ids of a batch. -/
def batchActions (first : UInt64) (batch : List (FindEntry N)) : List (WalkAction P N) :=
  batch.zipIdx.map (fun entry ↦ .file entry.1 (first + .ofNat entry.2))

/-- An action of a worker, with the actions after it. `none` is a panic. -/
def runAction (order : IterationOrder) (shared : FallbackShared) (job : DirectoryJob P N)
    (rest : List (WalkAction P N)) : WalkAction P N → Option (FallbackShared × DirectoryJob P N)
  | .flush =>
      if job.totals.pending.isEmpty then some (shared, { job with todo := rest })
      else
        some
          ({ shared with
              nextFileId := shared.nextFileId + .ofNat job.totals.pending.length },
            { job with
              totals := { job.totals with pending := [] }
              todo := batchActions shared.nextFileId job.totals.pending ++ rest })
  | .file entry id =>
      (claimShared order shared entry).map fun claimed ↦
        (claimed.2,
          { job with
            totals :=
              { job.totals with
                files := job.totals.files + 1
                logical := Saturating.satAdd job.totals.logical entry.sizeBytes
                physical := Saturating.satAdd job.totals.physical claimed.1 }
            todo :=
              .emitFile (fileRecord source id job.task.directoryId entry claimed.1) ::
                .publishWhenFull :: rest })
  | .emitFile record =>
      some ({ shared with events := shared.events ++ [.file record] }, { job with todo := rest })
  | .publishWhenFull =>
      some (shared,
        { job with todo := if 512 ≤ job.totals.files then .publish :: rest else rest })
  | .publish =>
      some (shared,
        if job.totals.files = 0 then { job with todo := rest }
        else
          { job with
            totals := { job.totals with files := 0, logical := 0, physical := 0 }
            todo :=
              .publishFiles job.totals.files :: .publishLogical job.totals.logical ::
                .publishPhysical job.totals.physical :: rest })
  | .publishFiles files =>
      some ({ shared with filesSeen := shared.filesSeen + files }, { job with todo := rest })
  | .publishLogical logical =>
      some ({ shared with totalSizeBytes := shared.totalSizeBytes + logical },
        { job with todo := rest })
  | .publishPhysical physical =>
      some ({ shared with totalAllocationBytes := shared.totalAllocationBytes + physical },
        { job with todo := rest })
  | .directory path name decision =>
      some
        ({ shared with nextDirectoryId := shared.nextDirectoryId + 1 },
          { job with
            todo :=
              .countDirectory ::
                .emitDirectory
                  (directoryRecord source shared.nextDirectoryId (some job.task.directoryId) path
                    (source.displayName name))
                  (decision.task path ⟨shared.nextDirectoryId⟩) :: rest })
  | .countDirectory =>
      some ({ shared with directoriesSeen := shared.directoriesSeen + 1 }, { job with todo := rest })
  | .emitDirectory record child =>
      some ({ shared with events := shared.events ++ [.directory record] },
        { job with newTasks := job.newTasks ++ child.toList, todo := rest })

/-- The actions after the loop over the entries. -/
def endActions : List (WalkAction P N) := [.flush, .publish]

/-- An entry at the head of the loop. -/
def runEntry (job : DirectoryJob P N) (entries : List (Option (FindEntry N)))
    (entry : Option (FindEntry N)) : DirectoryJob P N :=
  match entryOutcome source job.task.path job.task.ancestors entry with
  | .skipped => { job with entries := some entries }
  | .file entry =>
      { job with
        totals := { job.totals with pending := job.totals.pending ++ [entry] }
        todo := if job.totals.pending.length + 1 = 64 then [.flush] else []
        entries := some entries }
  | .directory path name decision =>
      { job with todo := [.flush, .directory path name decision], entries := some entries }

/-- One step of a worker at a directory. A cancelled walk ends the loop. -/
def stepDirectory (order : IterationOrder) (shared : FallbackShared) (job : DirectoryJob P N) :
    Option (FallbackShared × DirectoryJob P N) :=
  match job.todo, job.entries with
  | action :: rest, _ => runAction source order shared job rest action
  | [], some [] => some (shared, { job with todo := endActions, entries := none })
  | [], some (entry :: entries) =>
      if shared.cancelled then some (shared, { job with todo := endActions, entries := none })
      else some (shared, runEntry source job entries entry)
  | [], none => none

/-- The job of a task: nothing is left to do of a cancelled one or of a
directory that cannot be read. -/
def startDirectory (shared : FallbackShared) (totals : FallbackTotals N) (task : FallbackTask P) :
    DirectoryJob P N where
  task := task
  totals := totals
  newTasks := []
  todo := []
  entries := if shared.cancelled then none else source.readDir task.path

/-- The processing of directories. -/
def directoryProcessing :
    TaskProcessing FallbackShared (FallbackTotals N) (FallbackTask P) (DirectoryJob P N) where
  Start shared totals task shared' job :=
    shared' = shared ∧ job = startDirectory source shared totals task
  Step shared job shared' job' := ∃ order, stepDirectory source order shared job = some (shared', job')
  Result job totals newTasks :=
    job.todo = [] ∧ job.entries = none ∧ totals = job.totals ∧ newTasks = job.newTasks
  Other shared shared' := shared' = { shared with cancelled := true }

end

end WinBlaze
