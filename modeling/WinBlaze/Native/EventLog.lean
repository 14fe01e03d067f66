import WinBlaze.Core.Scan
import WinBlaze.Lib.Decimal

/-!
# The event log

Lines are appended to a file that is moved aside when it has grown too large. Every system
call may fail, and a line may be written in part. What the two files hold is always the end
of what was written.
-/

namespace WinBlaze

/-! ## Files -/

structure LogFiles where
  current : Option (List UInt8)
  archive : Option (List UInt8)
  deriving DecidableEq, Repr

/-- What can be read, the archive first. -/
def LogFiles.bytes (files : LogFiles) : List UInt8 := files.archive.getD [] ++ files.current.getD []

/-- Which calls of a rotation succeed. -/
structure RotateOutcome where
  metadata : Bool
  removes : Bool
  renames : Bool
  deriving DecidableEq, Repr

/-- A rename puts the file in the place of the old archive also when that is still there. -/
def rotateLogIfNeeded (files : LogFiles) (maxBytes : ℕ) (outcome : RotateOutcome) : LogFiles :=
  match files.current with
  | none => files
  | some bytes =>
      if outcome.metadata = false ∨ bytes.length < maxBytes then files
      else if outcome.renames then ⟨none, some bytes⟩
      else if outcome.removes then { files with archive := none }
      else files

def maxJsonLogBytes : ℕ := 2 * 1024 * 1024

/-- Both files are smaller than this. -/
structure LogFiles.Below (files : LogFiles) (bound : ℕ) : Prop where
  current : (files.current.getD []).length < bound
  archive : (files.archive.getD []).length < bound

theorem LogFiles.Below.rotate {files : LogFiles} {bound : ℕ} (h : files.Below bound) (maxBytes : ℕ)
    (outcome : RotateOutcome) : (rotateLogIfNeeded files maxBytes outcome).Below bound := by
  obtain ⟨hcurrent, harchive⟩ := h
  cases hfile : files.current with
  | none =>
      simp only [rotateLogIfNeeded, hfile]
      exact ⟨hcurrent, harchive⟩
  | some bytes =>
      have hbytes : bytes.length < bound := by simpa [hfile] using hcurrent
      have hbound : 0 < bound := (Nat.zero_le _).trans_lt hbytes
      simp only [rotateLogIfNeeded, hfile]
      split_ifs
      · exact ⟨hcurrent, harchive⟩
      · exact ⟨hbound, hbytes⟩
      · exact ⟨hbytes, hbound⟩
      · exact ⟨hcurrent, harchive⟩

/-- A file that could be moved has room. -/
theorem length_rotateLogIfNeeded_lt (files : LogFiles) {maxBytes : ℕ} (hmax : 0 < maxBytes)
    {outcome : RotateOutcome} (hmetadata : outcome.metadata = true) (hrenames : outcome.renames = true) :
    ((rotateLogIfNeeded files maxBytes outcome).current.getD []).length < maxBytes := by
  cases hfile : files.current with
  | none => simpa [rotateLogIfNeeded, hfile] using hmax
  | some bytes =>
      by_cases hsmall : bytes.length < maxBytes
      · simp [rotateLogIfNeeded, hfile, hsmall]
      · simpa [rotateLogIfNeeded, hfile, hsmall, hmetadata, hrenames] using hmax

/-- The writer, without its buffer for a line. -/
structure EventLog where
  opened : Bool
  writtenBytes : ℕ
  deriving DecidableEq, Repr

namespace EventLog

def new : EventLog := ⟨false, 0⟩

/-- Which calls of an append succeed. A write may stop behind some of the bytes. -/
structure AppendOutcome where
  fullRotation : RotateOutcome
  openRotation : RotateOutcome
  metadata : Bool
  opens : Bool
  stops : Option ℕ
  deriving DecidableEq, Repr

/-- The writer and the files it works on. -/
structure LogState where
  log : EventLog
  files : LogFiles
  deriving DecidableEq, Repr

def openLog (state : LogState) (outcome : AppendOutcome) : LogState :=
  let files := rotateLogIfNeeded state.files maxJsonLogBytes outcome.openRotation
  let written := if outcome.metadata then (files.current.getD []).length else 0
  ⟨{ state.log with opened := outcome.opens, writtenBytes := written },
    if outcome.opens then { files with current := some (files.current.getD []) } else files⟩

/-- A full file is closed and moved. -/
def closeFull (state : LogState) (outcome : AppendOutcome) : LogState :=
  if maxJsonLogBytes ≤ state.log.writtenBytes then
    ⟨{ state.log with opened := false, writtenBytes := 0 },
      rotateLogIfNeeded state.files maxJsonLogBytes outcome.fullRotation⟩
  else state

/-- The file that the line is to go to, if it could be opened. -/
def ready (state : LogState) (outcome : AppendOutcome) : LogState :=
  if (closeFull state outcome).log.opened then closeFull state outcome
  else openLog (closeFull state outcome) outcome

/-- What gets into the file of a line. -/
def chunk (state : LogState) (outcome : AppendOutcome) (line : List UInt8) : List UInt8 :=
  if (ready state outcome).log.opened then outcome.stops.elim line line.take else []

def append (state : LogState) (outcome : AppendOutcome) (line : List UInt8) : LogState :=
  let before := ready state outcome
  if before.log.opened then
    let files := { before.files with
      current := some (before.files.current.getD [] ++ chunk state outcome line) }
    match outcome.stops with
    | none => ⟨{ before.log with writtenBytes := min (before.log.writtenBytes + line.length) (2 ^ 64 - 1) }, files⟩
    | some _ => ⟨{ before.log with opened := false }, files⟩
  else before

/-- The log after the lines, and what got into the files of each. -/
def appendAll : List (AppendOutcome × List UInt8) → LogState → List (List UInt8) × LogState
  | [], state => ([], state)
  | (outcome, line) :: rest, state =>
      let (chunks, last) := appendAll rest (append state outcome line)
      (chunk state outcome line :: chunks, last)

/-! ## What the files hold -/

/-- The files hold the end of the chunks. If any of the others is missed, there is as much
left as a file may hold. -/
def HoldsEnd (chunks : List (List UInt8)) (files : LogFiles) : Prop :=
  ∃ lost archived recent, chunks = lost ++ archived ++ recent ∧ files.archive.getD [] = archived.flatten ∧
    files.current.getD [] = recent.flatten ∧ (lost = [] ∨ maxJsonLogBytes ≤ files.bytes.length)

theorem HoldsEnd.rotate {chunks : List (List UInt8)} {files : LogFiles} (h : HoldsEnd chunks files)
    (outcome : RotateOutcome) : HoldsEnd chunks (rotateLogIfNeeded files maxJsonLogBytes outcome) := by
  obtain ⟨lost, archived, recent, hchunks, harchive, hcurrent, hlost⟩ := h
  unfold rotateLogIfNeeded
  cases hfile : files.current with
  | none => exact ⟨lost, archived, recent, hchunks, harchive, hcurrent, hlost⟩
  | some bytes =>
      simp only
      have hbytes : bytes = recent.flatten := by simpa [hfile] using hcurrent
      split_ifs with hsmall hrenames hremoves
      · exact ⟨lost, archived, recent, hchunks, harchive, hcurrent, hlost⟩
      · refine ⟨lost ++ archived, recent, [], by simpa using hchunks, hbytes, rfl, Or.inr ?_⟩
        simp only [LogFiles.bytes, Option.getD_some, Option.getD_none, List.append_nil]
        omega
      · refine ⟨lost ++ archived, [], recent, by simpa using hchunks, rfl, hbytes, Or.inr ?_⟩
        simp only [LogFiles.bytes, Option.getD_none, List.nil_append, Option.getD_some]
        omega
      · exact ⟨lost, archived, recent, hchunks, harchive, hcurrent, hlost⟩

theorem HoldsEnd.closeFull {chunks : List (List UInt8)} {state : LogState} (h : HoldsEnd chunks state.files)
    (outcome : AppendOutcome) : HoldsEnd chunks (closeFull state outcome).files := by
  unfold EventLog.closeFull
  split_ifs
  · exact h.rotate _
  · exact h

theorem HoldsEnd.openLog {chunks : List (List UInt8)} {state : LogState} (h : HoldsEnd chunks state.files)
    (outcome : AppendOutcome) : HoldsEnd chunks (openLog state outcome).files := by
  have hrotated := h.rotate outcome.openRotation
  by_cases hopens : outcome.opens = true
  · simp only [EventLog.openLog, hopens, if_true]
    exact hrotated
  · simp only [EventLog.openLog, hopens]
    exact hrotated

theorem HoldsEnd.ready {chunks : List (List UInt8)} {state : LogState} (h : HoldsEnd chunks state.files)
    (outcome : AppendOutcome) : HoldsEnd chunks (ready state outcome).files := by
  unfold EventLog.ready
  split_ifs
  · exact h.closeFull outcome
  · exact (h.closeFull outcome).openLog outcome

theorem HoldsEnd.append {chunks : List (List UInt8)} {state : LogState} (h : HoldsEnd chunks state.files)
    (outcome : AppendOutcome) (line : List UInt8) :
    HoldsEnd (chunks ++ [chunk state outcome line]) (append state outcome line).files := by
  obtain ⟨lost, archived, recent, hchunks, harchive, hcurrent, hlost⟩ := h.ready outcome
  by_cases hopened : (EventLog.ready state outcome).log.opened = true
  · have hfiles : (EventLog.append state outcome line).files = { (EventLog.ready state outcome).files with
        current := some ((EventLog.ready state outcome).files.current.getD [] ++
          chunk state outcome line) } := by
      simp only [EventLog.append, hopened, if_true]
      cases outcome.stops <;> rfl
    refine ⟨lost, archived, recent ++ [chunk state outcome line], by simp [hchunks], ?_, ?_, ?_⟩
    · simp [hfiles, harchive]
    · simp [hfiles, hcurrent]
    · refine hlost.imp id fun hlarge ↦ hlarge.trans ?_
      simp [hfiles, LogFiles.bytes]
  · have hnothing : chunk state outcome line = [] := if_neg hopened
    have hfiles : (EventLog.append state outcome line).files = (EventLog.ready state outcome).files := by
      simp only [EventLog.append, hopened]
      rfl
    rw [hfiles, hnothing]
    exact ⟨lost, archived, recent ++ [[]], by simp [hchunks], harchive, by simp [hcurrent], hlost⟩

theorem chunk_begins (state : LogState) (outcome : AppendOutcome) (line : List UInt8) :
    chunk state outcome line <+: line := by
  unfold chunk
  split_ifs
  · cases outcome.stops with
    | none => exact List.prefix_refl line
    | some stop => exact List.take_prefix stop line
  · exact List.nil_prefix

theorem HoldsEnd.appendAll {chunks : List (List UInt8)} {state : LogState} (h : HoldsEnd chunks state.files)
    (lines : List (AppendOutcome × List UInt8)) :
    HoldsEnd (chunks ++ (EventLog.appendAll lines state).1) (EventLog.appendAll lines state).2.files := by
  induction lines generalizing chunks state with
  | nil => simpa [EventLog.appendAll] using h
  | cons entry rest ih => simpa [EventLog.appendAll] using ih (h.append entry.1 entry.2)

/-- Of every line a part gets into the files, and all of it where no write stops. -/
theorem forall₂_appendAll (lines : List (AppendOutcome × List UInt8)) (state : LogState) :
    List.Forall₂ (fun entry chunk ↦ chunk <+: entry.2 ∧ (entry.1.stops = none → chunk = entry.2 ∨ chunk = []))
      lines (appendAll lines state).1 := by
  induction lines generalizing state with
  | nil => exact List.Forall₂.nil
  | cons entry rest ih =>
      refine List.Forall₂.cons ⟨chunk_begins _ _ _, fun hstops ↦ ?_⟩ (ih _)
      unfold chunk
      split_ifs
      · exact Or.inl (by simp [hstops])
      · exact Or.inr rfl

/-! ## How large they get -/

/-- The writer knows the size of the file it has open. -/
structure Bounded (longest : ℕ) (state : LogState) : Prop where
  files : state.files.Below (maxJsonLogBytes + longest)
  known : state.log.opened = true → state.log.writtenBytes = (state.files.current.getD []).length

/-- Nothing keeps the writer from the size of its file or from moving it. -/
def AppendOutcome.Moves (outcome : AppendOutcome) : Prop :=
  outcome.metadata = true ∧ outcome.openRotation.metadata = true ∧ outcome.openRotation.renames = true

namespace Bounded

variable {longest : ℕ} {state : LogState} {outcome : AppendOutcome}

theorem closeFull (h : Bounded longest state) (outcome : AppendOutcome) :
    Bounded longest (EventLog.closeFull state outcome) ∧
      ((EventLog.closeFull state outcome).log.opened = true →
        ((EventLog.closeFull state outcome).files.current.getD []).length < maxJsonLogBytes) := by
  by_cases hfull : maxJsonLogBytes ≤ state.log.writtenBytes
  · simp only [EventLog.closeFull, hfull, if_true]
    exact ⟨⟨h.files.rotate _ _, fun h ↦ Bool.noConfusion h⟩, fun h ↦ Bool.noConfusion h⟩
  · simp only [EventLog.closeFull, hfull, if_false]
    refine ⟨h, fun hopened ↦ ?_⟩
    have hsize := h.known hopened
    omega

theorem openLog (h : Bounded longest state) (hmoves : outcome.Moves) :
    Bounded longest (EventLog.openLog state outcome) ∧
      ((EventLog.openLog state outcome).files.current.getD []).length < maxJsonLogBytes := by
  have hfiles := h.files.rotate maxJsonLogBytes outcome.openRotation
  have hpositive : 0 < maxJsonLogBytes := by decide
  have hroom := length_rotateLogIfNeeded_lt state.files hpositive hmoves.2.1 hmoves.2.2
  by_cases hopens : outcome.opens = true
  · simp only [EventLog.openLog, hopens, hmoves.1, if_true]
    exact ⟨⟨⟨hfiles.current, hfiles.archive⟩, fun _ ↦ rfl⟩, hroom⟩
  · simp only [EventLog.openLog, hopens, hmoves.1]
    exact ⟨⟨hfiles, fun h ↦ Bool.noConfusion h⟩, hroom⟩

theorem ready (h : Bounded longest state) (hmoves : outcome.Moves) :
    Bounded longest (EventLog.ready state outcome) ∧
      ((EventLog.ready state outcome).log.opened = true →
        ((EventLog.ready state outcome).files.current.getD []).length < maxJsonLogBytes) := by
  obtain ⟨hclosed, hroom⟩ := h.closeFull outcome
  unfold EventLog.ready
  split_ifs with hopened
  · exact ⟨hclosed, fun _ ↦ hroom hopened⟩
  · exact (hclosed.openLog hmoves).imp id fun h _ ↦ h

theorem append (h : Bounded longest state) (hmoves : outcome.Moves) (hlongest : longest < 2 ^ 63)
    {line : List UInt8} (hline : line.length ≤ longest) :
    Bounded longest (EventLog.append state outcome line) := by
  obtain ⟨hready, hroom⟩ := h.ready hmoves
  by_cases hopened : (EventLog.ready state outcome).log.opened = true
  · have hsize := hready.known hopened
    have hlt := hroom hopened
    have hchunk := (chunk_begins state outcome line).length_le
    have hmax : maxJsonLogBytes = 2097152 := rfl
    have hcurrent : ((EventLog.ready state outcome).files.current.getD [] ++
        chunk state outcome line).length <
        maxJsonLogBytes + longest := by
      rw [List.length_append]
      omega
    simp only [EventLog.append, hopened, if_true]
    cases hstops : outcome.stops with
    | none =>
        have hwhole : chunk state outcome line = line := by simp [chunk, hopened, hstops]
        refine ⟨⟨hcurrent, hready.files.archive⟩, fun _ ↦ ?_⟩
        simp only [hsize, hwhole, Option.getD_some, List.length_append]
        omega
    | some stop => exact ⟨⟨hcurrent, hready.files.archive⟩, fun h ↦ Bool.noConfusion h⟩
  · simp only [EventLog.append, hopened]
    exact hready

theorem appendAll (h : Bounded longest state) (hlongest : longest < 2 ^ 63)
    {lines : List (AppendOutcome × List UInt8)}
    (hlines : ∀ entry ∈ lines, entry.1.Moves ∧ entry.2.length ≤ longest) :
    Bounded longest (EventLog.appendAll lines state).2 := by
  induction lines generalizing state with
  | nil => exact h
  | cons entry rest ih =>
      obtain ⟨⟨hmoves, hline⟩, hrest⟩ := List.forall_mem_cons.mp hlines
      exact ih (h.append hmoves hlongest hline) hrest

end Bounded

/-- What can be read is always the end of what was there and got in since, with parts of lines
only where a write has stopped, and it is as much as a file may hold if something is missing.
While the file can be moved, neither of the two grows beyond that by more than a line. -/
theorem appendAll_holds_end (files : LogFiles) (lines : List (AppendOutcome × List UInt8)) :
    let (chunks, last) := appendAll lines ⟨new, files⟩
    (∃ lost kept, files.archive.getD [] :: files.current.getD [] :: chunks = lost ++ kept ∧
      last.files.bytes = kept.flatten ∧ (lost = [] ∨ maxJsonLogBytes ≤ last.files.bytes.length)) ∧
    List.Forall₂ (fun entry chunk ↦ chunk <+: entry.2 ∧
      (entry.1.stops = none → chunk = entry.2 ∨ chunk = [])) lines chunks ∧
    ∀ longest < 2 ^ 63, files.Below (maxJsonLogBytes + longest) →
      (∀ entry ∈ lines, entry.1.Moves ∧ entry.2.length ≤ longest) →
      last.files.Below (maxJsonLogBytes + longest) := by
  have hstart : HoldsEnd [files.archive.getD [], files.current.getD []] (LogState.mk new files).files :=
    ⟨[], [_], [_], rfl, by simp, by simp, Or.inl rfl⟩
  obtain ⟨lost, archived, recent, hchunks, harchive, hcurrent, hlost⟩ :=
    hstart.appendAll lines
  refine ⟨⟨lost, archived ++ recent, by simpa using hchunks, ?_, hlost⟩, forall₂_appendAll lines _,
    fun longest hlongest hbelow hlines ↦ ?_⟩
  · simp only [LogFiles.bytes, harchive, hcurrent, List.flatten_append]
  · have hbounded : Bounded longest ⟨new, files⟩ := ⟨hbelow, fun h ↦ Bool.noConfusion h⟩
    exact (hbounded.appendAll hlongest hlines).files

end EventLog

end WinBlaze
