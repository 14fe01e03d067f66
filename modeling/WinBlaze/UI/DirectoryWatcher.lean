import Mathlib.Data.List.DropRight
import WinBlaze.Scanner.MetadataChains

/-!
# Watching a directory

A completed request fills a buffer with a chain of change records. A poll follows the
chain, keeps the changes outside of an excluded directory in a bounded history and
tells whether there is anything to scan again.
-/

namespace WinBlaze

open Attempts

/-! ## The history -/

/-- Text of the system, in units. -/
abbrev WideText := List UInt16

structure ChangeEvent where
  action : UInt32
  observedUtc : UInt64
  path : WideText
  deriving DecidableEq, Repr

structure ChangeHistory where
  events : List ChangeEvent
  dropped : UInt64
  deriving DecidableEq, Repr

namespace ChangeHistory

def empty : ChangeHistory := ⟨[], 0⟩

/-- The oldest event makes room. -/
def record (history : ChangeHistory) (event : ChangeEvent) : ChangeHistory :=
  if history.events.length = 1000 then ⟨history.events.tail ++ [event], history.dropped + 1⟩
  else { history with events := history.events ++ [event] }

def takeEvents (history : ChangeHistory) : List ChangeEvent × ChangeHistory :=
  (history.events, { history with events := [] })

theorem rtake_cons_of_le {α : Type} {l : List α} {n : ℕ} (h : n ≤ l.length) (a : α) :
    (a :: l).rtake n = l.rtake n := by
  have hcount : l.length + 1 - n = l.length - n + 1 := by omega
  simp only [List.rtake, List.length_cons, hcount, List.drop_succ_cons]

theorem length_rtake {α : Type} (l : List α) (n : ℕ) : (l.rtake n).length = min n l.length := by
  rw [List.rtake, List.length_drop]
  omega

theorem rtake_append_rtake {α : Type} (front back : List α) (n : ℕ) :
    (front.rtake n ++ back).rtake n = (front ++ back).rtake n := by
  have hfront : front.rtake n ++ back = (front ++ back).drop (front.length - n) := by
    rw [List.drop_append_of_le_length (Nat.sub_le _ _), List.rtake]
  rw [hfront, List.rtake, List.rtake, List.drop_drop, List.length_drop, List.length_append]
  congr 1
  omega

/-- The last thousand events stay, and the others are counted. -/
theorem foldl_record (events : List ChangeEvent) {history : ChangeHistory}
    (h : history.events.length ≤ 1000) : events.foldl record history =
      ⟨(history.events ++ events).rtake 1000,
        history.dropped + UInt64.ofNat (history.events.length + events.length - 1000)⟩ := by
  induction events generalizing history with
  | nil =>
      have hall : history.events.length - 1000 = 0 := by omega
      simp [List.rtake, hall]
  | cons event rest ih =>
      by_cases hfull : history.events.length = 1000
      · have hrecord : history.record event = ⟨history.events.tail ++ [event], history.dropped + 1⟩ :=
          if_pos hfull
        obtain ⟨oldest, others, hevents⟩ : ∃ oldest others, history.events = oldest :: others :=
          List.exists_cons_of_length_pos (by omega)
        have hothers : others.length = 999 := by simpa [hevents] using hfull
        have hkept : (others ++ [event] ++ rest).rtake 1000 = (oldest :: others ++
            event :: rest).rtake 1000 := by
          rw [List.cons_append, rtake_cons_of_le (by simp [hothers]; omega)]
          simp
        have hcount : UInt64.ofNat (1000 + (rest.length + 1) - 1000) = 1 + UInt64.ofNat rest.length := by
          rw [Nat.add_sub_cancel_left, Nat.add_comm, UInt64.ofNat_add]
          rfl
        have hnext : 999 + 1 + rest.length - 1000 = rest.length := by omega
        rw [List.foldl_cons, hrecord, ih (by simp [hfull])]
        simp only [hevents, List.tail_cons, List.length_append, List.length_cons, List.length_nil,
          Nat.zero_add, hothers, hkept, hnext, hcount, UInt64.add_assoc]
      · have hrecord : history.record event = { history with events := history.events ++ [event] } :=
          if_neg hfull
        rw [List.foldl_cons, hrecord, ih (by simp; omega)]
        simp [List.append_assoc, Nat.add_assoc, Nat.add_comm 1]

end ChangeHistory

/-! ## A poll -/

/-- `FILE_NOTIFY_INFORMATION`. -/
structure NotifyInformation where
  nextEntryOffset : ℕ
  action : UInt32
  fileName : WideText
  deriving DecidableEq, Repr

/-- The bytes from a record on, which is read as words. -/
def notifyBytes (data : List UInt8) (offset : ℕ) : Except RecordFailure (List UInt8) :=
  if 4 ∣ offset ∧ offset ≤ data.length then .ok (data.drop offset) else .error .outside

/-- The record at an offset, none for one that does not fit into the data. -/
def notifyInformation (data : List UInt8) (offset : ℕ) :
    Except RecordFailure (Option NotifyInformation) :=
  if data.length - offset < 12 then .ok none
  else do
    let record ← notifyBytes data offset
    let length ← readNumber record 8 4
    if length % 2 ≠ 0 ∨ length > data.length - offset - 12 then return none
    let fileName ← readUnits (record.drop 12) (offset + 12) (length / 2)
    let action ← readNumber record 4 4
    let next ← readNumber record 0 4
    return some ⟨next, .ofNat action, fileName⟩

/-- `\`, which separates the components of a path. -/
def separator : UInt16 := 92

/-- `Lower`: no upper-case letters and no separators at the end. -/
def lowerPath (towlower : UInt16 → UInt16) (path : WideText) : WideText :=
  (path.map towlower).rdropWhile (· == separator)

structure DirectoryWatcher where
  towlower : UInt16 → UInt16
  root : WideText
  excluded : WideText
  displayRoot : WideText

namespace DirectoryWatcher

/-- The constructor. -/
def watch (towlower : UInt16 → UInt16) (root excluded : WideText) : DirectoryWatcher :=
  ⟨towlower, lowerPath towlower root, lowerPath towlower excluded, root⟩

variable (watcher : DirectoryWatcher)

def path (fileName : WideText) : WideText :=
  lowerPath watcher.towlower (watcher.root ++ [separator] ++ fileName)

def isExcluded (fileName : WideText) : Bool :=
  let path := watcher.path fileName
  !watcher.excluded.isEmpty && (path == watcher.excluded ||
    (decide (path.length > watcher.excluded.length) && path.take watcher.excluded.length ==
    watcher.excluded &&
      path[watcher.excluded.length]? == some separator))

def event (now : UInt64) (information : NotifyInformation) : ChangeEvent :=
  ⟨information.action, now, watcher.displayRoot ++ [separator] ++ information.fileName⟩

section Changes

variable {σ : Type} (record : σ → ChangeEvent → σ) (clock : ℕ → UInt64) (data : List UInt8)

/-- The loop over the records, with what is made of a recorded event. The clock tells the
time at which the record at an offset is handled. -/
def changes (offset : ℕ) (changed : Bool) (history : σ) : Except RecordFailure (Bool × σ) :=
  if offset < data.length then
    match notifyInformation data offset with
    | .error failure => .error failure
    | .ok none => .ok (true, history)
    | .ok (some information) =>
        let excluded := watcher.isExcluded information.fileName
        let history := if excluded then history
          else record history (watcher.event (clock offset) information)
        let next := information.nextEntryOffset
        if next = 0 then .ok (changed || !excluded, history)
        else if next < 12 ∨ next % 4 ≠ 0 ∨ next > data.length - offset then .ok (true, history)
        else changes (offset + next) (changed || !excluded) history
  else .ok (changed, history)
termination_by data.length - offset

end Changes

/-- How the pending request is found. -/
inductive Completion
  | incomplete
  | failed
  | completed (data : List UInt8)
  deriving DecidableEq, Repr

inductive PollResult
  | returned (changed : Bool)
  | threw
  deriving DecidableEq, Repr

/-- A poll, after which the next request may not be accepted. No data means that the
system had too much of it. -/
def poll {σ : Type} (record : σ → ChangeEvent → σ) (clock : ℕ → UInt64) (completion : Completion)
    (arms : Bool) (history : σ) : Except RecordFailure (PollResult × σ) :=
  match completion with
  | .incomplete => .ok (.returned false, history)
  | .failed => .ok (.threw, history)
  | .completed data => do
      let history := if data.isEmpty then record history ⟨0, clock 0, watcher.displayRoot⟩ else history
      let (changed, history) ← watcher.changes record clock data 0 data.isEmpty history
      return (if arms then .returned changed else .threw, history)

end DirectoryWatcher

/-! ## Well-formed data -/

/-- The data holds a record at a place, with its name inside of it. -/
structure HoldsNotify (data : List UInt8) (place : ℕ) (information : NotifyInformation) : Prop where
  within : place + 12 + 2 * information.fileName.length ≤ data.length
  nextEntryOffset : field data place 4 = information.nextEntryOffset
  action : field data (place + 4) 4 = information.action.toNat
  nameLength : field data (place + 8) 4 = 2 * information.fileName.length
  fileName : ∀ i (hi : i < information.fileName.length),
    field data (place + 12 + 2 * i) 2 = information.fileName[i].toNat

/-- The data from a place on is a chain of records, up to one that is the last or to the
end of the data. -/
inductive HoldsNotifyChain (data : List UInt8) : ℕ → List NotifyInformation → Prop
  | done : HoldsNotifyChain data data.length []
  | last {place : ℕ} {information : NotifyInformation} (hholds : HoldsNotify data place information)
      (hnext : information.nextEntryOffset = 0) : HoldsNotifyChain data place [information]
  | next {place : ℕ} {information : NotifyInformation} {rest : List NotifyInformation}
      (hholds : HoldsNotify data place information) (hroom : 12 ≤ information.nextEntryOffset)
      (haligned : 4 ∣ information.nextEntryOffset)
      (hrest : HoldsNotifyChain data (place + information.nextEntryOffset) rest) :
      HoldsNotifyChain data place (information :: rest)

theorem HoldsNotifyChain.le_length {data : List UInt8} {place : ℕ} {chain : List NotifyInformation}
    (h : HoldsNotifyChain data place chain) : place ≤ data.length := by
  cases h with
  | done => exact le_rfl
  | last hholds _ | next hholds _ _ _ =>
      have hwithin := hholds.within
      omega

theorem field_lt (data : List UInt8) (place width : ℕ) : field data place width < 256 ^ width :=
  (ByteCodec.ofLeBytes_lt _).trans_le (Nat.pow_le_pow_right (by omega) (List.length_take_le _ _))

/-- What the bytes at a place say, whether they are a record or not. -/
def fieldsAt (data : List UInt8) (place : ℕ) : NotifyInformation where
  nextEntryOffset := field data place 4
  action := .ofNat (field data (place + 4) 4)
  fileName := (List.range (field data (place + 8) 4 / 2)).map fun i ↦ .ofNat (field data (place + 12 + 2 * i) 2)

theorem HoldsNotify.eq_fieldsAt {data : List UInt8} {place : ℕ} {information : NotifyInformation}
    (h : HoldsNotify data place information) : information = fieldsAt data place := by
  obtain ⟨next, action, fileName⟩ := information
  obtain ⟨hwithin, hnext, haction, hlength, hname⟩ := h
  simp only at hwithin hnext haction hlength hname
  have hcount : field data (place + 8) 4 / 2 = fileName.length := by omega
  have hunits : fileName = (List.range fileName.length).map fun i ↦ .ofNat (field data (place + 12 + 2 * i) 2) := by
    refine List.ext_getElem (by simp) fun i hi _ ↦ ?_
    rw [List.getElem_map, List.getElem_range, hname i hi, UInt16.ofNat_toNat]
  simp only [fieldsAt, hnext, haction, hcount, UInt32.ofNat_toNat, ← hunits]

theorem holdsNotify_fieldsAt {data : List UInt8} {place : ℕ} (heven : 2 ∣ field data (place + 8) 4)
    (hwithin : place + 12 + field data (place + 8) 4 ≤ data.length) :
    HoldsNotify data place (fieldsAt data place) := by
  have hlength : (fieldsAt data place).fileName.length = field data (place + 8) 4 / 2 := by simp [fieldsAt]
  refine ⟨by omega, rfl, ?_, by omega, fun i hi ↦ ?_⟩
  · exact (UInt32.toNat_ofNat_of_lt' (field_lt data (place + 4) 4)).symm
  · simp only [fieldsAt, List.getElem_map, List.getElem_range]
    exact (UInt16.toNat_ofNat_of_lt' (field_lt data _ 2)).symm

/-- The record that is read is the one that the data holds, if it holds one. -/
theorem exists_notifyInformation {data : List UInt8} {offset : ℕ} (haligned : 4 ∣ offset)
    (hin : offset < data.length) : ∃ found, notifyInformation data offset = .ok found ∧
      ∀ information, found = some information ↔ HoldsNotify data offset information := by
  by_cases hroom : data.length - offset < 12
  · refine ⟨none, if_pos hroom, fun information ↦ ⟨fun h ↦ by simp at h, fun h ↦ ?_⟩⟩
    have hwithin := h.within
    omega
  · have hbytes : notifyBytes data offset = .ok (data.drop offset) := if_pos ⟨haligned, hin.le⟩
    have hlength : 12 ≤ (data.drop offset).length := by
      rw [List.length_drop]
      omega
    have hreadLength : readNumber (data.drop offset) 8 4 = .ok (field data (offset + 8) 4) := by
      rw [readNumber_eq (by omega), field_drop]
    by_cases hname : field data (offset + 8) 4 % 2 ≠ 0 ∨
        field data (offset + 8) 4 > data.length - offset - 12
    · refine ⟨none, ?_, fun information ↦ ⟨fun h ↦ by simp at h, fun h ↦ ?_⟩⟩
      · simp only [notifyInformation, hroom, if_false, hbytes, hreadLength, bind, Except.bind, pure,
          Except.pure, hname, if_true]
      · have hwithin := h.within
        have hlen := h.nameLength
        omega
    · have hunits : 2 ∣ offset + 12 ∧
          2 * (field data (offset + 8) 4 / 2) ≤ ((data.drop offset).drop 12).length := by
        rw [List.length_drop, List.length_drop]
        omega
      have hholds : HoldsNotify data offset (fieldsAt data offset) :=
        holdsNotify_fieldsAt (by omega) (by omega)
      refine ⟨some (fieldsAt data offset), ?_, fun information ↦ ⟨fun h ↦ ?_, fun h ↦ ?_⟩⟩
      · simp only [notifyInformation, hroom, if_false, hbytes, hreadLength, bind, Except.bind, pure,
          Except.pure, hname, readUnits, hunits, and_self, if_true, field_drop, fieldsAt,
          readNumber_eq (show 4 + 4 ≤ (data.drop offset).length by omega),
          readNumber_eq (show 0 + 4 ≤ (data.drop offset).length by omega), Nat.add_zero,
          Nat.add_assoc]
      · exact Option.some.inj h ▸ hholds
      · exact congrArg some h.eq_fieldsAt.symm

theorem HoldsNotify.lt_length {data : List UInt8} {place : ℕ} {information : NotifyInformation}
    (h : HoldsNotify data place information) : place < data.length := by
  have hwithin := h.within
  omega

theorem HoldsNotifyChain.exists_holds {data : List UInt8} {place : ℕ} {chain : List NotifyInformation}
    (h : HoldsNotifyChain data place chain) (hin : place < data.length) :
    ∃ information, HoldsNotify data place information := by
  cases h with
  | done => exact absurd hin (lt_irrefl _)
  | last hholds _ | next hholds _ _ _ => exact ⟨_, hholds⟩

theorem HoldsNotifyChain.eq_nil {data : List UInt8} {chain : List NotifyInformation}
    (h : HoldsNotifyChain data data.length chain) : chain = [] := by
  cases h with
  | done => rfl
  | last hholds _ | next hholds _ _ _ => exact absurd hholds.lt_length (lt_irrefl _)

/-- A chain starts with the record that the data holds. -/
theorem HoldsNotifyChain.cases_of_holds {data : List UInt8} {place : ℕ} {information : NotifyInformation}
    {chain : List NotifyInformation} (hholds : HoldsNotify data place information)
    (h : HoldsNotifyChain data place chain) :
    (information.nextEntryOffset = 0 ∧ chain = [information]) ∨
      ∃ rest, 12 ≤ information.nextEntryOffset ∧ 4 ∣ information.nextEntryOffset ∧
        chain = information :: rest ∧
        HoldsNotifyChain data (place + information.nextEntryOffset) rest := by
  cases h with
  | done => exact absurd hholds.lt_length (lt_irrefl _)
  | last hfirst hnext =>
      obtain rfl := hfirst.eq_fieldsAt.trans hholds.eq_fieldsAt.symm
      exact Or.inl ⟨hnext, rfl⟩
  | next hfirst hroom haligned hrest =>
      obtain rfl := hfirst.eq_fieldsAt.trans hholds.eq_fieldsAt.symm
      exact Or.inr ⟨_, hroom, haligned, rfl, hrest⟩

namespace DirectoryWatcher

variable (watcher : DirectoryWatcher)

/-! ## What a poll records -/

section Changes

variable (clock : ℕ → UInt64) (data : List UInt8)

/-- What is recorded of a record at a place. -/
def recorded (place : ℕ) (information : NotifyInformation) : List ChangeEvent :=
  if watcher.isExcluded information.fileName then [] else [watcher.event (clock place) information]

/-- The events of a chain that are not of the excluded directory. -/
def chainEvents : ℕ → List NotifyInformation → List ChangeEvent
  | _, [] => []
  | place, information :: rest =>
      watcher.recorded clock place information ++
        chainEvents (place + information.nextEntryOffset) rest

section Step

variable {σ : Type} (record : σ → ChangeEvent → σ) {offset : ℕ} (changed : Bool) (history : σ)

theorem changes_of_le (h : data.length ≤ offset) :
    watcher.changes record clock data offset changed history = .ok (changed, history) := by
  rw [changes, if_neg (Nat.not_lt.mpr h)]

theorem changes_of_none (hin : offset < data.length) (hfound : notifyInformation data offset = .ok none) :
    watcher.changes record clock data offset changed history = .ok (true, history) := by
  rw [changes, if_pos hin]
  simp only [hfound]

theorem changes_of_some (hin : offset < data.length) {information : NotifyInformation}
    (hfound : notifyInformation data offset = .ok (some information)) :
    watcher.changes record clock data offset changed history =
      let after := (watcher.recorded clock offset information).foldl record history
      let next := information.nextEntryOffset
      let noticed := changed || !watcher.isExcluded information.fileName
      if next = 0 then .ok (noticed, after)
      else if next < 12 ∨ next % 4 ≠ 0 ∨ next > data.length - offset then .ok (true, after)
      else watcher.changes record clock data (offset + next) noticed after := by
  rw [changes, if_pos hin]
  simp only [hfound, recorded]
  cases watcher.isExcluded information.fileName <;> rfl

end Step

/-- The loop ends without a read outside of the data. It reports no change only for a chain
of records that are all excluded, and of a chain it records what is not excluded. -/
theorem exists_changes {offset : ℕ} (haligned : 4 ∣ offset) (hin : offset ≤ data.length) (changed : Bool) :
    ∃ result events,
      (∀ {σ : Type} (record : σ → ChangeEvent → σ) (history : σ),
        watcher.changes record clock data offset changed history = .ok (result, events.foldl record history)) ∧
      (result = false → changed = false ∧ ∃ chain, HoldsNotifyChain data offset chain ∧
        ∀ information ∈ chain, watcher.isExcluded information.fileName = true) ∧
      ∀ chain, HoldsNotifyChain data offset chain → events = watcher.chainEvents clock offset chain ∧
        result = (changed || chain.any fun information ↦ !watcher.isExcluded information.fileName) := by
  induction hleft : data.length - offset using Nat.strong_induction_on generalizing offset changed with
  | _ left ih =>
      rcases Nat.lt_or_ge offset data.length with hlt | hge
      · obtain ⟨found, hfound, hholds⟩ := exists_notifyInformation haligned hlt
        cases found with
        | none =>
            refine ⟨true, [],
              fun record history ↦ watcher.changes_of_none clock data record changed history hlt hfound,
              fun h ↦ Bool.noConfusion h, fun chain hchain ↦ ?_⟩
            obtain ⟨information, hinformation⟩ := hchain.exists_holds hlt
            exact absurd ((hholds information).mpr hinformation) (by simp)
        | some information =>
            have hinformation : HoldsNotify data offset information := (hholds information).mp rfl
            have hstep := fun {σ : Type} (record : σ → ChangeEvent → σ) (history : σ) ↦
              watcher.changes_of_some clock data record changed history hlt hfound
            by_cases hzero : information.nextEntryOffset = 0
            · refine ⟨changed || !watcher.isExcluded information.fileName,
                watcher.recorded clock offset information, fun record history ↦ ?_, fun h ↦ ?_,
                  fun chain hchain ↦ ?_⟩
              · simp only [hstep, hzero, if_true]
              · obtain ⟨hchanged, hexcluded⟩ :
                  changed = false ∧ watcher.isExcluded information.fileName = true := by
                  simpa using h
                exact ⟨hchanged, [information], .last hinformation hzero, by simpa using hexcluded⟩
              · rcases hchain.cases_of_holds hinformation with ⟨-, rfl⟩ | ⟨rest, hroom, -⟩
                · simp [chainEvents]
                · omega
            · by_cases hbad : information.nextEntryOffset < 12 ∨ information.nextEntryOffset % 4 ≠ 0 ∨
                  information.nextEntryOffset > data.length - offset
              · refine ⟨true, watcher.recorded clock offset information, fun record history ↦ ?_,
                  fun h ↦ Bool.noConfusion h, fun chain hchain ↦ ?_⟩
                · simp only [hstep, hzero, hbad, if_true, if_false]
                · rcases hchain.cases_of_holds hinformation with ⟨hnext, -⟩ | ⟨rest, hroom, hdvd, -, hrest⟩
                  · exact absurd hnext hzero
                  · have hle := hrest.le_length
                    omega
              · obtain ⟨result, events, hrun, hquiet, hchains⟩ :=
                  ih (data.length - (offset + information.nextEntryOffset)) (by omega)
                    (show 4 ∣ offset + information.nextEntryOffset by omega) (by omega)
                    (changed || !watcher.isExcluded information.fileName) rfl
                refine ⟨result, watcher.recorded clock offset information ++ events,
                  fun record history ↦ ?_, fun h ↦ ?_, fun chain hchain ↦ ?_⟩
                · simp only [hstep, hzero, hbad, if_false, hrun, List.foldl_append]
                · obtain ⟨hnoticed, rest, hrest, hexcluded⟩ := hquiet h
                  obtain ⟨hchanged, hfirst⟩ : changed = false ∧
                      watcher.isExcluded information.fileName = true := by simpa using hnoticed
                  exact ⟨hchanged, information :: rest, .next hinformation (by omega) (by omega) hrest,
                    List.forall_mem_cons.mpr ⟨hfirst, hexcluded⟩⟩
                · rcases hchain.cases_of_holds hinformation with ⟨hnext, -⟩ | ⟨rest, -, -, rfl, hrest⟩
                  · exact absurd hnext hzero
                  · obtain ⟨rfl, rfl⟩ := hchains rest hrest
                    exact ⟨rfl, by simp [Bool.or_assoc]⟩
      · obtain rfl : offset = data.length := le_antisymm hin hge
        refine ⟨changed, [], fun record history ↦ watcher.changes_of_le clock data record changed
          history le_rfl,
          fun h ↦ ⟨h, [], .done, by simp⟩, fun chain hchain ↦ ?_⟩
        obtain rfl := hchain.eq_nil
        exact ⟨rfl, by simp⟩

end Changes

/-! ## What is excluded -/

theorem intercalate_append {α : Type} (sep : List α) {front back : List (List α)} (hfront : front ≠ [])
    (hback : back ≠ []) :
    sep.intercalate (front ++ back) = sep.intercalate front ++ sep ++ sep.intercalate back := by
  induction front with
  | nil => exact absurd rfl hfront
  | cons first rest ih =>
      by_cases hrest : rest = []
      · simp [hrest, List.intercalate_cons_of_ne_nil hback]
      · rw [List.cons_append, List.intercalate_cons_of_ne_nil (by simp [hrest]), ih hrest,
          List.intercalate_cons_of_ne_nil hrest]
        simp

/-- Whole components are in front. -/
theorem splitOn_prefix_iff {α : Type} [DecidableEq α] (sep : α) (above text : List α) :
    above.splitOn sep <+: text.splitOn sep ↔ text = above ∨ ∃ rest, text = above ++ sep :: rest := by
  constructor
  · rintro ⟨more, hmore⟩
    have htext : [sep].intercalate (above.splitOn sep ++ more) = text := by
      rw [hmore, List.intercalate_splitOn]
    by_cases hnone : more = []
    · refine Or.inl (htext.symm.trans ?_)
      rw [hnone, List.append_nil, List.intercalate_splitOn]
    · rw [intercalate_append _ (by simp) hnone, List.intercalate_splitOn] at htext
      exact Or.inr ⟨[sep].intercalate more, by simpa using htext.symm⟩
  · rintro (rfl | ⟨rest, rfl⟩)
    · exact List.prefix_refl _
    · rw [List.splitOn_append_cons_self]
      exact List.prefix_append _ _

/-- The path is the excluded one or below it. -/
def Below (fileName : WideText) : Prop :=
  watcher.excluded ≠ [] ∧
    watcher.excluded.splitOn separator <+: (watcher.path fileName).splitOn separator

theorem isExcluded_iff (fileName : WideText) : watcher.isExcluded fileName = true ↔
    watcher.Below fileName := by
  simp only [isExcluded, Below, splitOn_prefix_iff, Bool.and_eq_true, Bool.or_eq_true, beq_iff_eq,
    decide_eq_true_eq, Bool.not_eq_true', List.isEmpty_eq_false_iff]
  refine and_congr_right fun _ ↦ or_congr_right ⟨fun h ↦ ?_, fun h ↦ ?_⟩
  · obtain ⟨⟨-, hfront⟩, hsep⟩ := h
    refine ⟨(watcher.path fileName).drop (watcher.excluded.length + 1), ?_⟩
    obtain ⟨hin, hunit⟩ := List.getElem?_eq_some_iff.mp hsep
    calc watcher.path fileName = (watcher.path fileName).take watcher.excluded.length ++
          (watcher.path fileName).drop watcher.excluded.length := (List.take_append_drop _ _).symm
      _ = _ := by rw [hfront, List.drop_eq_getElem_cons hin, hunit]
  · obtain ⟨rest, hrest⟩ := h
    simp [hrest]

/-! ## A poll of a completed request -/

/-- A poll never reads outside of its data, and what it records does not depend on how it is
kept. -/
theorem exists_poll (clock : ℕ → UInt64) (completion : Completion) (arms : Bool) :
    ∃ result, ∃ events : List ChangeEvent, ∀ {σ : Type} (record : σ → ChangeEvent → σ) (history : σ),
      watcher.poll record clock completion arms history = .ok (result, events.foldl record history) := by
  cases completion with
  | incomplete => exact ⟨.returned false, [], fun record history ↦ rfl⟩
  | failed => exact ⟨.threw, [], fun record history ↦ rfl⟩
  | completed data =>
      obtain ⟨changed, events, hrun, -⟩ :=
        watcher.exists_changes clock data (Nat.dvd_zero 4) (Nat.zero_le _) data.isEmpty
      refine ⟨if arms then .returned changed else .threw,
        (if data.isEmpty then [⟨0, clock 0, watcher.displayRoot⟩] else []) ++ events,
        fun record history ↦ ?_⟩
      simp only [poll, hrun, bind, Except.bind, pure, Except.pure, List.foldl_append]
      cases data.isEmpty <;> rfl

/-- Whatever data a request comes back with, the poll reads nothing outside of it. It tells
of no change only if the data is a chain of changes at or below the excluded directory, and
of a chain it records the other changes in their order. -/
theorem poll_completed (clock : ℕ → UInt64) (data : List UInt8) (arms : Bool) (history : ChangeHistory) :
    ∃ changed events,
      watcher.poll ChangeHistory.record clock (.completed data) arms history =
        .ok (if arms then .returned changed else .threw, events.foldl ChangeHistory.record history) ∧
      (changed = false ↔ data ≠ [] ∧ ∃ chain, HoldsNotifyChain data 0 chain ∧
        ∀ information ∈ chain, watcher.Below information.fileName) ∧
      (data = [] → events = [⟨0, clock 0, watcher.displayRoot⟩]) ∧
      ∀ chain, data ≠ [] → HoldsNotifyChain data 0 chain → events = watcher.chainEvents clock 0 chain := by
  obtain ⟨changed, events, hrun, hquiet, hchains⟩ :=
    watcher.exists_changes clock data (Nat.dvd_zero 4) (Nat.zero_le _) data.isEmpty
  by_cases hempty : data = []
  · subst hempty
    obtain ⟨rfl, rfl⟩ := hchains [] .done
    refine ⟨true, [⟨0, clock 0, watcher.displayRoot⟩], ?_, by simp, fun _ ↦ rfl, fun _ h ↦ absurd rfl h⟩
    simp only [poll, hrun, bind, Except.bind, pure, Except.pure]
    rfl
  · have hsome : data.isEmpty = false := List.isEmpty_eq_false_iff.mpr hempty
    refine ⟨changed, events, ?_, ⟨fun h ↦ ?_, fun ⟨_, chain, hchain, hbelow⟩ ↦ ?_⟩,
      fun h ↦ absurd h hempty, fun chain _ hchain ↦ (hchains chain hchain).1⟩
    · simp only [poll, hrun, bind, Except.bind, pure, Except.pure]
      simp [hsome]
    · obtain ⟨-, chain, hchain, hexcluded⟩ := hquiet h
      exact ⟨hempty, chain, hchain, fun information hmem ↦
        (watcher.isExcluded_iff _).mp (hexcluded information hmem)⟩
    · rw [(hchains chain hchain).2, hsome]
      simpa using fun information hmem ↦ (watcher.isExcluded_iff _).mpr (hbelow information hmem)

/-! ## Watching -/

inductive WatchAction
  | poll (clock : ℕ → UInt64) (completion : Completion) (arms : Bool)
  | takeEvents

/-- The history and what was taken from it, one list for each time. -/
structure Watched where
  history : ChangeHistory
  taken : List (List ChangeEvent)
  deriving DecidableEq, Repr

def watchStep (watched : Watched) : WatchAction → Except RecordFailure Watched
  | .poll clock completion arms => do
      let (_, history) ← watcher.poll ChangeHistory.record clock completion arms watched.history
      return { watched with history := history }
  | .takeEvents =>
      let (events, history) := watched.history.takeEvents
      .ok ⟨history, watched.taken ++ [events]⟩

/-- All that was recorded, up to each time that events were taken and since the last one. -/
structure Recorded where
  closed : List (List ChangeEvent)
  pending : List ChangeEvent
  deriving DecidableEq, Repr

def recordStep (recorded : Recorded) : WatchAction → Except RecordFailure Recorded
  | .poll clock completion arms => do
      let (_, pending) ← watcher.poll (fun pending event ↦ pending ++ [event]) clock completion arms
        recorded.pending
      return { recorded with pending := pending }
  | .takeEvents => .ok ⟨recorded.closed ++ [recorded.pending], []⟩

/-- The watcher keeps the end of everything and counts the rest. -/
structure Retains (recorded : Recorded) (watched : Watched) : Prop where
  taken : watched.taken = recorded.closed.map (List.rtake · 1000)
  events : watched.history.events = recorded.pending.rtake 1000
  dropped : watched.history.dropped =
    UInt64.ofNat (((recorded.closed ++ [recorded.pending]).map fun events ↦ events.length - 1000).sum)

theorem Retains.poll {recorded : Recorded} {watched : Watched} (h : Retains recorded watched)
    (events : List ChangeEvent) : Retains { recorded with pending := recorded.pending ++ events }
      { watched with history := events.foldl ChangeHistory.record watched.history } := by
  have hlength : watched.history.events.length = min 1000 recorded.pending.length := by
    rw [h.events, ChangeHistory.length_rtake]
  have hfold := @ChangeHistory.foldl_record events watched.history (by omega)
  refine ⟨h.taken, ?_, ?_⟩
  · simp only [hfold, h.events, ChangeHistory.rtake_append_rtake]
  · have hcount : recorded.pending.length + events.length - 1000 =
        recorded.pending.length - 1000 + (min 1000 recorded.pending.length + events.length -
          1000) := by omega
    simp only [hfold, h.dropped, hlength, List.map_append, List.map_cons, List.map_nil, List.sum_append,
      List.sum_cons, List.sum_nil, List.length_append, hcount, UInt64.ofNat_add, Nat.add_zero,
      UInt64.add_assoc]

theorem Retains.takeEvents {recorded : Recorded} {watched : Watched} (h : Retains recorded watched) :
    Retains ⟨recorded.closed ++ [recorded.pending], []⟩
      ⟨watched.history.takeEvents.2, watched.taken ++ [watched.history.takeEvents.1]⟩ := by
  refine ⟨?_, by simp [ChangeHistory.takeEvents], ?_⟩
  · simp only [ChangeHistory.takeEvents, h.taken, h.events, List.map_append, List.map_cons, List.map_nil]
  · simp [ChangeHistory.takeEvents, h.dropped]

theorem foldl_concat (pending events : List ChangeEvent) :
    events.foldl (fun pending event ↦ pending ++ [event]) pending = pending ++ events := by
  induction events generalizing pending with
  | nil => simp
  | cons event rest ih => rw [List.foldl_cons, ih, List.append_assoc, List.singleton_append]

theorem Retains.step {recorded : Recorded} {watched : Watched} (h : Retains recorded watched)
    (action : WatchAction) : ∃ recorded' watched', watcher.recordStep recorded action = .ok recorded' ∧
      watcher.watchStep watched action = .ok watched' ∧ Retains recorded' watched' := by
  cases action with
  | poll clock completion arms =>
      obtain ⟨result, events, hpoll⟩ := watcher.exists_poll clock completion arms
      refine ⟨_, _, ?_, ?_, h.poll events⟩
      · simp only [recordStep, hpoll, foldl_concat, bind, Except.bind, pure, Except.pure]
      · simp only [watchStep, hpoll, bind, Except.bind, pure, Except.pure]
  | takeEvents => exact ⟨_, _, rfl, rfl, h.takeEvents⟩

/-- However often a directory is polled and its events are taken, what is taken is the last
thousand events since the time before, in their order, and the dropped ones are counted. -/
theorem watching_retains (actions : List WatchAction) : ∃ recorded watched,
    actions.foldlM watcher.recordStep ⟨[], []⟩ = .ok recorded ∧
      actions.foldlM watcher.watchStep ⟨.empty, []⟩ = .ok watched ∧ Retains recorded watched := by
  suffices hall : ∀ recorded watched, Retains recorded watched → ∃ recorded' watched',
      actions.foldlM watcher.recordStep recorded = .ok recorded' ∧
        actions.foldlM watcher.watchStep watched = .ok watched' ∧ Retains recorded' watched' from
    hall _ _ ⟨rfl, by simp [ChangeHistory.empty], by simp [ChangeHistory.empty]⟩
  induction actions with
  | nil => exact fun recorded watched h ↦ ⟨recorded, watched, rfl, rfl, h⟩
  | cons action rest ih =>
      intro recorded watched h
      obtain ⟨recorded', watched', hrecord, hwatch, hnext⟩ := h.step watcher action
      simp only [List.foldlM_cons, hrecord, hwatch]
      exact ih recorded' watched' hnext

end DirectoryWatcher

end WinBlaze
