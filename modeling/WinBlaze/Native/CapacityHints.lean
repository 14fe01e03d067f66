import Mathlib.Algebra.Order.BigOperators.Group.List
import WinBlaze.Lib.RecencyList
import WinBlaze.Index.SnapshotRoundTrip

/-!
# Capacity hints

Counts of earlier scans are kept in a small file for estimates of later ones. The
file holds one hint or, in another format, several of different scopes.
-/

namespace WinBlaze

namespace CapacityHints

open ByteCodec Snapshot

def magic : List UInt8 := asBytes "WBCHNT01"

def multiMagic : List UInt8 := asBytes "WBCHNT02"

def header : ℕ := 28

def maxScope : ℕ := 4096

def maxHints : ℕ := 32

def maxHintBytes : ℕ := 12 + maxHints * (header - 8 + maxScope)

def maxRecordStorage : ℕ := 512 * 2 ^ 20

structure CapacityHint where
  files : UInt64
  directories : UInt64
  deriving DecidableEq

@[ext]
structure StoredHint where
  scope : String
  files : UInt64
  directories : UInt64
  deriving DecidableEq

/-- `size_of` the records. -/
structure RecordSizes where
  fileRecord : ℕ
  directoryRecord : ℕ

/-- The result of a checked operation. -/
def checkedUsize (n : ℕ) : Option UInt64 := if n < 2 ^ 64 then some (.ofNat n) else none

/-- `get` of a range. -/
def getRange (bytes : List UInt8) (start stop : ℕ) : Option (List UInt8) :=
  if start ≤ stop ∧ stop ≤ bytes.length then some ((bytes.drop start).take (stop - start)) else none

section Hints

variable (sizes : RecordSizes)

def estimate (scope : String) (files directories : UInt64) : Option CapacityHint :=
  if (asBytes scope).isEmpty || maxScope < (asBytes scope).length then none
  else do
    let files ← checkedUsize (files.toNat + (files / 20).toNat)
    let directories ← checkedUsize (directories.toNat + (directories / 20).toNat)
    let fileBytes ← checkedUsize (files.toNat * (sizes.fileRecord + 4))
    let directoryBytes ← checkedUsize (directories.toNat * (sizes.directoryRecord + 24))
    let bytes ← checkedUsize (fileBytes.toNat + directoryBytes.toNat)
    if bytes.toNat ≤ maxRecordStorage then some ⟨files, directories⟩ else none

/-! ## Reading -/

/-- One pass of the loop, with the bytes from its cursor on. -/
def readHint (hints : List StoredHint) (remaining : List UInt8) : Option (StoredHint × ℕ) := do
  let files ← getRange remaining 0 8
  let directories ← getRange remaining 8 16
  let length := ofLeBytes (← getRange remaining 16 20)
  if maxScope < length then none
  else
    let scope ← String.fromUTF8? ⟨(← getRange remaining 20 (20 + length)).toArray⟩
    let hint : StoredHint := ⟨scope, .ofNat (ofLeBytes files), .ofNat (ofLeBytes directories)⟩
    let _ ← estimate sizes scope hint.files hint.directories
    if hints.any (·.scope = scope) then none else some (hint, 20 + length)

def readEach (bytes : List UInt8) : ℕ → ℕ → List StoredHint → Option (List StoredHint × ℕ)
  | 0, cursor, hints => some (hints, cursor)
  | count + 1, cursor, hints => do
      let remaining ← getRange bytes cursor bytes.length
      let (hint, size) ← readHint sizes hints remaining
      readEach bytes count (cursor + size) (hints ++ [hint])

/-- Where the hints begin, and their number. -/
def readHeader (bytes : List UInt8) : Option (ℕ × ℕ) := do
  let start ← getRange bytes 0 8
  if start = magic then some (8, 1)
  else if start = multiMagic then some (12, ofLeBytes (← getRange bytes 8 12))
  else none

/-- The file is none where it cannot be opened. -/
def readHints (file : Option (List UInt8)) : Option (List StoredHint) := do
  let bytes := (← file).take (maxHintBytes + 1)
  if maxHintBytes < bytes.length then none
  else
    let (cursor, count) ← readHeader bytes
    if count = 0 ∨ maxHints < count then none
    else
      let (hints, cursor) ← readEach sizes bytes count cursor []
      if cursor ≠ bytes.length then none else some hints

def loadHint (file : Option (List UInt8)) (scope : String) : Option CapacityHint := do
  let hint ← (← readHints sizes file).find? (·.scope = scope)
  estimate sizes scope hint.files hint.directories

/-! ## Writing -/

def hintBytes (hint : StoredHint) : List UInt8 :=
  leBytes 8 hint.files.toNat ++ leBytes 8 hint.directories.toNat ++
    leBytes 4 (asBytes hint.scope).length ++ asBytes hint.scope

def writeHints (hints : List StoredHint) : List UInt8 :=
  (if hints.length = 1 then magic else multiMagic ++ leBytes 4 hints.length) ++ hints.flatMap hintBytes

inductive SaveError
  | invalidInput (message : String)
  | io
  deriving DecidableEq

/-- What is saved, and whether the file can be replaced then. -/
structure SaveCall where
  scope : String
  files : UInt64
  directories : UInt64
  replaces : Bool

/-- The result and the file behind the call. -/
def saveHint (file : Option (List UInt8)) (call : SaveCall) : Except SaveError Unit × Option (List UInt8) :=
  let write (hints : List StoredHint) : Except SaveError Unit × Option (List UInt8) :=
    if call.replaces then
      (.ok (), some (writeHints (hints ++ [⟨call.scope, call.files, call.directories⟩])))
    else (.error .io, file)
  match estimate sizes call.scope call.files call.directories with
  | none => (.error (.invalidInput "invalid or excessive allocation estimate"), file)
  | some _ =>
      let hints := (readHints sizes file).getD []
      match hints.findIdx? (·.scope = call.scope) with
      | some position =>
          if hints[position]?.any fun hint ↦
              hint.files = call.files ∧ hint.directories = call.directories then (.ok (), file)
          else write (hints.eraseIdx position)
      | none => write (if hints.length = maxHints then hints.eraseIdx 0 else hints)

/-! ## Reading what is written -/

/-- Hints that a file can hold. -/
structure Storable (hints : List StoredHint) : Prop where
  nonempty : hints ≠ []
  room : hints.length ≤ maxHints
  distinct : RecencyList.Distinct StoredHint.scope hints
  estimated : ∀ hint ∈ hints, (estimate sizes hint.scope hint.files hint.directories).isSome = true

variable {sizes}

theorem getRange_eq (front : List UInt8) {bytes middle back : List UInt8} (hbytes : bytes = front ++ middle ++ back)
    {start stop : ℕ} (hstart : start = front.length) (hstop : stop = start + middle.length) :
    getRange bytes start stop = some middle := by
  subst hbytes hstart hstop
  rw [getRange, if_pos (by simp), Nat.add_sub_cancel_left, List.append_assoc, List.drop_left,
    List.take_left]

theorem length_scope_le {scope : String} {files directories : UInt64}
    (h : (estimate sizes scope files directories).isSome = true) : (asBytes scope).length ≤ maxScope := by
  by_contra hlong
  have hnone : estimate sizes scope files directories = none := by
    rw [estimate, if_pos (by simp; omega)]
  rw [hnone] at h
  cases h

theorem length_hintBytes (hint : StoredHint) :
    (hintBytes hint).length = 20 + (asBytes hint.scope).length := by
  simp only [hintBytes, List.length_append, length_leBytes]

theorem readHint_hintBytes {hint : StoredHint} {hints : List StoredHint} (rest : List UInt8)
    (hestimate : (estimate sizes hint.scope hint.files hint.directories).isSome = true)
    (hnew : ∀ other ∈ hints, other.scope ≠ hint.scope) :
    readHint sizes hints (hintBytes hint ++ rest) = some (hint, (hintBytes hint).length) := by
  have hscope := length_scope_le hestimate
  have hlength : ofLeBytes (leBytes 4 (asBytes hint.scope).length) = (asBytes hint.scope).length :=
    ofLeBytes_leBytes (hscope.trans_lt (by decide))
  have hcount : ∀ count : UInt64, UInt64.ofNat (ofLeBytes (leBytes 8 count.toNat)) = count := fun count ↦ by
    rw [ofLeBytes_leBytes count.toNat_lt, UInt64.ofNat_toNat]
  have hfiles : getRange (hintBytes hint ++ rest) 0 8 = some (leBytes 8 hint.files.toNat) :=
    getRange_eq [] (by simp only [hintBytes, List.nil_append, List.append_assoc]; rfl) rfl
      (by simp)
  have hdirectories : getRange (hintBytes hint ++ rest) 8 16 =
      some (leBytes 8 hint.directories.toNat) :=
    getRange_eq (leBytes 8 hint.files.toNat)
      (by simp only [hintBytes, List.append_assoc]; rfl) (by simp) (by simp)
  have hwidth : getRange (hintBytes hint ++ rest) 16 20 =
      some (leBytes 4 (asBytes hint.scope).length) :=
    getRange_eq (leBytes 8 hint.files.toNat ++ leBytes 8 hint.directories.toNat)
      (by simp only [hintBytes, List.append_assoc]; rfl) (by simp) (by simp)
  have htext : getRange (hintBytes hint ++ rest) 20 (20 + (asBytes hint.scope).length) =
      some (asBytes hint.scope) :=
    getRange_eq _ (by rw [hintBytes]) (by simp) rfl
  obtain ⟨capacity, hcapacity⟩ := Option.isSome_iff_exists.mp hestimate
  simpa [readHint, hfiles, hdirectories, hwidth, htext, hlength, hcount, hcapacity,
    Nat.not_lt.mpr hscope, fromUTF8_asBytes, length_hintBytes] using hnew

theorem readEach_hintBytes (front back : List UInt8) (done : List StoredHint) {hints : List StoredHint}
    (hestimate : ∀ hint ∈ hints, (estimate sizes hint.scope hint.files hint.directories).isSome = true)
    (hdistinct : RecencyList.Distinct StoredHint.scope (done ++ hints)) :
    readEach sizes (front ++ hints.flatMap hintBytes ++ back) hints.length front.length done =
      some (done ++ hints, (front ++ hints.flatMap hintBytes).length) := by
  induction hints generalizing front done with
  | nil => simp [readEach]
  | cons hint hints ih =>
      rw [List.forall_mem_cons] at hestimate
      have hnew : ∀ other ∈ done, other.scope ≠ hint.scope := by
        intro other hother hsame
        rw [RecencyList.Distinct, List.map_append, List.nodup_append] at hdistinct
        exact hdistinct.2.2 _ (List.mem_map_of_mem hother) _ (by simp) hsame
      have hbytes : front ++ (hint :: hints).flatMap hintBytes ++ back =
          (front ++ hintBytes hint) ++ hints.flatMap hintBytes ++ back := by
        simp only [List.flatMap_cons, List.append_assoc]
      have hremaining : getRange (front ++ hintBytes hint ++ hints.flatMap hintBytes ++ back) front.length
          (front ++ hintBytes hint ++ hints.flatMap hintBytes ++ back).length =
            some (hintBytes hint ++ (hints.flatMap hintBytes ++ back)) :=
        @getRange_eq front _ _ [] (by simp) _ _ rfl (by simp)
      have hrest := ih (front ++ hintBytes hint) (done ++ [hint]) hestimate.2 (by rwa [List.append_assoc])
      rw [hbytes, List.length_cons, readEach, hremaining]
      simp only [Option.bind_eq_bind, Option.bind_some, readHint_hintBytes _ hestimate.1 hnew]
      rw [← List.length_append, hrest]
      simp

theorem length_writeHints_le {hints : List StoredHint} (h : Storable sizes hints) :
    (writeHints hints).length ≤ maxHintBytes := by
  have hmagic : magic.length = 8 ∧ multiMagic.length = 8 := by decide
  have hbytes : (hints.flatMap hintBytes).length ≤ hints.length * (20 + maxScope) := by
    rw [List.length_flatMap]
    refine (List.sum_le_card_nsmul _ (20 + maxScope) fun size hsize ↦ ?_).trans (by simp)
    obtain ⟨hint, hhint, rfl⟩ := List.mem_map.mp hsize
    have hscope := length_scope_le (h.estimated hint hhint)
    rw [length_hintBytes]
    omega
  have hroom := h.room
  rw [writeHints, List.length_append]
  split <;> simp only [List.length_append, length_leBytes, hmagic, maxHintBytes, maxHints, maxScope,
    header] at * <;> omega

theorem readHints_of_readEach {bytes : List UInt8} {cursor count : ℕ} {hints : List StoredHint}
    (hlength : bytes.length ≤ maxHintBytes) (hheader : readHeader bytes = some (cursor, count))
    (hcount : count ≠ 0 ∧ count ≤ maxHints)
    (heach : readEach sizes bytes count cursor [] = some (hints, bytes.length)) :
    readHints sizes (some bytes) = some hints := by
  have htake : bytes.take (maxHintBytes + 1) = bytes := List.take_of_length_le (Nat.le_succ_of_le hlength)
  simpa [readHints, htake, hlength, hheader, hcount, heach] using Nat.le_succ_of_le hlength

/-- The hints of a file are read as they were written. -/
theorem readHints_writeHints {hints : List StoredHint} (h : Storable sizes hints) :
    readHints sizes (some (writeHints hints)) = some hints := by
  have hlength := length_writeHints_le h
  have hroom := h.room
  have hcount : hints.length ≠ 0 ∧ hints.length ≤ maxHints :=
    ⟨fun hnone ↦ h.nonempty (List.length_eq_zero_iff.mp hnone), hroom⟩
  have heach : ∀ front : List UInt8, readEach sizes (front ++ hints.flatMap hintBytes) hints.length
      front.length [] = some (hints, (front ++ hints.flatMap hintBytes).length) := by
    intro front
    have hread := readEach_hintBytes front [] [] h.estimated h.distinct
    rwa [List.append_nil, List.nil_append] at hread
  have hmagic : magic.length = 8 ∧ multiMagic.length = 8 ∧ multiMagic ≠ magic := by decide
  by_cases hone : hints.length = 1
  · have hwritten : writeHints hints = magic ++ hints.flatMap hintBytes := by
      rw [writeHints, if_pos hone]
    have hstart : getRange (magic ++ hints.flatMap hintBytes) 0 8 = some magic :=
      getRange_eq [] rfl rfl (by simp)
    have hheader : readHeader (magic ++ hints.flatMap hintBytes) = some (8, 1) := by
      simp [readHeader, hstart]
    have hread := heach magic
    rw [hmagic.1] at hread
    rw [hwritten] at hlength ⊢
    exact readHints_of_readEach hlength hheader (by decide) (hone ▸ hread)
  · have hwritten : writeHints hints = (multiMagic ++ leBytes 4 hints.length) ++
        hints.flatMap hintBytes := by
      rw [writeHints, if_neg hone]
    have hstart : getRange (multiMagic ++ leBytes 4 hints.length ++ hints.flatMap hintBytes) 0 8 =
        some multiMagic :=
      getRange_eq [] (by rw [List.append_assoc]; rfl) rfl (by simp [hmagic])
    have hnumber : getRange (multiMagic ++ leBytes 4 hints.length ++ hints.flatMap hintBytes) 8 12 =
        some (leBytes 4 hints.length) :=
      getRange_eq _ rfl (by simp [hmagic]) (by simp)
    have hvalue : ofLeBytes (leBytes 4 hints.length) = hints.length :=
      ofLeBytes_leBytes (hroom.trans_lt (by decide))
    have hheader : readHeader (multiMagic ++ leBytes 4 hints.length ++ hints.flatMap hintBytes) =
        some (12, hints.length) := by
      rw [readHeader, hstart, hnumber]
      simp [hvalue, hmagic]
    have hread := heach (multiMagic ++ leBytes 4 hints.length)
    have hwidth : (multiMagic ++ leBytes 4 hints.length).length = 12 := by simp [hmagic]
    rw [hwidth] at hread
    rw [hwritten] at hlength ⊢
    exact readHints_of_readEach hlength hheader hcount hread

/-! ## What is read -/

theorem readHint_sound {hints : List StoredHint} {remaining : List UInt8} {hint : StoredHint} {size : ℕ}
    (h : readHint sizes hints remaining = some (hint, size)) :
    (estimate sizes hint.scope hint.files hint.directories).isSome = true ∧
      ∀ other ∈ hints, other.scope ≠ hint.scope := by
  simp only [readHint, Option.bind_eq_bind, Option.bind_eq_some_iff] at h
  obtain ⟨files, -, directories, -, width, -, h⟩ := h
  split at h
  case isTrue => cases h
  case isFalse =>
    simp only [Option.bind_eq_some_iff] at h
    obtain ⟨text, -, scope, -, capacity, hcapacity, h⟩ := h
    split at h
    case isTrue => cases h
    case isFalse hnew =>
      obtain ⟨rfl, -⟩ := Prod.mk.inj (Option.some.inj h)
      exact ⟨Option.isSome_iff_exists.mpr ⟨capacity, hcapacity⟩, by simpa using hnew⟩

theorem readEach_sound {bytes : List UInt8} {count cursor stop : ℕ} {done hints : List StoredHint}
    (h : readEach sizes bytes count cursor done = some (hints, stop))
    (hdistinct : RecencyList.Distinct StoredHint.scope done)
    (hestimate : ∀ hint ∈ done, (estimate sizes hint.scope hint.files hint.directories).isSome = true) :
    RecencyList.Distinct StoredHint.scope hints ∧ hints.length = done.length + count ∧
      ∀ hint ∈ hints, (estimate sizes hint.scope hint.files hint.directories).isSome = true := by
  induction count generalizing cursor done with
  | zero =>
      obtain ⟨rfl, -⟩ := Prod.mk.inj (Option.some.inj h)
      exact ⟨hdistinct, rfl, hestimate⟩
  | succ count ih =>
      simp only [readEach, Option.bind_eq_bind, Option.bind_eq_some_iff] at h
      obtain ⟨remaining, -, ⟨hint, size⟩, hread, h⟩ := h
      obtain ⟨hone, hnew⟩ := readHint_sound hread
      have hnext : RecencyList.Distinct StoredHint.scope (done ++ [hint]) := hdistinct.concat hnew
      obtain ⟨hdistinct, hlength, hestimate⟩ := ih h hnext
        (List.forall_mem_append.mpr ⟨hestimate, List.forall_mem_singleton.mpr hone⟩)
      refine ⟨hdistinct, ?_, hestimate⟩
      rw [hlength, List.length_append, List.length_singleton]
      omega

/-- Whatever a file holds, hints that are read from it can be stored again. -/
theorem storable_of_readHints {file : Option (List UInt8)} {hints : List StoredHint}
    (h : readHints sizes file = some hints) : Storable sizes hints := by
  simp only [readHints, Option.bind_eq_bind, Option.bind_eq_some_iff] at h
  obtain ⟨bytes, -, h⟩ := h
  split at h
  case isTrue => cases h
  case isFalse =>
    simp only [Option.bind_eq_some_iff] at h
    obtain ⟨⟨cursor, count⟩, -, h⟩ := h
    split at h
    case isTrue => cases h
    case isFalse hcount =>
      simp only [Option.bind_eq_some_iff] at h
      obtain ⟨⟨read, stop⟩, hread, h⟩ := h
      split at h
      case isTrue => cases h
      case isFalse =>
        obtain rfl := Option.some.inj h
        obtain ⟨hdistinct, hlength, hestimate⟩ := readEach_sound hread List.nodup_nil (by simp)
        rw [List.length_nil, Nat.zero_add] at hlength
        have hroom : read.length ≤ maxHints := by omega
        refine ⟨?_, hroom, hdistinct, hestimate⟩
        rintro rfl
        exact hcount (.inl hlength.symm)

end Hints

end CapacityHints

end WinBlaze
