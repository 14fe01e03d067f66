import WinBlaze.Lib.Streams
import WinBlaze.Scanner.Ntfs.MftBitmap

/-!
# Reading the file table from the volume

The table lies in extents of the volume, which is read in whole sectors only. A
read of at least a sector goes straight into the caller's buffer; a smaller one
is served from a chunk that later reads use up first.
-/

namespace WinBlaze

namespace Ntfs

/-- The bytes from `start` on. -/
def bytesFrom (content : UInt64 → UInt8) (start : UInt64) (count : ℕ) : List UInt8 :=
  (List.range count).map (fun i ↦ content (start + .ofNat i))

def extentBytes (content : UInt64 → UInt8) (extent : UInt64 × UInt64) : List UInt8 :=
  bytesFrom content extent.1 extent.2.toNat

/-- A call of `read`: the length of the buffer, and what the device does with an
access to the volume. A device may fail, but delivers nothing wrong. -/
structure ReadCall (content : UInt64 → UInt8) where
  bufferLength : ℕ
  readExact : UInt64 → ℕ → Option (List UInt8)
  eq_of_readExact : ∀ position count bytes,
    readExact position count = some bytes → bytes = bytesFrom content position count

structure VolumeMftReader where
  extents : List (UInt64 × UInt64)
  extentIndex : ℕ
  consumedInExtent : UInt64
  bytesPerSector : ℕ
  chunk : List UInt8
  chunkPos : ℕ
  chunkLen : ℕ

/-- The bytes a call puts into the buffer, `none` when it fails, and its access
to the volume, if it makes one. -/
structure ReadOutcome where
  result : Option (List UInt8)
  access : Option (UInt64 × ℕ)

namespace VolumeMftReader

/-- A reader at the start of the table. -/
def opened (extents : List (UInt64 × UInt64)) (bytesPerSector : ℕ) : VolumeMftReader where
  extents := extents
  extentIndex := 0
  consumedInExtent := 0
  bytesPerSector := bytesPerSector
  chunk := []
  chunkPos := 0
  chunkLen := 0

/-- `Vec::resize` with zeros. -/
def resize (bytes : List UInt8) (count : ℕ) : List UInt8 :=
  (bytes ++ List.replicate (count - bytes.length) 0).take count

def skipExtent (reader : VolumeMftReader) : VolumeMftReader :=
  { reader with extentIndex := reader.extentIndex + 1, consumedInExtent := 0 }

def consume (reader : VolumeMftReader) (count : ℕ) : VolumeMftReader :=
  { reader with consumedInExtent := reader.consumedInExtent + .ofNat count }

/-- Copies from the chunk into a buffer of this length. -/
def serve (reader : VolumeMftReader) (bufferLength : ℕ) : List UInt8 × VolumeMftReader :=
  let available := reader.chunkLen - reader.chunkPos
  let count := min available bufferLength
  ((reader.chunk.drop reader.chunkPos).take count,
    { reader with chunkPos := reader.chunkPos + count })

/-- The `continue` of both loops: an extent that is used up is left behind. -/
def skipFinished (reader : VolumeMftReader) : VolumeMftReader :=
  match _hextent : reader.extents[reader.extentIndex]? with
  | none => reader
  | some extent =>
      if extent.2 - reader.consumedInExtent = 0 then skipFinished reader.skipExtent else reader
termination_by reader.extents.length - reader.extentIndex
decreasing_by
  have hlt := (List.getElem?_eq_some_iff.mp _hextent).1
  dsimp only [skipExtent]
  omega

/-- `fill_chunk`: whether it succeeds, its access, and what it leaves. What a
failed access leaves in the chunk is never served. -/
def fillChunk (readExact : UInt64 → ℕ → Option (List UInt8)) (reader : VolumeMftReader) :
    Bool × Option (UInt64 × ℕ) × VolumeMftReader :=
  let reader := reader.skipFinished
  match reader.extents[reader.extentIndex]? with
  | none => (true, none, { reader with chunkPos := 0, chunkLen := 0 })
  | some extent =>
      let remaining := extent.2 - reader.consumedInExtent
      let toRead := min remaining.toNat volumeReadChunk
      let position := extent.1 + reader.consumedInExtent
      match readExact position toRead with
      | none => (false, some (position, toRead),
          { reader with chunk := resize reader.chunk toRead })
      | some bytes => (true, some (position, toRead),
          { reader.consume toRead with chunk := bytes, chunkPos := 0, chunkLen := toRead })

/-- The loop of `read` over the extents, once the chunk is used up. -/
def readExtents (readExact : UInt64 → ℕ → Option (List UInt8)) (bufferLength : ℕ)
    (reader : VolumeMftReader) : ReadOutcome × VolumeMftReader :=
  let reader := reader.skipFinished
  match reader.extents[reader.extentIndex]? with
  | none => (⟨some [], none⟩, reader)
  | some extent =>
      let remaining := extent.2 - reader.consumedInExtent
      let sector := max reader.bytesPerSector 512
      let direct := min bufferLength remaining.toNat / sector * sector
      let position := extent.1 + reader.consumedInExtent
      if sector ≤ direct then
        match readExact position direct with
        | none => (⟨none, some (position, direct)⟩, reader)
        | some bytes => (⟨some bytes, some (position, direct)⟩, reader.consume direct)
      else
        match reader.fillChunk readExact with
        | (false, access, reader) => (⟨none, access⟩, reader)
        | (true, access, reader) =>
            if reader.chunkLen = 0 then (⟨some [], access⟩, reader)
            else (⟨some (reader.serve bufferLength).1, access⟩, (reader.serve bufferLength).2)

def read {content : UInt64 → UInt8} (reader : VolumeMftReader) (call : ReadCall content) :
    ReadOutcome × VolumeMftReader :=
  if reader.chunkPos < reader.chunkLen then
    (⟨some (reader.serve call.bufferLength).1, none⟩, (reader.serve call.bufferLength).2)
  else reader.readExtents call.readExact call.bufferLength

/-! ## What is unread -/

/-- The bytes of these extents behind the first `consumed` ones. -/
def unreadExtents (content : UInt64 → UInt8) : List (UInt64 × UInt64) → UInt64 → List UInt8
  | [], _ => []
  | extent :: rest, consumed =>
      bytesFrom content (extent.1 + consumed) (extent.2 - consumed).toNat ++
        rest.flatMap (extentBytes content)

def unreadChunk (reader : VolumeMftReader) : List UInt8 :=
  (reader.chunk.drop reader.chunkPos).take (reader.chunkLen - reader.chunkPos)

def unread (content : UInt64 → UInt8) (reader : VolumeMftReader) : List UInt8 :=
  reader.unreadChunk ++
    unreadExtents content (reader.extents.drop reader.extentIndex) reader.consumedInExtent

/-- A reader between two calls, on a volume with sectors of this size. -/
structure Ready (sector : ℕ) (reader : VolumeMftReader) : Prop where
  bytesPerSector : reader.bytesPerSector = sector
  aligned : ∀ extent ∈ reader.extents, sector ∣ extent.1.toNat ∧ sector ∣ extent.2.toNat
  consumed_le : ∀ extent, reader.extents[reader.extentIndex]? = some extent →
    reader.consumedInExtent.toNat ≤ extent.2.toNat
  consumed_dvd : sector ∣ reader.consumedInExtent.toNat
  chunk : reader.chunkPos < reader.chunkLen → reader.chunkLen ≤ reader.chunk.length

/-- A sector size that divides the chunk, and the address space. -/
structure SectorSize (sector : ℕ) : Prop where
  least : 512 ≤ sector
  dvd_chunk : sector ∣ volumeReadChunk
  dvd_word : sector ∣ 2 ^ 64

theorem sectorSize_of_pow {k : ℕ} (hleast : 512 ≤ 2 ^ k) (hmost : 2 ^ k ≤ 4096) :
    SectorSize (2 ^ k) := by
  have hk : k ≤ 12 := (Nat.pow_le_pow_iff_right (by decide)).mp hmost
  exact ⟨hleast, (Nat.pow_dvd_pow 2 (by omega : k ≤ 22)), Nat.pow_dvd_pow 2 (by omega)⟩

section Bytes

variable {content : UInt64 → UInt8}

@[simp] theorem length_bytesFrom (start : UInt64) (count : ℕ) :
    (bytesFrom content start count).length = count := by
  simp [bytesFrom]

theorem bytesFrom_add (start : UInt64) (count more : ℕ) :
    bytesFrom content start (count + more) =
      bytesFrom content start count ++ bytesFrom content (start + .ofNat count) more := by
  simp only [bytesFrom, List.range_add, List.map_append, List.map_map, List.append_cancel_left_eq]
  refine List.map_congr_left fun i _ ↦ ?_
  simp only [Function.comp_apply, UInt64.ofNat_add, add_assoc]

theorem toNat_add_ofNat {consumed total : UInt64} {count : ℕ}
    (h : consumed.toNat + count ≤ total.toNat) :
    (consumed + .ofNat count).toNat = consumed.toNat + count := by
  have htotal := total.toNat_lt
  rw [UInt64.toNat_add, UInt64.toNat_ofNat_of_lt' (by omega : count < 2 ^ 64)]
  exact Nat.mod_eq_of_lt (by omega)

theorem toNat_sub {consumed total : UInt64} (h : consumed.toNat ≤ total.toNat) :
    (total - consumed).toNat = total.toNat - consumed.toNat :=
  UInt64.toNat_sub_of_le _ _ (UInt64.le_iff_toNat_le.mpr h)

/-- The front of an extent apart from the rest. -/
theorem unreadExtents_cons {extent : UInt64 × UInt64} (rest : List (UInt64 × UInt64))
    {consumed : UInt64} {count : ℕ} (h : consumed.toNat + count ≤ extent.2.toNat) :
    unreadExtents content (extent :: rest) consumed =
      bytesFrom content (extent.1 + consumed) count ++
        unreadExtents content (extent :: rest) (consumed + .ofNat count) := by
  have hadd := toNat_add_ofNat h
  have hleft : (extent.2 - consumed).toNat =
      count + (extent.2 - (consumed + .ofNat count)).toNat := by
    rw [toNat_sub (by omega), toNat_sub (by omega), hadd]
    omega
  rw [unreadExtents, unreadExtents, hleft, bytesFrom_add, List.append_assoc, add_assoc]

/-- An extent that is used up holds nothing unread. -/
theorem unreadExtents_of_finished {extent : UInt64 × UInt64} (rest : List (UInt64 × UInt64))
    {consumed : UInt64} (h : extent.2 - consumed = 0) :
    unreadExtents content (extent :: rest) consumed = unreadExtents content rest 0 := by
  rw [unreadExtents, h]
  cases rest with
  | nil => rfl
  | cons next others =>
      rw [unreadExtents, List.flatMap_cons, extentBytes, add_zero, sub_zero]
      rfl

end Bytes

/-! ## The step lemmas -/

section Steps

variable {content : UInt64 → UInt8} {sector : ℕ} {reader : VolumeMftReader}

theorem drop_extents {extent : UInt64 × UInt64}
    (h : reader.extents[reader.extentIndex]? = some extent) :
    reader.extents.drop reader.extentIndex =
      extent :: reader.extents.drop (reader.extentIndex + 1) := by
  obtain ⟨hlt, rfl⟩ := List.getElem?_eq_some_iff.mp h
  exact List.drop_eq_getElem_cons hlt

theorem ready_skipExtent (hready : Ready sector reader) : Ready sector reader.skipExtent where
  bytesPerSector := hready.bytesPerSector
  aligned := hready.aligned
  consumed_le _ _ := Nat.zero_le _
  consumed_dvd := dvd_zero sector
  chunk := hready.chunk

theorem unread_skipExtent {extent : UInt64 × UInt64}
    (h : reader.extents[reader.extentIndex]? = some extent)
    (hfinished : extent.2 - reader.consumedInExtent = 0) :
    unread content reader.skipExtent = unread content reader := by
  unfold unread
  rw [drop_extents h, unreadExtents_of_finished _ hfinished]
  rfl

theorem skipFinished_of_none (h : reader.extents[reader.extentIndex]? = none) :
    reader.skipFinished = reader := by
  rw [skipFinished]
  split
  case h_1 => rfl
  case h_2 extent hextent => cases h.symm.trans hextent

theorem skipFinished_of_some {extent : UInt64 × UInt64}
    (h : reader.extents[reader.extentIndex]? = some extent) :
    reader.skipFinished =
      if extent.2 - reader.consumedInExtent = 0 then reader.skipExtent.skipFinished else reader := by
  rw [skipFinished]
  split
  case h_1 hnone => cases h.symm.trans hnone
  case h_2 other hother =>
    obtain rfl := Option.some.inj (h.symm.trans hother)
    rfl

/-- What the loop over used up extents leaves. -/
structure Skipped (content : UInt64 → UInt8) (sector : ℕ) (reader skipped : VolumeMftReader) :
    Prop where
  ready : Ready sector skipped
  unread_eq : unread content skipped = unread content reader
  chunkPos : skipped.chunkPos = reader.chunkPos
  chunkLen : skipped.chunkLen = reader.chunkLen
  unfinished : ∀ extent, skipped.extents[skipped.extentIndex]? = some extent →
    extent.2 - skipped.consumedInExtent ≠ 0

theorem skipped_skipFinished (content : UInt64 → UInt8) (hready : Ready sector reader) :
    Skipped content sector reader reader.skipFinished := by
  induction hleft : reader.extents.length - reader.extentIndex using Nat.strong_induction_on
    generalizing reader with
  | h left ih =>
      cases hextent : reader.extents[reader.extentIndex]? with
      | none =>
          rw [skipFinished_of_none hextent]
          exact ⟨hready, rfl, rfl, rfl, fun extent h ↦ by cases hextent.symm.trans h⟩
      | some extent =>
          rw [skipFinished_of_some hextent]
          by_cases hfinished : extent.2 - reader.consumedInExtent = 0
          · have hlt := (List.getElem?_eq_some_iff.mp hextent).1
            have hskipped := ih (reader.extents.length - (reader.extentIndex + 1)) (by omega)
              (ready_skipExtent hready) rfl
            rw [if_pos hfinished]
            exact ⟨hskipped.ready, hskipped.unread_eq.trans (unread_skipExtent hextent hfinished),
              hskipped.chunkPos, hskipped.chunkLen, hskipped.unfinished⟩
          · rw [if_neg hfinished]
            refine ⟨hready, rfl, rfl, rfl, fun other hother ↦ ?_⟩
            obtain rfl := Option.some.inj (hextent.symm.trans hother)
            exact hfinished

theorem unreadChunk_of_le (h : reader.chunkLen ≤ reader.chunkPos) : reader.unreadChunk = [] := by
  rw [unreadChunk, Nat.sub_eq_zero_of_le h, List.take_zero]

/-- Once the chunk is used up, what is unread lies in the extents. -/
theorem unread_of_le (h : reader.chunkLen ≤ reader.chunkPos) :
    unread content reader =
      unreadExtents content (reader.extents.drop reader.extentIndex) reader.consumedInExtent := by
  rw [unread, unreadChunk_of_le h, List.nil_append]

theorem ready_consume {extent : UInt64 × UInt64} {count : ℕ} (hready : Ready sector reader)
    (hextent : reader.extents[reader.extentIndex]? = some extent)
    (hcount : reader.consumedInExtent.toNat + count ≤ extent.2.toNat) (hdvd : sector ∣ count) :
    Ready sector (reader.consume count) := by
  have hadd := toNat_add_ofNat hcount
  refine ⟨hready.bytesPerSector, hready.aligned, fun other hother ↦ ?_, ?_, hready.chunk⟩
  · obtain rfl := Option.some.inj (hextent.symm.trans hother)
    exact hadd.trans_le hcount
  · rw [consume, hadd]
    exact Nat.dvd_add hready.consumed_dvd hdvd

/-- The bytes behind the chunk, after an access that consumes `count` of them. -/
theorem unreadExtents_consume {extent : UInt64 × UInt64} {count : ℕ}
    (hextent : reader.extents[reader.extentIndex]? = some extent)
    (hcount : reader.consumedInExtent.toNat + count ≤ extent.2.toNat) :
    unreadExtents content (reader.extents.drop reader.extentIndex) reader.consumedInExtent =
      bytesFrom content (extent.1 + reader.consumedInExtent) count ++
        unreadExtents content ((reader.consume count).extents.drop (reader.consume count).extentIndex)
          (reader.consume count).consumedInExtent := by
  rw [drop_extents hextent, unreadExtents_cons _ hcount, consume, drop_extents hextent]

/-- Copying from the chunk takes its front. -/
theorem unreadChunk_serve (bufferLength : ℕ) :
    reader.unreadChunk =
      (reader.serve bufferLength).1 ++ (reader.serve bufferLength).2.unreadChunk := by
  have hle : min (reader.chunkLen - reader.chunkPos) bufferLength ≤
      reader.chunkLen - reader.chunkPos := min_le_left _ _
  unfold unreadChunk serve
  dsimp only
  rw [← Nat.sub_sub, ← List.drop_drop, ← List.take_add, Nat.add_sub_cancel' hle]

theorem ready_serve (bufferLength : ℕ) (hready : Ready sector reader) :
    Ready sector (reader.serve bufferLength).2 :=
  ⟨hready.bytesPerSector, hready.aligned, hready.consumed_le, hready.consumed_dvd,
    fun h ↦ hready.chunk ((Nat.le_add_right _ _).trans_lt h)⟩

theorem unread_serve (bufferLength : ℕ) :
    unread content reader = (reader.serve bufferLength).1 ++
      unread content (reader.serve bufferLength).2 := by
  unfold unread
  rw [unreadChunk_serve bufferLength, List.append_assoc]
  rfl

theorem serve_ne_nil {bufferLength : ℕ} (hready : Ready sector reader)
    (hchunk : reader.chunkPos < reader.chunkLen) (hbuffer : bufferLength ≠ 0) :
    (reader.serve bufferLength).1 ≠ [] := by
  have hlength := hready.chunk hchunk
  intro hnil
  have hzero := congrArg List.length hnil
  simp only [serve, List.length_take, List.length_drop, List.length_nil] at hzero
  omega

theorem dvd_position {extent : UInt64 × UInt64} (hsector : SectorSize sector)
    (hready : Ready sector reader)
    (hextent : reader.extents[reader.extentIndex]? = some extent) :
    sector ∣ (extent.1 + reader.consumedInExtent).toNat := by
  rw [UInt64.toNat_add, Nat.dvd_mod_iff hsector.dvd_word]
  exact Nat.dvd_add (hready.aligned extent (List.mem_of_getElem? hextent)).1 hready.consumed_dvd

/-- What is left of an extent is whole sectors. -/
theorem dvd_remaining {extent : UInt64 × UInt64} (hready : Ready sector reader)
    (hextent : reader.extents[reader.extentIndex]? = some extent) :
    sector ∣ (extent.2 - reader.consumedInExtent).toNat := by
  rw [toNat_sub (hready.consumed_le extent hextent)]
  exact Nat.dvd_sub (hready.aligned extent (List.mem_of_getElem? hextent)).2 hready.consumed_dvd

theorem add_le_of_le_remaining {extent : UInt64 × UInt64} {count : ℕ} (hready : Ready sector reader)
    (hextent : reader.extents[reader.extentIndex]? = some extent)
    (hcount : count ≤ (extent.2 - reader.consumedInExtent).toNat) :
    reader.consumedInExtent.toNat + count ≤ extent.2.toNat := by
  have hle := hready.consumed_le extent hextent
  rw [toNat_sub hle] at hcount
  omega

/-- The chunk that a small read fills, at an extent that has bytes left. -/
structure Filled (content : UInt64 → UInt8) (sector : ℕ) (reader : VolumeMftReader)
    (filled : Bool × Option (UInt64 × ℕ) × VolumeMftReader) : Prop where
  ready : Ready sector filled.2.2
  unread_eq : unread content filled.2.2 = unread content reader
  aligned : ∀ access ∈ filled.2.1, sector ∣ access.1.toNat ∧ sector ∣ access.2
  nonempty : filled.1 = true → filled.2.2.chunkPos < filled.2.2.chunkLen

theorem filled_fillChunk {extent : UInt64 × UInt64} (call : ReadCall content)
    (hsector : SectorSize sector) (hready : Ready sector reader)
    (hchunk : reader.chunkLen ≤ reader.chunkPos)
    (hextent : reader.extents[reader.extentIndex]? = some extent)
    (hunfinished : extent.2 - reader.consumedInExtent ≠ 0) :
    Filled content sector reader (reader.fillChunk call.readExact) := by
  have hskip : reader.skipFinished = reader := by
    rw [skipFinished_of_some hextent, if_neg hunfinished]
  have hremaining : (extent.2 - reader.consumedInExtent).toNat ≠ 0 :=
    fun hzero ↦ hunfinished (UInt64.toNat_inj.mp hzero)
  have hposition := dvd_position hsector hready hextent
  have hdvd : sector ∣ min (extent.2 - reader.consumedInExtent).toNat volumeReadChunk := by
    rcases min_choice (extent.2 - reader.consumedInExtent).toNat volumeReadChunk with h | h
    · rw [h]
      exact dvd_remaining hready hextent
    · rw [h]
      exact hsector.dvd_chunk
  have hcount := add_le_of_le_remaining hready hextent
    (min_le_left (extent.2 - reader.consumedInExtent).toNat volumeReadChunk)
  have hpos : 0 < min (extent.2 - reader.consumedInExtent).toNat volumeReadChunk :=
    lt_min (Nat.pos_of_ne_zero hremaining) (by decide)
  unfold fillChunk
  dsimp only
  rw [hskip, hextent]
  dsimp only
  generalize min (extent.2 - reader.consumedInExtent).toNat volumeReadChunk = toRead at *
  split
  case h_1 hfailed =>
    refine ⟨⟨hready.bytesPerSector, hready.aligned, hready.consumed_le, hready.consumed_dvd,
      fun h ↦ (hchunk.not_gt h).elim⟩, ?_, ?_, Bool.false_ne_true.elim⟩
    · rw [unread_of_le hchunk]
      exact unread_of_le hchunk
    · rintro access ⟨⟩
      exact ⟨hposition, hdvd⟩
  case h_2 bytes hbytes =>
    obtain rfl := call.eq_of_readExact _ _ _ hbytes
    have hconsumed := ready_consume hready hextent hcount hdvd
    refine ⟨⟨hconsumed.bytesPerSector, hconsumed.aligned, hconsumed.consumed_le,
      hconsumed.consumed_dvd, fun _ ↦ (length_bytesFrom _ _).ge⟩, ?_, ?_, fun _ ↦ hpos⟩
    · have hserved : unreadChunk ({ reader.consume toRead with
          chunk := bytesFrom content (extent.1 + reader.consumedInExtent) toRead,
          chunkPos := 0, chunkLen := toRead } : VolumeMftReader) =
            bytesFrom content (extent.1 + reader.consumedInExtent) toRead :=
        List.take_of_length_le (length_bytesFrom _ _).le
      rw [unread_of_le hchunk, unreadExtents_consume hextent hcount, unread, hserved]
    · rintro access ⟨⟩
      exact ⟨hposition, hdvd⟩

/-- What one call does. -/
structure Serves (content : UInt64 → UInt8) (sector bufferLength : ℕ) (reader : VolumeMftReader)
    (step : ReadOutcome × VolumeMftReader) : Prop where
  ready : Ready sector step.2
  unread_eq : unread content reader = step.1.result.getD [] ++ unread content step.2
  unread_of_end : bufferLength ≠ 0 → step.1.result = some [] → unread content reader = []
  aligned : ∀ access ∈ step.1.access, sector ∣ access.1.toNat ∧ sector ∣ access.2

theorem serves_readExtents (call : ReadCall content) (hsector : SectorSize sector)
    (hready : Ready sector reader) (hchunk : reader.chunkLen ≤ reader.chunkPos) :
    Serves content sector call.bufferLength reader
      (reader.readExtents call.readExact call.bufferLength) := by
  have hskipped := skipped_skipFinished content hready
  have hchunk' : reader.skipFinished.chunkLen ≤ reader.skipFinished.chunkPos := by
    rwa [hskipped.chunkLen, hskipped.chunkPos]
  unfold readExtents
  dsimp only
  cases hextent : reader.skipFinished.extents[reader.skipFinished.extentIndex]? with
  | none =>
      have hnone : unread content reader = [] := by
        rw [← hskipped.unread_eq, unread_of_le hchunk',
          List.drop_eq_nil_iff.mpr (List.getElem?_eq_none_iff.mp hextent)]
        rfl
      exact ⟨hskipped.ready, hskipped.unread_eq.symm, fun _ _ ↦ hnone, by simp⟩
  | some extent =>
      have hunfinished := hskipped.unfinished extent hextent
      have hpositive : 0 < max reader.skipFinished.bytesPerSector 512 :=
        lt_max_of_lt_right (by decide)
      have hsize : max reader.skipFinished.bytesPerSector 512 = sector := by
        rw [hskipped.ready.bytesPerSector]
        exact max_eq_left hsector.least
      rw [hsize] at hpositive ⊢
      dsimp only
      by_cases hdirect : sector ≤
          min call.bufferLength (extent.2 - reader.skipFinished.consumedInExtent).toNat /
            sector * sector
      · have hle := (Nat.div_mul_le_self (min call.bufferLength
          (extent.2 - reader.skipFinished.consumedInExtent).toNat) sector).trans (min_le_right _ _)
        have hdvd : sector ∣ min call.bufferLength
            (extent.2 - reader.skipFinished.consumedInExtent).toNat / sector * sector :=
          Nat.dvd_mul_left _ _
        rw [if_pos hdirect]
        generalize min call.bufferLength
          (extent.2 - reader.skipFinished.consumedInExtent).toNat / sector * sector = direct at *
        have hcount := add_le_of_le_remaining hskipped.ready hextent hle
        have haligned := And.intro (dvd_position hsector hskipped.ready hextent) hdvd
        split
        case h_1 =>
          refine ⟨hskipped.ready, hskipped.unread_eq.symm, fun _ hend ↦ ?_, ?_⟩
          · cases hend
          · rintro access ⟨⟩
            exact haligned
        case h_2 bytes hbytes =>
          obtain rfl := call.eq_of_readExact _ _ _ hbytes
          have hchunk'' : (reader.skipFinished.consume direct).chunkLen ≤
              (reader.skipFinished.consume direct).chunkPos := hchunk'
          refine ⟨ready_consume hskipped.ready hextent hcount hdvd, ?_, fun _ hend ↦ ?_, ?_⟩
          · rw [← hskipped.unread_eq, unread_of_le hchunk', unreadExtents_consume hextent hcount]
            exact congrArg _ (unread_of_le hchunk'').symm
          · have hlength := congrArg List.length (Option.some.inj hend)
            simp only [length_bytesFrom, List.length_nil] at hlength
            omega
          · rintro access ⟨⟩
            exact haligned
      · have hfilled := filled_fillChunk call hsector hskipped.ready hchunk' hextent hunfinished
        rw [if_neg hdirect]
        split
        case h_1 access filled heq =>
          rw [heq] at hfilled
          refine ⟨hfilled.ready, (hfilled.unread_eq.trans hskipped.unread_eq).symm, fun _ hend ↦ ?_,
            hfilled.aligned⟩
          cases hend
        case h_2 access filled heq =>
          rw [heq] at hfilled
          have hnonempty := hfilled.nonempty rfl
          dsimp only at hnonempty
          rw [if_neg (by omega)]
          refine ⟨ready_serve _ hfilled.ready, ?_, fun hbuffer hend ↦ ?_, hfilled.aligned⟩
          · rw [← hskipped.unread_eq, ← hfilled.unread_eq]
            exact unread_serve call.bufferLength
          · exact (serve_ne_nil hfilled.ready hnonempty hbuffer (Option.some.inj hend)).elim

theorem serves_read (call : ReadCall content) (hsector : SectorSize sector)
    (hready : Ready sector reader) :
    Serves content sector call.bufferLength reader (reader.read call) := by
  unfold read
  split
  case isTrue hchunk =>
    exact ⟨ready_serve _ hready, unread_serve _,
      fun hbuffer hend ↦ (serve_ne_nil hready hchunk hbuffer (Option.some.inj hend)).elim, by simp⟩
  case isFalse hchunk => exact serves_readExtents call hsector hready (not_lt.mp hchunk)

end Steps

/-! ## Runs -/

theorem reads (content : UInt64 → UInt8) {sector : ℕ} (hsector : SectorSize sector) :
    Streams.Reads (fun reader (call : ReadCall content) ↦ reader.read call)
      (fun outcome ↦ outcome.result.getD []) (unread content)
      (fun call outcome ↦ call.bufferLength ≠ 0 ∧ outcome.result = some []) (Ready sector) where
  inv_read _ call hready := (serves_read call hsector hready).ready
  unread_eq _ call hready := (serves_read call hsector hready).unread_eq
  unread_of_end _ call hready hend := (serves_read call hsector hready).unread_of_end hend.1 hend.2

section Runs

variable (extents : List (UInt64 × UInt64)) (bytesPerSector : ℕ)

theorem ready_opened (haligned : ∀ extent ∈ extents,
    bytesPerSector ∣ extent.1.toNat ∧ bytesPerSector ∣ extent.2.toNat) :
    Ready bytesPerSector (opened extents bytesPerSector) where
  bytesPerSector := rfl
  aligned := haligned
  consumed_le _ _ := Nat.zero_le _
  consumed_dvd := dvd_zero bytesPerSector
  chunk h := (lt_irrefl _ h).elim

theorem unread_opened (content : UInt64 → UInt8) :
    unread content (opened extents bytesPerSector) = extents.flatMap (extentBytes content) := by
  cases extents with
  | nil => rfl
  | cons extent rest =>
      rw [unread_of_le le_rfl, List.flatMap_cons, extentBytes]
      simp only [opened, List.drop_zero, unreadExtents, add_zero, sub_zero]

/-- The outcomes of these calls on a reader at the start of the table. -/
def readCalls {content : UInt64 → UInt8} (calls : List (ReadCall content)) :
    List ReadOutcome × VolumeMftReader :=
  Streams.run (fun reader call ↦ reader.read call) (opened extents bytesPerSector) calls

def returnedBytes (outcomes : List ReadOutcome) : List UInt8 :=
  outcomes.flatMap (fun outcome ↦ outcome.result.getD [])

/-- The calls hand out the extents in order, a call reports the end only behind
all of them, and every access is made of whole sectors. -/
theorem returnedBytes_readCalls (hpow : ∃ k, bytesPerSector = 2 ^ k) (hleast : 512 ≤ bytesPerSector)
    (hmost : bytesPerSector ≤ 4096) (haligned : ∀ extent ∈ extents,
      bytesPerSector ∣ extent.1.toNat ∧ bytesPerSector ∣ extent.2.toNat)
    (content : UInt64 → UInt8) (calls : List (ReadCall content)) :
    returnedBytes (readCalls extents bytesPerSector calls).1 <+:
        extents.flatMap (extentBytes content) ∧
    (∀ before call after, calls = before ++ call :: after → call.bufferLength ≠ 0 →
      ((readCalls extents bytesPerSector before).2.read call).1.result = some [] →
        returnedBytes (readCalls extents bytesPerSector before).1 =
          extents.flatMap (extentBytes content)) ∧
    ∀ outcome ∈ (readCalls extents bytesPerSector calls).1, ∀ access ∈ outcome.access,
      bytesPerSector ∣ access.1.toNat ∧ bytesPerSector ∣ access.2 := by
  obtain ⟨k, rfl⟩ := hpow
  have hsector := sectorSize_of_pow hleast hmost
  have hready := ready_opened extents (2 ^ k) haligned
  have hunread := unread_opened extents (2 ^ k) content
  have hreads := reads content hsector
  refine ⟨?_, fun before call after _ hbuffer hend ↦ ?_, ?_⟩
  · rw [← hunread]
    exact hreads.isPrefix_run hready calls
  · rw [← hunread]
    exact hreads.eq_of_end hready before ⟨hbuffer, hend⟩
  · exact hreads.forall_mem_run
      (fun _ call hinv ↦ (serves_read call hsector hinv).aligned) hready calls

end Runs

/-- Two extents, read by a small buffer, a large one and one behind the end. -/
def sampleCalls : List (ReadCall (fun position ↦ position.toUInt8)) :=
  [100, 600, 4096, 5000, 1].map (fun bufferLength ↦
    { bufferLength := bufferLength
      readExact := fun position count ↦
        some (bytesFrom (fun position ↦ position.toUInt8) position count)
      eq_of_readExact := fun _ _ _ h ↦ (Option.some.inj h).symm })

theorem returnedBytes_sampleCalls :
    returnedBytes (readCalls [(8192, 1024), (4096, 2048)] 512 sampleCalls).1 <+:
      [(8192, 1024), (4096, 2048)].flatMap (extentBytes (fun position ↦ position.toUInt8)) :=
  (returnedBytes_readCalls [(8192, 1024), (4096, 2048)] 512 ⟨9, rfl⟩ (by decide) (by decide)
    (by simp) (fun position ↦ position.toUInt8) sampleCalls).1

end VolumeMftReader

end Ntfs

end WinBlaze
