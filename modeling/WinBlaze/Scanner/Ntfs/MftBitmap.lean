import WinBlaze.Scanner.Ntfs.Dump
import WinBlaze.Scanner.Ntfs.KeepExtents

/-!
# Reading the bitmap of the file table

The table's own record holds its bitmap inline, as runs of clusters, or behind
an attribute list that names another record. What is read may be shorter than
the table has records: only the fragment that starts the bitmap is followed, and
the value is cut at the size its attribute declares. A record without a bit then
counts as free.
-/

namespace WinBlaze

namespace Ntfs

def attributeBitmap : UInt32 := 0xB0

def volumeReadChunk : ℕ := 4 * 1024 * 1024

/-- A volume opened for reading: what `read_exact` delivers at a position. -/
structure Volume where
  read : UInt64 → ℕ → Except String (List UInt8)
  length_read : ∀ position count bytes, read position count = .ok bytes → bytes.length = count

structure MftGeometry where
  bytesPerSector : UInt16
  bytesPerCluster : UInt64
  mftStartOffset : UInt64
  recordSize : UInt32
  deriving DecidableEq, Repr

def invalidData {α : Type} (message : String) : Parse α := .error (.error (.io message))

def Volume.readExact (volume : Volume) (position : UInt64) (count : ℕ) : Parse (List UInt8) :=
  match volume.read position count with
  | .ok bytes => .ok bytes
  | .error message => invalidData message

/-! ## Data runs -/

/-- The run at `cursor`: its clusters, its place relative to the run before it,
and where the next one starts. -/
def decodeDataRun (runs : List UInt8) (cursor : ℕ) : Parse (UInt64 × ℤ × ℕ) :=
  let header := u8At runs cursor
  let lengthSize := (header &&& 0x0F).toNat
  let offsetSize := (header >>> 4).toNat
  if lengthSize = 0 ∨ lengthSize > 8 ∨ offsetSize > 8 then invalidData "invalid data run header"
  else if cursor + 1 + lengthSize + offsetSize > runs.length then invalidData "truncated data run"
  else if offsetSize = 0 then invalidData "sparse run in MFT data attribute"
  else
    .ok (.ofNat (numberAt lengthSize runs (cursor + 1)),
      (BitVec.ofNat (8 * offsetSize) (numberAt offsetSize runs (cursor + 1 + lengthSize))).toInt,
      cursor + 1 + lengthSize + offsetSize)

/-- The extent of a run of `runLength` clusters from `currentLcn` on. -/
def runExtent (bytesPerCluster runLength : UInt64) (currentLcn : ℤ) : Parse (UInt64 × UInt64) :=
  if currentLcn < -2 ^ 63 ∨ 2 ^ 63 ≤ currentLcn then invalidData "data run offset overflow"
  else if currentLcn < 0 ∨ runLength = 0 then invalidData "data run points before volume start"
  else if currentLcn.toNat * bytesPerCluster.toNat < 2 ^ 64 ∧
      runLength.toNat * bytesPerCluster.toNat < 2 ^ 64 then
    .ok (.ofNat (currentLcn.toNat * bytesPerCluster.toNat), runLength * bytesPerCluster)
  else invalidData "data run size overflow"

theorem lt_of_decodeDataRun {runs : List UInt8} {cursor : ℕ} {run : UInt64 × ℤ × ℕ}
    (h : decodeDataRun runs cursor = .ok run) : cursor < run.2.2 ∧ run.2.2 ≤ runs.length := by
  unfold decodeDataRun at h
  simp only at h
  split at h
  · cases h
  · split at h
    · cases h
    · split at h
      · cases h
      · cases h
        exact ⟨by dsimp only; omega, by dsimp only; omega⟩

def decodeDataRunsFrom (runs : List UInt8) (bytesPerCluster : UInt64) (cursor : ℕ) (currentLcn : ℤ)
    (extents : List (UInt64 × UInt64)) : Parse (List (UInt64 × UInt64)) :=
  if _hcursor : cursor < runs.length then
    if u8At runs cursor = 0 then .ok extents
    else
      match _hrun : decodeDataRun runs cursor with
      | .error failure => .error failure
      | .ok run =>
          match runExtent bytesPerCluster run.1 (currentLcn + run.2.1) with
          | .error failure => .error failure
          | .ok extent => decodeDataRunsFrom runs bytesPerCluster run.2.2 (currentLcn + run.2.1)
              (extents ++ [extent])
  else .ok extents
termination_by runs.length - cursor
decreasing_by
  have hlt := (lt_of_decodeDataRun _hrun).1
  omega

def decodeDataRuns (runs : List UInt8) (bytesPerCluster : UInt64) :
    Parse (List (UInt64 × UInt64)) := do
  let extents ← decodeDataRunsFrom runs bytesPerCluster 0 0 []
  if extents.isEmpty then invalidData "MFT data attribute has no runs" else pure extents

/-! ## Attribute values -/

/-- The bytes of an extent from `offset` on, read in chunks. -/
def readExtentFrom (volume : Volume) (extent : UInt64 × UInt64) (offset : ℕ) : Parse (List UInt8) :=
  if _hoffset : offset < extent.2.toNat then do
    let toRead := min (extent.2.toNat - offset) volumeReadChunk
    let bytes ← volume.readExact (extent.1 + .ofNat offset) toRead
    let rest ← readExtentFrom volume extent (offset + toRead)
    pure (bytes ++ rest)
  else .ok []
termination_by extent.2.toNat - offset
decreasing_by
  rw [volumeReadChunk]
  omega

/-- The value of the non-resident attribute at `cursor`, cut at its declared
size. A run list that starts behind the attribute is left to the caller. -/
def nonResidentValue (volume : Volume) (geometry : MftGeometry) (record : List UInt8)
    (cursor attributeLength : ℕ) (outside : Parse (Option (List UInt8))) :
    Parse (Option (List UInt8)) := do
  let realSize ← if 56 ≤ attributeLength then leU64 record (cursor + 48) else pure (.ofNat (2 ^ 64 - 1))
  let runOffset := (← leU16 record (cursor + 32)).toNat
  if attributeLength ≤ runOffset then outside
  else
    let runs := (record.drop (cursor + runOffset)).take (attributeLength - runOffset)
    let extents ← decodeDataRuns runs geometry.bytesPerCluster
    let chunks ← extents.mapM (fun extent ↦ readExtentFrom volume extent 0)
    pure (some (chunks.flatten.take realSize.toNat))

/-- The value of the first attribute of a type, by `value` from its place and
length; `none` when the record has no such attribute. -/
def attributeValueFrom (record : List UInt8) (attributeType : UInt32)
    (value : ℕ → ℕ → Parse (Option (List UInt8))) (cursor : ℕ) : Parse (Option (List UInt8)) :=
  if _hcursor : cursor + 8 ≤ record.length then do
    let type ← leU32 record cursor
    if type = .ofNat (2 ^ 32 - 1) then pure none
    else
      let attributeLength := (← leU32 record (cursor + 4)).toNat
      if _hlength : attributeLength = 0 ∨ cursor + attributeLength > record.length then pure none
      else if type = attributeType then value cursor attributeLength
      else attributeValueFrom record attributeType value (cursor + attributeLength)
  else pure none
termination_by record.length - cursor
decreasing_by omega

/-- The bitmap in a record, if the record has one. -/
def extractBitmapFromRecord (record : List UInt8) (volume : Volume) (geometry : MftGeometry) :
    Parse (Option (List UInt8)) := do
  let firstAttrOffset ← leU16 record 20
  attributeValueFrom record attributeBitmap (fun cursor attributeLength ↦
    if u8At record (cursor + 8) = 0 then do
      let valueOffset := (← leU16 record (cursor + 20)).toNat
      let valueLength := (← leU32 record (cursor + 16)).toNat
      let start := cursor + valueOffset
      if start + valueLength ≤ record.length then
        pure (some ((record.drop start).take valueLength))
      else invalidData "resident $BITMAP out of bounds"
    else nonResidentValue volume geometry record cursor attributeLength
      (invalidData "$BITMAP run offset out of bounds")) firstAttrOffset.toNat

/-- The attribute list of a record, if the record has one. -/
def readAttributeListValue (record : List UInt8) (volume : Volume) (geometry : MftGeometry) :
    Parse (Option (List UInt8)) := do
  let firstAttrOffset ← leU16 record 20
  attributeValueFrom record attributeList (fun cursor attributeLength ↦
    if u8At record (cursor + 8) = 0 then do
      let valueOffset := (← leU16 record (cursor + 20)).toNat
      let valueLength := (← leU32 record (cursor + 16)).toNat
      let start := cursor + valueOffset
      let stop := min (start + valueLength) record.length
      if start ≤ stop then pure (some ((record.drop start).take (stop - start)))
      else throw .panic
    else nonResidentValue volume geometry record cursor attributeLength (pure none))
    firstAttrOffset.toNat

/-- The record an attribute list names for the start of the bitmap. -/
def attributeListBitmapRecordFrom (list : List UInt8) (pos : ℕ) : Option UInt64 :=
  if _hpos : pos + 0x18 ≤ list.length then
    let entryLen := (u16At list (pos + 4)).toNat
    if _hlen : entryLen < 0x18 ∨ pos + entryLen > list.length then none
    else if u32At list pos = attributeBitmap ∧ u64At list (pos + 8) = 0 then
      some (u64At list (pos + 16) &&& referenceMask)
    else attributeListBitmapRecordFrom list (pos + entryLen)
  else none
termination_by list.length - pos
decreasing_by omega

def attributeListBitmapRecord (list : List UInt8) : Option UInt64 :=
  attributeListBitmapRecordFrom list 0

/-! ## The bitmap -/

/-- The place of a byte of the table on the volume. -/
def physicalOffsetFrom (target logical : UInt64) : List (UInt64 × UInt64) → Option UInt64
  | [] => none
  | extent :: rest =>
      if target < logical + extent.2 then some (extent.1 + (target - logical))
      else physicalOffsetFrom target (logical + extent.2) rest

def mftRecordPhysicalOffset (dataExtents : List (UInt64 × UInt64)) (number : UInt64) :
    Option UInt64 :=
  physicalOffsetFrom (number * .ofNat ntfsRecordSize) 0 dataExtents

/-- The record at a place, read with its whole cluster. -/
def readMftRecordAt (volume : Volume) (geometry : MftGeometry) (physical : UInt64) :
    Parse (List UInt8) := do
  let cluster := max (max geometry.bytesPerCluster.toNat geometry.bytesPerSector.toNat) ntfsRecordSize
  let base := physical.toNat / cluster * cluster
  let within := physical.toNat - base
  let buffer ← volume.readExact (.ofNat base) cluster
  if within + ntfsRecordSize > buffer.length then invalidData "record spans cluster"
  else
    let record := (buffer.drop within).take ntfsRecordSize
    if record.take 4 ≠ fileRecordSignature then
      invalidData "MFT record has no valid FILE signature"
    else
      match applyRecordFixups record geometry.bytesPerSector.toNat with
      | none => invalidData "MFT record has no valid FILE signature"
      | some record => pure record

/-- The bitmap in the record an attribute list names, if it leads to one. -/
def readListedBitmap (volume : Volume) (geometry : MftGeometry)
    (dataExtents : List (UInt64 × UInt64)) (list : List UInt8) : Parse (Option (List UInt8)) :=
  match attributeListBitmapRecord list with
  | none => pure none
  | some number =>
      match mftRecordPhysicalOffset dataExtents number with
      | none => pure none
      | some physical => do
          let extension ← readMftRecordAt volume geometry physical
          extractBitmapFromRecord extension volume geometry

def readMftBitmap (volume : Volume) (geometry : MftGeometry)
    (dataExtents : List (UInt64 × UInt64)) : Parse (List UInt8) := do
  let record0 ← readMftRecordAt volume geometry geometry.mftStartOffset
  match ← extractBitmapFromRecord record0 volume geometry with
  | some bitmap => pure bitmap
  | none =>
      let listed ←
        match ← readAttributeListValue record0 volume geometry with
        | some list => readListedBitmap volume geometry dataExtents list
        | none => pure none
      match listed with
      | some bitmap => pure bitmap
      | none => invalidData "MFT record 0 has no $BITMAP attribute"

/-! ## Records without a bit -/

/-- Every record that is not read has a bit, and the bit is zero. -/
def RemovesOnlyFree (dataExtents : List (UInt64 × UInt64)) (bitmap : List UInt8)
    (bytesPerCluster skipMinBytes : UInt64) : Prop :=
  ∀ record < totalClusters dataExtents bytesPerCluster * recordsPerCluster bytesPerCluster,
    record ∉ keptRecords dataExtents bitmap bytesPerCluster skipMinBytes → BitClear bitmap record

section Removed

variable {bitmap : List UInt8} {record : ℕ}

theorem lt_of_bitSet (h : BitSet bitmap record) : record < 8 * bitmap.length := by
  obtain ⟨byte, hbyte, -⟩ := h
  have hlt := (List.getElem?_eq_some_iff.mp hbyte).1
  omega

theorem lt_of_bitClear (h : BitClear bitmap record) : record < 8 * bitmap.length := by
  obtain ⟨byte, hbyte, -⟩ := h
  have hlt := (List.getElem?_eq_some_iff.mp hbyte).1
  omega

theorem bitClear_of_not_bitSet (hcovered : record < 8 * bitmap.length)
    (hset : ¬BitSet bitmap record) : BitClear bitmap record := by
  have hlt : record / 8 < bitmap.length := by omega
  refine ⟨bitmap[record / 8], List.getElem?_eq_getElem hlt, ?_⟩
  by_contra hbit
  exact hset ⟨_, List.getElem?_eq_getElem hlt, by simpa using hbit⟩

theorem pos_of_lt_mul {a b c : ℕ} (h : c < a * b) : 0 < a ∧ 0 < b := by
  refine ⟨Nat.pos_of_ne_zero ?_, Nat.pos_of_ne_zero ?_⟩
  · rintro rfl
    rw [Nat.zero_mul] at h
    cases h
  · rintro rfl
    cases h

/-- The last of the numbers below a product has the last quotient. -/
theorem last_div {a b last : ℕ} (h : last + 1 = a * b) : last / b = a - 1 := by
  obtain ⟨ha, hb⟩ := pos_of_lt_mul (by omega : last < a * b)
  obtain ⟨n, rfl⟩ : ∃ n, a = n + 1 := ⟨a - 1, by omega⟩
  rw [Nat.add_sub_cancel]
  rw [Nat.succ_mul] at h
  exact Nat.div_eq_of_lt_le (by omega) (by rw [Nat.succ_mul]; omega)

/-- A long free run with a record that has no bit goes on to the last cluster. -/
theorem inLongRun_last {perCluster total least : ℕ} (hpos : 0 < perCluster)
    (hlong : FreeRuns.InLongRun (clusterOccupied bitmap perCluster) total least
      (record / perCluster)) (huncovered : 8 * bitmap.length ≤ record) :
    FreeRuns.InLongRun (clusterOccupied bitmap perCluster) total least (total - 1) := by
  obtain ⟨first, stop, hrun, hleast, hfirst, hstop⟩ := hlong
  have hend : stop = total := by
    rcases hrun.right with htotal | hoccupied
    · exact htotal
    · obtain ⟨other, hother, hset⟩ := (clusterOccupied_iff bitmap hpos stop).mp hoccupied
      have hlt := lt_of_bitSet hset
      have hle : other / perCluster ≤ record / perCluster :=
        Nat.div_le_div_right (by omega)
      omega
  have hnonempty := hrun.nonempty
  exact ⟨first, stop, hrun, hleast, by omega, by omega⟩

variable {dataExtents : List (UInt64 × UInt64)} {bytesPerCluster skipMinBytes : UInt64}

theorem removesOnlyFree_of_covers
    (hcovers : totalClusters dataExtents bytesPerCluster * recordsPerCluster bytesPerCluster ≤
      8 * bitmap.length) :
    RemovesOnlyFree dataExtents bitmap bytesPerCluster skipMinBytes := by
  intro record hrecord hremoved
  refine bitClear_of_not_bitSet (hrecord.trans_le hcovers) fun hset ↦ ?_
  exact hremoved (mem_keptRecords_of_bitSet hrecord hset)

theorem removesOnlyFree_of_short_end
    (hshort : FreeRuns.trailing (clusterOccupied bitmap (recordsPerCluster bytesPerCluster))
      (totalClusters dataExtents bytesPerCluster) < skipMin skipMinBytes bytesPerCluster) :
    RemovesOnlyFree dataExtents bitmap bytesPerCluster skipMinBytes := by
  intro record hrecord hremoved
  have hpos := pos_of_lt_mul hrecord
  have hlong := not_not.mp fun hnot ↦ hremoved (mem_keptRecords.mpr ⟨hrecord, hnot⟩)
  refine bitClear_of_not_bitSet (not_le.mp fun huncovered ↦ ?_) fun hset ↦
    hremoved (mem_keptRecords_of_bitSet hrecord hset)
  have hlast := inLongRun_last hpos.2 hlong huncovered
  rw [FreeRuns.inLongRun_last_iff (by simp [skipMin]) hpos.1] at hlast
  omega

/-- A record without a bit is removed exactly when the clusters behind the last
record in use are enough to be skipped. -/
theorem removesOnlyFree_iff_covers_or :
    RemovesOnlyFree dataExtents bitmap bytesPerCluster skipMinBytes ↔
      totalClusters dataExtents bytesPerCluster * recordsPerCluster bytesPerCluster ≤
          8 * bitmap.length ∨
        FreeRuns.trailing (clusterOccupied bitmap (recordsPerCluster bytesPerCluster))
          (totalClusters dataExtents bytesPerCluster) < skipMin skipMinBytes bytesPerCluster := by
  refine ⟨fun h ↦ ?_, fun h ↦ h.elim removesOnlyFree_of_covers removesOnlyFree_of_short_end⟩
  by_contra hnot
  rw [not_or, not_le, not_lt] at hnot
  obtain ⟨huncovered, hlong⟩ := hnot
  have hpos := pos_of_lt_mul huncovered
  obtain ⟨last, hlast⟩ : ∃ last, last + 1 =
      totalClusters dataExtents bytesPerCluster * recordsPerCluster bytesPerCluster :=
    ⟨_, Nat.succ_pred_eq_of_pos (by omega)⟩
  have hremoved : last ∉ keptRecords dataExtents bitmap bytesPerCluster skipMinBytes := by
    rw [mem_keptRecords, last_div hlast, FreeRuns.inLongRun_last_iff (by simp [skipMin]) hpos.1]
    exact fun hkept ↦ hkept.2 hlong
  have hlt := lt_of_bitClear (h last (by omega) hremoved)
  omega

/-- The records that are read, and when only free ones are left out. -/
theorem removesOnlyFree_iff (dataExtents : List (UInt64 × UInt64)) (bitmap : List UInt8)
    (bytesPerCluster skipMinBytes : UInt64) :
    (ntfsRecordSize ∣ bytesPerCluster.toNat →
      (∀ extent ∈ dataExtents, bytesPerCluster.toNat ∣ extent.2.toNat) → RangesFit dataExtents →
      bytesOf (mftKeepExtents dataExtents bitmap bytesPerCluster skipMinBytes) =
        (keptRecords dataExtents bitmap bytesPerCluster skipMinBytes).flatMap
          (Blocks.block ntfsRecordSize (bytesOf dataExtents))) ∧
    (RemovesOnlyFree dataExtents bitmap bytesPerCluster skipMinBytes ↔
      totalClusters dataExtents bytesPerCluster * recordsPerCluster bytesPerCluster ≤
          8 * bitmap.length ∨
        FreeRuns.trailing (clusterOccupied bitmap (recordsPerCluster bytesPerCluster))
          (totalClusters dataExtents bytesPerCluster) < skipMin skipMinBytes bytesPerCluster) :=
  ⟨fun hbytes hwhole hend ↦ bytesOf_mftKeepExtents_records hbytes hwhole hend,
    removesOnlyFree_iff_covers_or⟩

end Removed

theorem removesOnlyFree_sample :
    bytesOf (mftKeepExtents sampleExtents sampleBitmap 4096 65536) =
        (keptRecords sampleExtents sampleBitmap 4096 65536).flatMap
          (Blocks.block ntfsRecordSize (bytesOf sampleExtents)) ∧
      RemovesOnlyFree sampleExtents sampleBitmap 4096 65536 :=
  ⟨(removesOnlyFree_iff sampleExtents sampleBitmap 4096 65536).1 (by decide) (by simp [sampleExtents])
      (by simp [RangesFit, sampleExtents]),
    (removesOnlyFree_iff sampleExtents sampleBitmap 4096 65536).2.mpr (Or.inl (by decide))⟩

/-! ## A bitmap of eight bytes -/

/-- Record 0 of a table of 400 records; its bitmap declares a size of eight bytes. -/
def shortBitmapRecord : List UInt8 :=
  fileRecordSignature ++ [48, 0, 3, 0] ++ List.replicate 12 0 ++ [56, 0, 1, 0] ++
    List.replicate 32 0 ++ [0xB0, 0, 0, 0, 72, 0, 0, 0, 1] ++ List.replicate 23 0 ++ [64, 0] ++
    List.replicate 14 0 ++ [8] ++ List.replicate 15 0 ++ [0x11, 1, 112, 0, 0, 0, 0, 0] ++
    [0xFF, 0xFF, 0xFF, 0xFF] ++ List.replicate 892 0

def shortBitmapVolume : Volume where
  read position count :=
    .ok (if position = 16384 then (shortBitmapRecord ++ List.replicate count 0).take count
      else List.replicate count 0xFF)
  length_read position count bytes h := by
    obtain rfl := Except.ok.inj h
    split <;> simp

def shortBitmapGeometry : MftGeometry where
  bytesPerSector := 512
  bytesPerCluster := 4096
  mftStartOffset := 16384
  recordSize := 1024

def shortBitmapExtents : List (UInt64 × UInt64) := [(16384, 100 * 4096)]

/-- Records 64 to 399 have no bit, and none of them is read. -/
theorem short_bitmap_hides_records :
    readMftBitmap shortBitmapVolume shortBitmapGeometry shortBitmapExtents =
        .ok (List.replicate 8 0xFF) ∧
      mftKeepExtents shortBitmapExtents (List.replicate 8 0xFF) 4096 (256 * 1024) =
        [(16384, 16 * 4096)] ∧
      (List.replicate 8 (0xFF : UInt8))[64 / 8]? = none ∧
      ¬RemovesOnlyFree shortBitmapExtents (List.replicate 8 0xFF) 4096 (256 * 1024) := by
  refine ⟨by decide +kernel, by decide +kernel, by decide, fun h ↦ ?_⟩
  obtain ⟨byte, hbyte, -⟩ := h 64 (by decide) (by decide +kernel)
  cases hbyte

end Ntfs

end WinBlaze
