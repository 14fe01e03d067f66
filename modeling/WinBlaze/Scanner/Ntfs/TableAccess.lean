import WinBlaze.Lib.Attempts
import WinBlaze.Scanner.Ntfs.Fixups
import WinBlaze.Scanner.Ntfs.Geometry
import WinBlaze.Scanner.Ntfs.RecordFits
import WinBlaze.Scanner.Ntfs.ValidLength

/-!
# The way to the file table, in machine words

Record 0 of the table gives its extents and leads to its bitmap. Here every
index, slice, sum and product on that way is checked, as in the loops for data
runs and fixups. All of them agree with the numbers of the model of the bitmap,
except two: the place of a listed record may lie beyond the address space, and
so may the sum of the extents before it.
-/

namespace WinBlaze

namespace Ntfs

/-- A volume that cannot be sought beyond the largest signed offset. -/
structure SeekingVolume extends Volume where
  read_beyond : ∀ position count, 2 ^ 63 ≤ position.toNat →
    ∃ message, read position count = .error message

namespace Machine

def asSlice (bytes : List UInt8) : Parse Slice :=
  if h : bytes.length < 2 ^ 63 then .ok ⟨bytes, h⟩ else .error .panic

def u64Sub (a b : UInt64) : Parse UInt64 := if b ≤ a then .ok (a - b) else .error .panic

/-! ## Attributes -/

/-- Type and length of the attribute at `cursor`; `none` at the end of the chain. -/
def attributeAt (record : List UInt8) (cursor : ℕ) : Parse (Option (UInt32 × ℕ)) := do
  let headerEnd ← usizeAdd cursor 8
  if headerEnd > record.length then pure none
  else
    let attributeType ← leU32 record cursor
    if attributeType = .ofNat (2 ^ 32 - 1) then pure none
    else
      let lengthPlace ← usizeAdd cursor 4
      let attributeLength ← leU32 record lengthPlace
      if attributeLength.toNat = 0 then pure none
      else
        let next ← usizeAdd cursor attributeLength.toNat
        if next > record.length then pure none
        else pure (some (attributeType, attributeLength.toNat))

theorem bounds_of_attributeAt {record : List UInt8} {cursor : ℕ} {found : UInt32 × ℕ}
    (h : attributeAt record cursor = .ok (some found)) :
    0 < found.2 ∧ cursor + found.2 ≤ record.length := by
  obtain ⟨headerEnd, -, h⟩ := Parse.bind_eq_ok_iff.mp h
  split at h
  case isTrue => cases h
  case isFalse =>
    obtain ⟨attributeType, -, h⟩ := Parse.bind_eq_ok_iff.mp h
    split at h
    case isTrue => cases h
    case isFalse =>
      obtain ⟨lengthPlace, -, h⟩ := Parse.bind_eq_ok_iff.mp h
      obtain ⟨attributeLength, -, h⟩ := Parse.bind_eq_ok_iff.mp h
      split at h
      case isTrue => cases h
      case isFalse hzero =>
        obtain ⟨next, hnext, h⟩ := Parse.bind_eq_ok_iff.mp h
        obtain rfl := eq_of_usizeAdd hnext
        split at h
        case isTrue => cases h
        case isFalse hend =>
          cases h
          exact ⟨Nat.pos_of_ne_zero hzero, Nat.not_lt.mp hend⟩

/-- The value of the first attribute of a type, by `value` from its place and length. -/
def firstAttribute {α : Type} (record : List UInt8) (attributeType : UInt32)
    (value : ℕ → ℕ → Parse (Option α)) (cursor : ℕ) : Parse (Option α) :=
  match _hfound : attributeAt record cursor with
  | .error failure => .error failure
  | .ok none => .ok none
  | .ok (some found) =>
      if found.1 = attributeType then value cursor found.2
      else firstAttribute record attributeType value (cursor + found.2)
termination_by record.length - cursor
decreasing_by
  have hbounds := bounds_of_attributeAt _hfound
  omega

/-- Where a resident value starts and ends. -/
def residentSpan (record : List UInt8) (cursor : ℕ) : Parse (ℕ × ℕ) := do
  let offsetPlace ← usizeAdd cursor 20
  let valueOffset ← leU16 record offsetPlace
  let lengthPlace ← usizeAdd cursor 16
  let valueLength ← leU32 record lengthPlace
  let start ← usizeAdd cursor valueOffset.toNat
  let stop ← usizeAdd start valueLength.toNat
  pure (start, stop)

/-- The run list of a non-resident attribute; `none` when it starts behind the attribute. -/
def runList (record : List UInt8) (cursor attributeLength : ℕ) : Parse (Option (List UInt8)) := do
  let place ← usizeAdd cursor 32
  let runOffset ← leU16 record place
  if attributeLength ≤ runOffset.toNat then pure none
  else
    let start ← usizeAdd cursor runOffset.toNat
    let stop ← usizeAdd cursor attributeLength
    let runs ← slice record start stop
    pure (some runs)

/-- A length field at a fixed distance, when the attribute is long enough to have it. -/
def lengthField (record : List UInt8) (cursor attributeLength distance : ℕ) : Parse UInt64 :=
  if distance + 8 ≤ attributeLength then do
    let place ← usizeAdd cursor distance
    leU64 record place
  else pure (.ofNat (2 ^ 64 - 1))

/-! ## Values -/

def readExtentFrom (volume : Volume) (extent : UInt64 × UInt64) (offset : ℕ) : Parse (List UInt8) :=
  if _hoffset : offset < extent.2.toNat then do
    let toRead := min (extent.2.toNat - offset) volumeReadChunk
    let position ← u64Add extent.1 (.ofNat offset)
    let bytes ← volume.readExact position toRead
    let rest ← readExtentFrom volume extent (offset + toRead)
    pure (bytes ++ rest)
  else .ok []
termination_by extent.2.toNat - offset
decreasing_by
  rw [volumeReadChunk]
  omega

def nonResidentValue (volume : Volume) (geometry : MftGeometry) (record : List UInt8)
    (cursor attributeLength : ℕ) (outside : Parse (Option (List UInt8))) :
    Parse (Option (List UInt8)) := do
  let realSize ← lengthField record cursor attributeLength 48
  match ← runList record cursor attributeLength with
  | none => outside
  | some runs => do
      let runs ← asSlice runs
      let extents ← decodeDataRuns runs geometry.bytesPerCluster
      let chunks ← extents.mapM (fun extent ↦ readExtentFrom volume extent 0)
      pure (some (chunks.flatten.take realSize.toNat))

def bitmapValue (record : List UInt8) (volume : Volume) (geometry : MftGeometry)
    (cursor attributeLength : ℕ) : Parse (Option (List UInt8)) :=
  if u8At record (cursor + 8) = 0 then do
    let span ← residentSpan record cursor
    if span.2 ≤ record.length then do
      let value ← slice record span.1 span.2
      pure (some value)
    else invalidData "resident $BITMAP out of bounds"
  else nonResidentValue volume geometry record cursor attributeLength
    (invalidData "$BITMAP run offset out of bounds")

def extractBitmapFromRecord (record : List UInt8) (volume : Volume) (geometry : MftGeometry) :
    Parse (Option (List UInt8)) := do
  let firstAttrOffset ← leU16 record 20
  firstAttribute record attributeBitmap (bitmapValue record volume geometry) firstAttrOffset.toNat

def listValue (record : List UInt8) (volume : Volume) (geometry : MftGeometry)
    (cursor attributeLength : ℕ) : Parse (Option (List UInt8)) :=
  if u8At record (cursor + 8) = 0 then do
    let span ← residentSpan record cursor
    let value ← slice record span.1 (min span.2 record.length)
    pure (some value)
  else nonResidentValue volume geometry record cursor attributeLength (pure none)

def readAttributeListValue (record : List UInt8) (volume : Volume) (geometry : MftGeometry) :
    Parse (Option (List UInt8)) := do
  let firstAttrOffset ← leU16 record 20
  firstAttribute record attributeList (listValue record volume geometry) firstAttrOffset.toNat

/-! ## The attribute list -/

/-- The entry at `pos`: its length, and the record it names when it starts the
bitmap. No vector is so long that a place in it and a 16-bit length overflow. -/
def listEntryAt (list : List UInt8) (pos : ℕ) : Parse (Option (ℕ × Option UInt64)) := do
  if pos + 0x18 > list.length then pure none
  else
    let entryType ← leU32 list pos
    let entryLen ← leU16 list (pos + 4)
    if entryLen.toNat < 0x18 ∨ pos + entryLen.toNat > list.length then pure none
    else
      let startingVcn ← leU64 list (pos + 8)
      if entryType = attributeBitmap ∧ startingVcn = 0 then do
        let reference ← leU64 list (pos + 16)
        pure (some (entryLen.toNat, some (reference &&& referenceMask)))
      else pure (some (entryLen.toNat, none))

/-- Where the loop goes on. -/
def EntryInside (list : List UInt8) (pos : ℕ) : Prop :=
  pos + 0x18 ≤ list.length ∧ 0x18 ≤ (u16At list (pos + 4)).toNat ∧
    pos + (u16At list (pos + 4)).toNat ≤ list.length

instance instDecidableEntryInside (list : List UInt8) (pos : ℕ) : Decidable (EntryInside list pos) :=
  inferInstanceAs (Decidable (_ ∧ _))

theorem listEntryAt_eq (list : List UInt8) (pos : ℕ) :
    listEntryAt list pos =
      .ok (if EntryInside list pos then some ((u16At list (pos + 4)).toNat,
          if u32At list pos = attributeBitmap ∧ u64At list (pos + 8) = 0 then
            some (u64At list (pos + 16) &&& referenceMask)
          else none)
        else none) := by
  unfold listEntryAt
  by_cases hshort : pos + 0x18 > list.length
  · rw [if_pos hshort, if_neg fun h ↦ Nat.not_lt.mpr h.1 hshort]
    rfl
  · have hread : leU32 list pos = .ok (u32At list pos) := if_pos (by omega)
    have hread4 : leU16 list (pos + 4) = .ok (u16At list (pos + 4)) := if_pos (by omega)
    have hread8 : leU64 list (pos + 8) = .ok (u64At list (pos + 8)) := if_pos (by omega)
    have hread16 : leU64 list (pos + 16) = .ok (u64At list (pos + 16)) := if_pos (by omega)
    rw [if_neg hshort, hread, Parse.ok_bind, hread4, Parse.ok_bind]
    by_cases hends : (u16At list (pos + 4)).toNat < 0x18 ∨
        pos + (u16At list (pos + 4)).toNat > list.length
    · rw [if_pos hends, if_neg fun h ↦ by have := h.2; omega]
      rfl
    · rw [if_neg hends, if_pos ⟨by omega, by omega, by omega⟩, hread8, Parse.ok_bind]
      split
      case isTrue => rw [hread16]; rfl
      case isFalse => rfl

theorem bounds_of_listEntryAt {list : List UInt8} {pos : ℕ} {entry : ℕ × Option UInt64}
    (h : listEntryAt list pos = .ok (some entry)) : 0 < entry.1 ∧ pos + entry.1 ≤ list.length := by
  rw [listEntryAt_eq] at h
  split at h
  case isTrue hinside =>
    cases h
    have := hinside.2
    exact ⟨by dsimp only; omega, by dsimp only; omega⟩
  case isFalse => cases h

def attributeListBitmapRecordFrom (list : List UInt8) (pos : ℕ) : Parse (Option UInt64) :=
  match _hentry : listEntryAt list pos with
  | .error failure => .error failure
  | .ok none => .ok none
  | .ok (some (_, some number)) => .ok (some number)
  | .ok (some (entryLen, none)) => attributeListBitmapRecordFrom list (pos + entryLen)
termination_by list.length - pos
decreasing_by
  have hbounds := bounds_of_listEntryAt _hentry
  dsimp only at hbounds
  omega

/-! ## Places on the volume -/

/-- The loop over the extents, of which the first start at `logical` in the table. -/
def physicalOffsetFrom (target : UInt64) :
    UInt64 → List (UInt64 × UInt64) → Parse (Option UInt64)
  | _, [] => pure none
  | logical, extent :: rest => do
      let next ← u64Add logical extent.2
      if target < next then do
        let distance ← u64Sub target logical
        let place ← u64Add extent.1 distance
        pure (some place)
      else physicalOffsetFrom target next rest

def mftRecordPhysicalOffset (dataExtents : List (UInt64 × UInt64)) (number : UInt64) :
    Parse (Option UInt64) := do
  let target ← u64Mul number (.ofNat ntfsRecordSize)
  physicalOffsetFrom target 0 dataExtents

/-- The restored record, if it passes the check. -/
def fixedRecord (record : List UInt8) (bytesPerSector : UInt16) : Parse (Option (List UInt8)) := do
  let record ← asSlice record
  let restored ← applyRecordFixups record bytesPerSector.toUInt64
  pure (if restored.2 then some restored.1 else none)

def readMftRecordAt (volume : Volume) (geometry : MftGeometry) (physical : UInt64) :
    Parse (List UInt8) := do
  let cluster := max (max geometry.bytesPerCluster geometry.bytesPerSector.toUInt64)
    (.ofNat ntfsRecordSize)
  let base ← u64Mul (physical / cluster) cluster
  let within ← u64Sub physical base
  let buffer ← volume.readExact base cluster.toNat
  let recordEnd ← usizeAdd within.toNat ntfsRecordSize
  if recordEnd > buffer.length then invalidData "record spans cluster"
  else
    let record ← slice buffer within.toNat recordEnd
    let signature ← slice record 0 4
    if signature ≠ fileRecordSignature then invalidData "MFT record has no valid FILE signature"
    else
      match ← fixedRecord record geometry.bytesPerSector with
      | none => invalidData "MFT record has no valid FILE signature"
      | some record => pure record

/-! ## The two readers -/

def readListedBitmap (volume : Volume) (geometry : MftGeometry)
    (dataExtents : List (UInt64 × UInt64)) (list : List UInt8) : Parse (Option (List UInt8)) := do
  match ← attributeListBitmapRecordFrom list 0 with
  | none => pure none
  | some number =>
      match ← mftRecordPhysicalOffset dataExtents number with
      | none => pure none
      | some physical => do
          let extension ← readMftRecordAt volume geometry physical
          extractBitmapFromRecord extension volume geometry

/-- What the attribute list of record 0 leads to. -/
def readRelocatedBitmap (volume : Volume) (geometry : MftGeometry)
    (dataExtents : List (UInt64 × UInt64)) (record0 : List UInt8) :
    Parse (Option (List UInt8)) := do
  match ← readAttributeListValue record0 volume geometry with
  | some list => readListedBitmap volume geometry dataExtents list
  | none => pure none

def readMftBitmap (volume : Volume) (geometry : MftGeometry)
    (dataExtents : List (UInt64 × UInt64)) : Parse (List UInt8) := do
  let record0 ← readMftRecordAt volume geometry geometry.mftStartOffset
  match ← extractBitmapFromRecord record0 volume geometry with
  | some bitmap => pure bitmap
  | none =>
      match ← readRelocatedBitmap volume geometry dataExtents record0 with
      | some bitmap => pure bitmap
      | none => invalidData "MFT record 0 has no $BITMAP attribute"

/-- The extents in the data attribute at `cursor`. -/
def dataExtents (record : List UInt8) (geometry : MftGeometry) (cursor attributeLength : ℕ) :
    Parse (Option (List (UInt64 × UInt64))) :=
  if u8At record (cursor + 8) = 0 then invalidData "MFT $DATA attribute unexpectedly resident"
  else do
    let validDataLength ← lengthField record cursor attributeLength 56
    match ← runList record cursor attributeLength with
    | none => invalidData "MFT $DATA run offset out of bounds"
    | some runs => do
        let runs ← asSlice runs
        let extents ← decodeDataRuns runs geometry.bytesPerCluster
        let extents ← trimExtentsToValidLength extents validDataLength geometry.bytesPerCluster
        pure (some extents)

def extentReadLength (geometry : MftGeometry) : ℕ :=
  max (max geometry.recordSize.toNat geometry.bytesPerCluster.toNat) geometry.bytesPerSector.toNat

def readMftExtents (volume : Volume) (geometry : MftGeometry) : Parse (List (UInt64 × UInt64)) := do
  let bytes ← volume.readExact geometry.mftStartOffset (extentReadLength geometry)
  let record := bytes.take geometry.recordSize.toNat
  let signature ← slice record 0 4
  if signature ≠ fileRecordSignature then invalidData "MFT record 0 has no FILE signature"
  else
    match ← fixedRecord record geometry.bytesPerSector with
    | none => invalidData "MFT record 0 fixup mismatch"
    | some record => do
        let firstAttribute ← leU16 record 20
        match ← Machine.firstAttribute record attributeData (dataExtents record geometry)
            firstAttribute.toNat with
        | some extents => pure extents
        | none => invalidData "MFT record 0 has no non-resident $DATA attribute"

end Machine

/-! ## The first attribute of a type -/

def firstOfType (record : List UInt8) (attributeType : UInt32) (cursor : ℕ) : Option ℕ :=
  (attributeOffsets record cursor).find? (fun place ↦ typeAt record place = attributeType)

section Chain

variable {record : List UInt8} {cursor : ℕ} {attributeType : UInt32}

theorem attributeOffsets_of_header (h : HeaderAt record cursor) :
    attributeOffsets record cursor =
      cursor :: attributeOffsets record (cursor + lengthAt record cursor) := by
  rw [attributeOffsets, dif_pos h]

theorem attributeOffsets_of_not_header (h : ¬ HeaderAt record cursor) :
    attributeOffsets record cursor = [] := by
  rw [attributeOffsets, dif_neg h]

theorem firstOfType_of_eq (h : HeaderAt record cursor) (htype : typeAt record cursor = attributeType) :
    firstOfType record attributeType cursor = some cursor := by
  rw [firstOfType, attributeOffsets_of_header h, List.find?_cons_of_pos (by simpa using htype)]

theorem firstOfType_of_ne (h : HeaderAt record cursor) (htype : typeAt record cursor ≠ attributeType) :
    firstOfType record attributeType cursor =
      firstOfType record attributeType (cursor + lengthAt record cursor) := by
  rw [firstOfType, attributeOffsets_of_header h, List.find?_cons_of_neg (by simpa using htype)]
  rfl

theorem firstOfType_of_not_header (h : ¬ HeaderAt record cursor) :
    firstOfType record attributeType cursor = none := by
  rw [firstOfType, attributeOffsets_of_not_header h, List.find?_nil]

theorem headerAt_of_firstOfType {place : ℕ}
    (h : firstOfType record attributeType cursor = some place) : HeaderAt record place :=
  headerAt_of_mem (List.mem_of_find?_eq_some h)

/-- The walk of the bitmap's model goes to the first attribute of the type. -/
theorem attributeValueFrom_eq (value : ℕ → ℕ → Parse (Option (List UInt8))) :
    attributeValueFrom record attributeType value cursor =
      (firstOfType record attributeType cursor).elim (.ok none)
        (fun place ↦ value place (lengthAt record place)) := by
  induction cursor using attributeOffsets.induct record with
  | case1 cursor hheader ih =>
      obtain ⟨hcursor, htype, hlength, hend⟩ := hheader
      have hread : leU32 record cursor = .ok (typeAt record cursor) := if_pos (by omega)
      have hread4 : leU32 record (cursor + 4) = .ok (u32At record (cursor + 4)) := if_pos (by omega)
      have hinside : ¬ ((u32At record (cursor + 4)).toNat = 0 ∨
          cursor + (u32At record (cursor + 4)).toNat > record.length) :=
        not_or.mpr ⟨hlength, Nat.not_lt.mpr hend⟩
      rw [attributeValueFrom, dif_pos hcursor, hread, Parse.ok_bind, if_neg htype, hread4, Parse.ok_bind]
      dsimp only
      rw [dif_neg hinside]
      by_cases hfound : typeAt record cursor = attributeType
      · rw [if_pos hfound, firstOfType_of_eq ⟨hcursor, htype, hlength, hend⟩ hfound]
        rfl
      · rw [if_neg hfound, firstOfType_of_ne ⟨hcursor, htype, hlength, hend⟩ hfound]
        exact ih
  | case2 cursor hheader =>
      rw [firstOfType_of_not_header hheader, attributeValueFrom]
      by_cases hcursor : cursor + 8 ≤ record.length
      · have hread : leU32 record cursor = .ok (typeAt record cursor) := if_pos (by omega)
        have hread4 : leU32 record (cursor + 4) = .ok (u32At record (cursor + 4)) := if_pos (by omega)
        rw [dif_pos hcursor, hread, Parse.ok_bind]
        by_cases htype : typeAt record cursor = .ofNat (2 ^ 32 - 1)
        · rw [if_pos htype]
          rfl
        · have hlength : (u32At record (cursor + 4)).toNat = 0 ∨
              cursor + (u32At record (cursor + 4)).toNat > record.length := by
            by_contra h
            obtain ⟨hzero, hend⟩ := not_or.mp h
            exact hheader ⟨hcursor, htype, hzero, Nat.not_lt.mp hend⟩
          rw [if_neg htype, hread4, Parse.ok_bind]
          dsimp only
          rw [dif_pos hlength]
          rfl
      · rw [dif_neg hcursor]
        rfl

namespace Machine

theorem attributeAt_eq (hlength : record.length < 2 ^ 63) (hcursor : cursor < 2 ^ 63) :
    attributeAt record cursor =
      .ok (if HeaderAt record cursor then some (typeAt record cursor, lengthAt record cursor)
        else none) := by
  have hlong := (u32At record (cursor + 4)).toNat_lt
  rw [attributeAt, usizeAdd_eq (by omega), Parse.ok_bind]
  by_cases hshort : cursor + 8 > record.length
  · rw [if_pos hshort, if_neg fun h ↦ Nat.not_lt.mpr h.1 hshort]
    rfl
  · have hread : leU32 record cursor = .ok (typeAt record cursor) := if_pos (by omega)
    have hread4 : leU32 record (cursor + 4) = .ok (u32At record (cursor + 4)) := if_pos (by omega)
    rw [if_neg hshort, hread, Parse.ok_bind]
    by_cases htype : typeAt record cursor = .ofNat (2 ^ 32 - 1)
    · rw [if_pos htype, if_neg fun h ↦ h.2.1 htype]
      rfl
    · rw [if_neg htype, usizeAdd_eq (by omega), Parse.ok_bind, hread4, Parse.ok_bind]
      by_cases hzero : (u32At record (cursor + 4)).toNat = 0
      · rw [if_pos hzero, if_neg fun h ↦ h.2.2.1 hzero]
        rfl
      · rw [if_neg hzero, usizeAdd_eq (by omega), Parse.ok_bind]
        by_cases hend : cursor + (u32At record (cursor + 4)).toNat > record.length
        · rw [if_pos hend, if_neg fun h ↦ Nat.not_lt.mpr h.2.2.2 hend]
          rfl
        · rw [if_neg hend, if_pos ⟨by omega, htype, hzero, Nat.not_lt.mp hend⟩]
          rfl

theorem firstAttribute_of_none {α : Type} (value : ℕ → ℕ → Parse (Option α))
    (h : attributeAt record cursor = .ok none) :
    firstAttribute record attributeType value cursor = .ok none := by
  rw [firstAttribute]
  split
  case h_1 failure hfailure => cases h.symm.trans hfailure
  case h_2 => rfl
  case h_3 found hfound => cases h.symm.trans hfound

theorem firstAttribute_of_some {α : Type} (value : ℕ → ℕ → Parse (Option α)) {found : UInt32 × ℕ}
    (h : attributeAt record cursor = .ok (some found)) :
    firstAttribute record attributeType value cursor =
      if found.1 = attributeType then value cursor found.2
      else firstAttribute record attributeType value (cursor + found.2) := by
  rw [firstAttribute]
  split
  case h_1 failure hfailure => cases h.symm.trans hfailure
  case h_2 hnone => cases h.symm.trans hnone
  case h_3 other hother =>
    cases h.symm.trans hother
    rfl

theorem firstAttribute_eq {α : Type} (value : ℕ → ℕ → Parse (Option α))
    (hlength : record.length < 2 ^ 63) (hcursor : cursor < 2 ^ 63) :
    firstAttribute record attributeType value cursor =
      (firstOfType record attributeType cursor).elim (.ok none)
        (fun place ↦ value place (lengthAt record place)) := by
  induction cursor using attributeOffsets.induct record with
  | case1 cursor hheader ih =>
      have hfound := attributeAt_eq hlength hcursor
      rw [if_pos hheader] at hfound
      have hnext : cursor + lengthAt record cursor < 2 ^ 63 := hheader.2.2.2.trans_lt hlength
      rw [firstAttribute_of_some value hfound]
      by_cases htype : typeAt record cursor = attributeType
      · rw [if_pos htype, firstOfType_of_eq hheader htype]
        rfl
      · rw [if_neg htype, firstOfType_of_ne hheader htype]
        exact ih hnext
  | case2 cursor hheader =>
      have hnone := attributeAt_eq hlength hcursor
      rw [if_neg hheader] at hnone
      rw [firstAttribute_of_none value hnone, firstOfType_of_not_header hheader]
      rfl

/-! ## Values -/

theorem lengthField_eq {attributeLength distance : ℕ} (hlength : record.length < 2 ^ 63)
    (hend : cursor + attributeLength ≤ record.length) :
    lengthField record cursor attributeLength distance =
      .ok (if distance + 8 ≤ attributeLength then u64At record (cursor + distance)
        else .ofNat (2 ^ 64 - 1)) := by
  unfold lengthField
  split
  case isTrue hlong =>
    have hread : leU64 record (cursor + distance) = .ok (u64At record (cursor + distance)) :=
      if_pos (by omega)
    rw [usizeAdd_eq (by omega), Parse.ok_bind, hread]
  case isFalse => rfl

theorem residentSpan_eq (hlength : record.length < 2 ^ 63) (hfits : cursor + 22 ≤ record.length) :
    residentSpan record cursor =
      .ok (cursor + (u16At record (cursor + 20)).toNat,
        cursor + (u16At record (cursor + 20)).toNat + (u32At record (cursor + 16)).toNat) := by
  have hoffset := (u16At record (cursor + 20)).toNat_lt
  have hvalue := (u32At record (cursor + 16)).toNat_lt
  have hread : leU16 record (cursor + 20) = .ok (u16At record (cursor + 20)) := if_pos (by omega)
  have hread' : leU32 record (cursor + 16) = .ok (u32At record (cursor + 16)) := if_pos (by omega)
  rw [residentSpan, usizeAdd_eq (by omega), Parse.ok_bind, hread, Parse.ok_bind,
    usizeAdd_eq (by omega), Parse.ok_bind, hread', Parse.ok_bind, usizeAdd_eq (by omega), Parse.ok_bind,
    usizeAdd_eq (by omega), Parse.ok_bind]
  rfl

theorem residentSpan_panics (hcursor : cursor < 2 ^ 63) (hfits : record.length < cursor + 22) :
    residentSpan record cursor = .error .panic := by
  have hread : leU16 record (cursor + 20) = .error .panic := if_neg (by omega)
  rw [residentSpan, usizeAdd_eq (by omega), Parse.ok_bind, hread, Parse.error_bind]

theorem runList_eq {attributeLength : ℕ} (hlength : record.length < 2 ^ 63)
    (hend : cursor + attributeLength ≤ record.length) (hfits : cursor + 34 ≤ record.length) :
    runList record cursor attributeLength =
      .ok (if attributeLength ≤ (u16At record (cursor + 32)).toNat then none
        else some ((record.drop (cursor + (u16At record (cursor + 32)).toNat)).take
          (attributeLength - (u16At record (cursor + 32)).toNat))) := by
  have hoffset := (u16At record (cursor + 32)).toNat_lt
  have hread : leU16 record (cursor + 32) = .ok (u16At record (cursor + 32)) := if_pos (by omega)
  rw [runList, usizeAdd_eq (by omega), Parse.ok_bind, hread, Parse.ok_bind]
  split
  case isTrue => rfl
  case isFalse hinside =>
    have hspan : cursor + attributeLength - (cursor + (u16At record (cursor + 32)).toNat) =
        attributeLength - (u16At record (cursor + 32)).toNat := by omega
    rw [usizeAdd_eq (by omega), Parse.ok_bind, usizeAdd_eq (by omega), Parse.ok_bind,
      slice_eq (by omega) hend, Parse.ok_bind, hspan]
    rfl

theorem runList_panics {attributeLength : ℕ} (hcursor : cursor < 2 ^ 63)
    (hfits : record.length < cursor + 34) :
    runList record cursor attributeLength = .error .panic := by
  have hread : leU16 record (cursor + 32) = .error .panic := if_neg (by omega)
  rw [runList, usizeAdd_eq (by omega), Parse.ok_bind, hread, Parse.error_bind]

theorem asSlice_eq {bytes : List UInt8} (h : bytes.length < 2 ^ 63) : asSlice bytes = .ok ⟨bytes, h⟩ :=
  dif_pos h

/-- A place behind a place that was read is still in the address space. -/
theorem readExtentFrom_eq (volume : SeekingVolume) {extent : UInt64 × UInt64} {offset : ℕ}
    (hplace : extent.1.toNat + offset < 2 ^ 64) :
    readExtentFrom volume.toVolume extent offset = Ntfs.readExtentFrom volume.toVolume extent offset := by
  induction hleft : extent.2.toNat - offset using Nat.strong_induction_on generalizing offset with
  | h left ih =>
      rw [readExtentFrom, Ntfs.readExtentFrom]
      by_cases hoffset : offset < extent.2.toNat
      · have hchunk : 0 < volumeReadChunk ∧ volumeReadChunk < 2 ^ 62 := by decide
        have hnat : (UInt64.ofNat offset).toNat = offset :=
          UInt64.toNat_ofNat_of_lt' (by simp only [UInt64.size]; omega)
        have hsum : (extent.1 + .ofNat offset).toNat = extent.1.toNat + offset := by
          rw [UInt64.toNat_add, hnat, Nat.mod_eq_of_lt hplace]
        rw [dif_pos hoffset, dif_pos hoffset, u64Add_eq (by rwa [hnat]), Parse.ok_bind]
        dsimp only
        cases hread : volume.toVolume.readExact (extent.1 + .ofNat offset)
            (min (extent.2.toNat - offset) volumeReadChunk) with
        | error failure => rfl
        | ok bytes =>
            have hbelow : extent.1.toNat + offset < 2 ^ 63 := by
              by_contra hbeyond
              obtain ⟨message, hmessage⟩ := volume.read_beyond (extent.1 + .ofNat offset)
                (min (extent.2.toNat - offset) volumeReadChunk) (by omega)
              rw [Volume.readExact, hmessage] at hread
              cases hread
            have hrest := ih _ (by omega)
              (by omega : extent.1.toNat + (offset + min (extent.2.toNat - offset) volumeReadChunk) <
                2 ^ 64) rfl
            rw [Parse.ok_bind, Parse.ok_bind, hrest]
      · rw [dif_neg hoffset, dif_neg hoffset]

theorem mapM_readExtentFrom (volume : SeekingVolume) (extents : List (UInt64 × UInt64)) :
    extents.mapM (fun extent ↦ readExtentFrom volume.toVolume extent 0) =
      extents.mapM (fun extent ↦ Ntfs.readExtentFrom volume.toVolume extent 0) :=
  congrArg (fun f ↦ extents.mapM f)
    (funext fun extent ↦ readExtentFrom_eq volume extent.1.toNat_lt)

section Values

variable {volume : SeekingVolume} {geometry : MftGeometry} {attributeLength : ℕ}

theorem nonResidentValue_panics {outside : Parse (Option (List UInt8))}
    (hlength : record.length < 2 ^ 63) (hend : cursor + attributeLength ≤ record.length)
    (hfits : record.length < cursor + 34) :
    nonResidentValue volume.toVolume geometry record cursor attributeLength outside =
      .error .panic := by
  rw [nonResidentValue, lengthField_eq hlength hend, Parse.ok_bind,
    runList_panics (by omega) hfits, Parse.error_bind]

theorem nonResidentValue_eq (outside : Parse (Option (List UInt8)))
    (hlength : record.length < 2 ^ 63) (hend : cursor + attributeLength ≤ record.length)
    (hfits : cursor + 34 ≤ record.length) :
    nonResidentValue volume.toVolume geometry record cursor attributeLength outside =
      Ntfs.nonResidentValue volume.toVolume geometry record cursor attributeLength outside := by
  have hread : leU16 record (cursor + 32) = .ok (u16At record (cursor + 32)) := if_pos (by omega)
  have hvalue : Ntfs.nonResidentValue volume.toVolume geometry record cursor attributeLength outside =
      if attributeLength ≤ (u16At record (cursor + 32)).toNat then outside
      else
        Ntfs.decodeDataRuns ((record.drop (cursor + (u16At record (cursor + 32)).toNat)).take
            (attributeLength - (u16At record (cursor + 32)).toNat)) geometry.bytesPerCluster >>=
          fun extents ↦ extents.mapM (fun extent ↦ Ntfs.readExtentFrom volume.toVolume extent 0) >>=
            fun chunks ↦ .ok (some (chunks.flatten.take (if 48 + 8 ≤ attributeLength then
              u64At record (cursor + 48) else .ofNat (2 ^ 64 - 1)).toNat)) := by
    unfold Ntfs.nonResidentValue
    by_cases hlong : 56 ≤ attributeLength
    · have hreal : leU64 record (cursor + 48) = .ok (u64At record (cursor + 48)) := if_pos (by omega)
      simp only [if_pos hlong, hreal, hread, Parse.ok_bind]
      rfl
    · simp only [if_neg hlong, hread, Parse.ok_bind]
      rfl
  rw [nonResidentValue, lengthField_eq hlength hend, Parse.ok_bind, runList_eq hlength hend hfits,
    Parse.ok_bind, hvalue]
  by_cases houtside : attributeLength ≤ (u16At record (cursor + 32)).toNat
  · rw [if_pos houtside, if_pos houtside]
  · have hruns : ((record.drop (cursor + (u16At record (cursor + 32)).toNat)).take
        (attributeLength - (u16At record (cursor + 32)).toNat)).length < 2 ^ 63 := by
      rw [List.length_take, List.length_drop]
      omega
    rw [if_neg houtside, if_neg houtside]
    dsimp only
    rw [asSlice_eq hruns, Parse.ok_bind, decodeDataRuns_eq]
    simp only [mapM_readExtentFrom]
    rfl

end Values

/-! ## Places -/

/-- The running sum through the extent of the target, and the target's place,
stay inside the address space. -/
def PlaceFits (target : ℕ) : ℕ → List (UInt64 × UInt64) → Prop
  | _, [] => True
  | logical, extent :: rest => logical + extent.2.toNat < 2 ^ 64 ∧
      if target < logical + extent.2.toNat then extent.1.toNat + (target - logical) < 2 ^ 64
      else PlaceFits target (logical + extent.2.toNat) rest

theorem physicalOffsetFrom_of_fits {target logical : UInt64} {extents : List (UInt64 × UInt64)}
    (hle : logical ≤ target) (hfits : PlaceFits target.toNat logical.toNat extents) :
    physicalOffsetFrom target logical extents =
      .ok (Ntfs.physicalOffsetFrom target logical extents) := by
  induction extents generalizing logical with
  | nil => rfl
  | cons extent rest ih =>
      obtain ⟨hsum, hplace⟩ := hfits
      have hle' := UInt64.le_iff_toNat_le.mp hle
      have hnext : (logical + extent.2).toNat = logical.toNat + extent.2.toNat := by
        rw [UInt64.toNat_add, Nat.mod_eq_of_lt hsum]
      have hsub : u64Sub target logical = .ok (target - logical) := if_pos hle
      rw [physicalOffsetFrom, Ntfs.physicalOffsetFrom, u64Add_eq hsum, Parse.ok_bind]
      by_cases hhere : target < logical + extent.2
      · rw [if_pos (by rwa [UInt64.lt_iff_toNat_lt, hnext] at hhere)] at hplace
        rw [if_pos hhere, if_pos hhere, hsub, Parse.ok_bind, u64Add_eq
          (by rwa [UInt64.toNat_sub_of_le _ _ hle]), Parse.ok_bind]
        rfl
      · rw [if_neg (by rwa [UInt64.lt_iff_toNat_lt, hnext] at hhere), ← hnext] at hplace
        rw [if_neg hhere, if_neg hhere]
        exact ih (UInt64.not_lt.mp hhere) hplace

theorem physicalOffsetFrom_panics {target logical : UInt64} {extents : List (UInt64 × UInt64)}
    (hle : logical ≤ target) (hfits : ¬ PlaceFits target.toNat logical.toNat extents) :
    physicalOffsetFrom target logical extents = .error .panic := by
  induction extents generalizing logical with
  | nil => exact (hfits trivial).elim
  | cons extent rest ih =>
      rw [physicalOffsetFrom]
      by_cases hsum : logical.toNat + extent.2.toNat < 2 ^ 64
      · have hnext : (logical + extent.2).toNat = logical.toNat + extent.2.toNat := by
          rw [UInt64.toNat_add, Nat.mod_eq_of_lt hsum]
        have hsub : u64Sub target logical = .ok (target - logical) := if_pos hle
        rw [u64Add_eq hsum, Parse.ok_bind]
        by_cases hhere : target < logical + extent.2
        · have hover : ¬ extent.1.toNat + (target - logical).toNat < 2 ^ 64 := by
            rw [UInt64.toNat_sub_of_le _ _ hle]
            refine fun hplace ↦ hfits ⟨hsum, ?_⟩
            rwa [if_pos (by rwa [UInt64.lt_iff_toNat_lt, hnext] at hhere)]
          rw [if_pos hhere, hsub, Parse.ok_bind, u64Add, if_neg hover, Parse.error_bind]
        · rw [if_neg hhere]
          refine ih (UInt64.not_lt.mp hhere) fun hplace ↦ hfits ⟨hsum, ?_⟩
          rw [hnext] at hplace
          rwa [if_neg (by rwa [UInt64.lt_iff_toNat_lt, hnext] at hhere)]
      · rw [u64Add, if_neg hsum, Parse.error_bind]

/-- A record number has 48 bits: its place in the table does not overflow. -/
theorem mftRecordPhysicalOffset_eq {extents : List (UInt64 × UInt64)} {number : UInt64}
    (hnumber : number.toNat < 2 ^ 48) :
    mftRecordPhysicalOffset extents number =
      physicalOffsetFrom (number * .ofNat ntfsRecordSize) 0 extents := by
  have hproduct : number.toNat * (UInt64.ofNat ntfsRecordSize).toNat < 2 ^ 64 := by
    have hsize : (UInt64.ofNat ntfsRecordSize).toNat = 1024 := by decide
    rw [hsize]
    omega
  rw [mftRecordPhysicalOffset, u64Mul, if_pos hproduct, Parse.ok_bind]

theorem attributeListBitmapRecordFrom_eq (list : List UInt8) (pos : ℕ) :
    attributeListBitmapRecordFrom list pos = .ok (Ntfs.attributeListBitmapRecordFrom list pos) := by
  induction hleft : list.length - pos using Nat.strong_induction_on generalizing pos with
  | h left ih =>
      have hentry := listEntryAt_eq list pos
      rw [attributeListBitmapRecordFrom, Ntfs.attributeListBitmapRecordFrom]
      by_cases hinside : EntryInside list pos
      · rw [if_pos hinside] at hentry
        obtain ⟨hshort, hleast, hend⟩ := hinside
        rw [dif_pos hshort]
        dsimp only
        rw [dif_neg (by omega)]
        by_cases hnames : u32At list pos = attributeBitmap ∧ u64At list (pos + 8) = 0
        · rw [if_pos hnames] at hentry ⊢
          split
          case h_1 failure h => cases hentry.symm.trans h
          case h_2 h => cases hentry.symm.trans h
          case h_3 length number h =>
            cases hentry.symm.trans h
            rfl
          case h_4 length h => cases hentry.symm.trans h
        · rw [if_neg hnames] at hentry ⊢
          split
          case h_1 failure h => cases hentry.symm.trans h
          case h_2 h => cases hentry.symm.trans h
          case h_3 length number h => cases hentry.symm.trans h
          case h_4 length h =>
            cases hentry.symm.trans h
            exact ih _ (by omega) _ rfl
      · rw [if_neg hinside] at hentry
        have hnone : (if h : pos + 0x18 ≤ list.length then
            if hlen : (u16At list (pos + 4)).toNat < 0x18 ∨
                pos + (u16At list (pos + 4)).toNat > list.length then none
            else if u32At list pos = attributeBitmap ∧ u64At list (pos + 8) = 0 then
              some (u64At list (pos + 16) &&& referenceMask)
            else Ntfs.attributeListBitmapRecordFrom list (pos + (u16At list (pos + 4)).toNat)
          else none) = none := by
          by_cases hshort : pos + 0x18 ≤ list.length
          · rw [dif_pos hshort, dif_pos]
            by_contra h
            exact hinside ⟨hshort, by omega, by omega⟩
          · rw [dif_neg hshort]
        dsimp only
        rw [hnone]
        split
        case h_1 failure h => cases hentry.symm.trans h
        case h_2 => rfl
        case h_3 length number h => cases hentry.symm.trans h
        case h_4 length h => cases hentry.symm.trans h

theorem number_lt_of_attributeListBitmapRecordFrom {list : List UInt8} {pos : ℕ} {number : UInt64}
    (h : Ntfs.attributeListBitmapRecordFrom list pos = some number) : number.toNat < 2 ^ 48 := by
  induction hleft : list.length - pos using Nat.strong_induction_on generalizing pos with
  | h left ih =>
      rw [Ntfs.attributeListBitmapRecordFrom] at h
      dsimp only at h
      split at h
      case isTrue hshort =>
        split at h
        case isTrue => cases h
        case isFalse hinside =>
          split at h
          case isTrue =>
            obtain rfl := Option.some.inj h
            have hmask : referenceMask.toNat = 2 ^ 48 - 1 := by decide
            rw [UInt64.toNat_and, hmask]
            exact Nat.lt_of_le_of_lt Nat.and_le_right (by decide)
          case isFalse => exact ih _ (by omega) h rfl
      case isFalse => cases h

/-! ## Records -/

theorem fixedRecord_eq {bytes : List UInt8} (bytesPerSector : UInt16) (h : bytes.length < 2 ^ 63) :
    fixedRecord bytes bytesPerSector = .ok (Ntfs.applyRecordFixups bytes bytesPerSector.toNat) := by
  rw [fixedRecord, asSlice_eq h, Parse.ok_bind, applyRecordFixups_eq, Parse.ok_bind,
    Ntfs.applyRecordFixups_eq, UInt16.toNat_toUInt64]
  rfl

/-- The cluster of a place starts at or before it. -/
theorem u64Mul_div (physical cluster : UInt64) :
    u64Mul (physical / cluster) cluster =
      .ok (.ofNat (physical.toNat / cluster.toNat * cluster.toNat)) := by
  have hle : physical.toNat / cluster.toNat * cluster.toNat ≤ physical.toNat := Nat.div_mul_le_self _ _
  have hlt := physical.toNat_lt
  rw [u64Mul, UInt64.toNat_div, if_pos (by omega)]
  refine congrArg Except.ok (UInt64.toNat_inj.mp ?_)
  rw [UInt64.toNat_mul, UInt64.toNat_div, UInt64.toNat_ofNat']

def clusterLength (geometry : MftGeometry) : ℕ :=
  max (max geometry.bytesPerCluster.toNat geometry.bytesPerSector.toNat) ntfsRecordSize

theorem readMftRecordAt_eq (volume : Volume) {geometry : MftGeometry} (physical : UInt64)
    (hbound : geometry.bytesPerCluster.toNat < 2 ^ 32) :
    readMftRecordAt volume geometry physical = Ntfs.readMftRecordAt volume geometry physical := by
  have hlt := physical.toNat_lt
  have hcluster : (max (max geometry.bytesPerCluster geometry.bytesPerSector.toUInt64)
      (.ofNat ntfsRecordSize)).toNat = clusterLength geometry := by
    rw [Saturating.toNat_max, Saturating.toNat_max, UInt16.toNat_toUInt64]
    rfl
  have hle : physical.toNat / clusterLength geometry * clusterLength geometry ≤ physical.toNat :=
    Nat.div_mul_le_self _ _
  have hbase : (UInt64.ofNat (physical.toNat / clusterLength geometry * clusterLength geometry)).toNat =
      physical.toNat / clusterLength geometry * clusterLength geometry :=
    UInt64.toNat_ofNat_of_lt' (by simp only [UInt64.size]; omega)
  have hsub : u64Sub physical
      (.ofNat (physical.toNat / clusterLength geometry * clusterLength geometry)) =
        .ok (physical - .ofNat (physical.toNat / clusterLength geometry * clusterLength geometry)) :=
    if_pos (by rwa [UInt64.le_iff_toNat_le, hbase])
  have hwithin : (physical - .ofNat (physical.toNat / clusterLength geometry *
      clusterLength geometry)).toNat =
        physical.toNat - physical.toNat / clusterLength geometry * clusterLength geometry := by
    rw [UInt64.toNat_sub_of_le _ _ (by rwa [UInt64.le_iff_toNat_le, hbase]), hbase]
  rw [readMftRecordAt, Ntfs.readMftRecordAt]
  dsimp only
  rw [u64Mul_div, hcluster, Parse.ok_bind, hsub, Parse.ok_bind, hwithin]
  change _ = volume.readExact (.ofNat (physical.toNat / clusterLength geometry *
    clusterLength geometry)) (clusterLength geometry) >>= _
  refine congrArg _ (funext fun buffer ↦ ?_)
  have hsector := geometry.bytesPerSector.toNat_lt
  have hsize : ntfsRecordSize = 1024 := rfl
  have hpos : 0 < clusterLength geometry := lt_max_of_lt_right (by decide)
  have hless : clusterLength geometry < 2 ^ 33 := by
    unfold clusterLength
    omega
  have hmod : physical.toNat - physical.toNat / clusterLength geometry * clusterLength geometry <
      clusterLength geometry := by
    have hsplit := Nat.div_add_mod physical.toNat (clusterLength geometry)
    have hrest := Nat.mod_lt physical.toNat hpos
    rw [Nat.mul_comm] at hsplit
    omega
  change _ = if physical.toNat - physical.toNat / clusterLength geometry * clusterLength geometry +
    ntfsRecordSize > buffer.length then _ else _
  rw [usizeAdd_eq (by omega), Parse.ok_bind]
  split
  case isTrue => rfl
  case isFalse hinside =>
    have hlength : ((buffer.drop (physical.toNat - physical.toNat / clusterLength geometry *
        clusterLength geometry)).take ntfsRecordSize).length = ntfsRecordSize := by
      rw [List.length_take, List.length_drop]
      omega
    rw [slice_eq (by omega) (by omega), Parse.ok_bind, Nat.add_sub_cancel_left,
      slice_eq (by omega) (by omega), Parse.ok_bind, List.drop_zero, fixedRecord_eq _ (by omega),
      Parse.ok_bind]
    rfl

end Machine

end Chain

end Ntfs

end WinBlaze
