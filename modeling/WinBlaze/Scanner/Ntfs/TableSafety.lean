import WinBlaze.Scanner.Ntfs.TableAccess

/-!
# Reaching the file table without a panic

The walkers on the way to the file table test that an attribute's first eight
bytes and its length lie inside the record, and then read fields at fixed
distances. What they read beyond the test is the condition under which a damaged
record leads to an error, and so to the directory walk, instead of a panic.
-/

namespace WinBlaze

namespace Ntfs

open Attempts Machine Saturating

/-- The parse ends with a value or an error. -/
def NoPanic {α : Type} (parse : Parse α) : Prop := FailsOnly (fun failure ↦ failure ≠ .panic) parse

theorem not_noPanic {α : Type} : ¬ NoPanic (.error .panic : Parse α) := fun h ↦
  failsOnly_error_iff.mp h rfl

theorem noPanic_bind_iff {α β : Type} {parse : Parse α} {f : α → Parse β} :
    NoPanic (parse >>= f) ↔ NoPanic parse ∧ ∀ a, parse = .ok a → NoPanic (f a) :=
  failsOnly_bind_iff

theorem noPanic_ok {α : Type} (a : α) : NoPanic (.ok a : Parse α) := failsOnly_ok a

theorem noPanic_invalidData {α : Type} (message : String) : NoPanic (invalidData message : Parse α) :=
  failsOnly_error (by simp)

theorem noPanic_readExact (volume : Volume) (position : UInt64) (count : ℕ) :
    NoPanic (volume.readExact position count) := by
  unfold Volume.readExact
  split
  case h_1 => exact noPanic_ok _
  case h_2 => exact noPanic_invalidData _

/-! ## What the walkers read -/

/-- The fields of the header that a walker reads: up to byte 22 for a value in
the record, up to byte 34 for one in clusters. -/
def ValueHeaderFits (record : List UInt8) (place : ℕ) : Prop :=
  place + (if u8At record (place + 8) = 0 then 22 else 34) ≤ record.length

/-- The first attribute of this type, if there is one. -/
def firstAttributeOf (record : List UInt8) (attributeType : UInt32) : Option ℕ :=
  firstOfType record attributeType (firstAttrOffsetOf record)

def BitmapFits (record : List UInt8) : Prop :=
  ∀ place, firstAttributeOf record attributeBitmap = some place → ValueHeaderFits record place

/-- The start of a resident attribute list is not clamped as its end is. -/
def ListFits (record : List UInt8) : Prop :=
  ∀ place, firstAttributeOf record attributeList = some place → ValueHeaderFits record place ∧
    (u8At record (place + 8) = 0 → place + (u16At record (place + 20)).toNat ≤ record.length)

/-- A resident data attribute is refused before anything else is read. -/
def DataFits (record : List UInt8) : Prop :=
  ∀ place, firstAttributeOf record attributeData = some place → u8At record (place + 8) ≠ 0 →
    place + 34 ≤ record.length

/-- Record 0, read for the extents: it has a signature at all, its first
attribute offset, and the fields of its data attribute. -/
def ExtentsReadable (volume : Volume) (geometry : MftGeometry) : Prop :=
  ∀ bytes, volume.read geometry.mftStartOffset (extentReadLength geometry) = .ok bytes →
    4 ≤ geometry.recordSize.toNat ∧
      ((bytes.take geometry.recordSize.toNat).take 4 = fileRecordSignature →
        ∀ record, Ntfs.applyRecordFixups (bytes.take geometry.recordSize.toNat)
          geometry.bytesPerSector.toNat = some record → 22 ≤ record.length ∧ DataFits record)

/-- The record an attribute list names: its place in the extents, and its bitmap. -/
def ListedReadable (volume : Volume) (geometry : MftGeometry)
    (dataExtents : List (UInt64 × UInt64)) (list : List UInt8) : Prop :=
  ∀ number, Ntfs.attributeListBitmapRecord list = some number →
    PlaceFits (number.toNat * ntfsRecordSize) 0 dataExtents ∧
      ∀ physical, Ntfs.mftRecordPhysicalOffset dataExtents number = some physical →
        ∀ extension, Ntfs.readMftRecordAt volume geometry physical = .ok extension →
          BitmapFits extension

/-- Record 0, read for the bitmap, and the record its attribute list names. -/
def BitmapReadable (volume : Volume) (geometry : MftGeometry)
    (dataExtents : List (UInt64 × UInt64)) : Prop :=
  ∀ record0, Ntfs.readMftRecordAt volume geometry geometry.mftStartOffset = .ok record0 →
    BitmapFits record0 ∧ (firstAttributeOf record0 attributeBitmap = none →
      ListFits record0 ∧ ∀ list, Ntfs.readAttributeListValue record0 volume geometry = .ok (some list) →
        ListedReadable volume geometry dataExtents list)

/-! ## One attribute -/

section Values

variable {volume : SeekingVolume} {geometry : MftGeometry} {record : List UInt8} {place : ℕ}

theorem noPanic_readExtentFrom (volume : Volume) (extent : UInt64 × UInt64) (offset : ℕ) :
    NoPanic (Ntfs.readExtentFrom volume extent offset) := by
  induction hleft : extent.2.toNat - offset using Nat.strong_induction_on generalizing offset with
  | h left ih =>
      rw [Ntfs.readExtentFrom]
      split
      case isTrue hoffset =>
        have hchunk : 0 < volumeReadChunk := by decide
        exact (noPanic_readExact _ _ _).bind fun bytes _ ↦
          FailsOnly.bind (ih _ (by omega) _ rfl) fun rest _ ↦ noPanic_ok _
      case isFalse => exact noPanic_ok _

theorem noPanic_asSlice {bytes : List UInt8} (h : bytes.length < 2 ^ 63) : NoPanic (asSlice bytes) := by
  rw [asSlice_eq h]
  exact noPanic_ok _

theorem noPanic_decodeDataRuns (runs : Slice) (bytesPerCluster : UInt64) :
    NoPanic (Machine.decodeDataRuns runs bytesPerCluster) := by
  rw [Machine.decodeDataRuns_eq]
  exact fun failure hfailure hpanic ↦ decodeDataRuns_ne_panic _ _ (hpanic ▸ hfailure)

/-- The running sum never passes the cap. -/
theorem noPanic_trimExtents (extents : List (UInt64 × UInt64)) (validLen cluster : UInt64) :
    NoPanic (trimExtentsToValidLength extents validLen cluster) := by
  unfold trimExtentsToValidLength
  split
  case isTrue => exact noPanic_ok _
  case isFalse =>
    have hstart : (0 : UInt64).toNat = (bytesOf []).length := rfl
    obtain ⟨left, keep, hkept, -⟩ := keepWithin_spec (satMul (divCeil validLen cluster) cluster) []
      extents hstart (Nat.zero_le _)
    rw [List.nil_append, List.length_nil] at hkept
    rw [hkept, Parse.ok_bind]
    split
    case isTrue => exact noPanic_ok _
    case isFalse => exact noPanic_ok _

theorem noPanic_extents (extents : List (UInt64 × UInt64)) :
    NoPanic (extents.mapM (fun extent ↦ Machine.readExtentFrom volume.toVolume extent 0)) := by
  rw [mapM_readExtentFrom]
  exact FailsOnly.mapM fun extent _ ↦ noPanic_readExtentFrom _ _ _

theorem length_lt_of_runs {attributeLength offset : ℕ} {runs : List UInt8}
    (hlength : record.length < 2 ^ 63)
    (h : (if attributeLength ≤ offset then none
      else some ((record.drop (place + offset)).take (attributeLength - offset))) = some runs) :
    runs.length < 2 ^ 63 := by
  split at h
  case isTrue => cases h
  case isFalse =>
    obtain rfl := Option.some.inj h
    rw [List.length_take, List.length_drop]
    omega

theorem noPanic_nonResidentValue {outside : Parse (Option (List UInt8))} {attributeLength : ℕ}
    (houtside : NoPanic outside) (hlength : record.length < 2 ^ 63)
    (hend : place + attributeLength ≤ record.length) (hfits : place + 34 ≤ record.length) :
    NoPanic (Machine.nonResidentValue volume.toVolume geometry record place attributeLength outside) := by
  rw [Machine.nonResidentValue, lengthField_eq hlength hend, Parse.ok_bind,
    runList_eq hlength hend hfits, Parse.ok_bind]
  split
  case h_1 => exact houtside
  case h_2 runs hruns =>
    exact (noPanic_asSlice (length_lt_of_runs hlength hruns)).bind fun runs _ ↦
      (noPanic_decodeDataRuns runs _).bind fun extents _ ↦
        (noPanic_extents extents).bind fun chunks _ ↦ noPanic_ok _

theorem nonResidentValue_noPanic_iff {outside : Parse (Option (List UInt8))} {attributeLength : ℕ}
    (houtside : NoPanic outside) (hlength : record.length < 2 ^ 63)
    (hend : place + attributeLength ≤ record.length) :
    NoPanic (Machine.nonResidentValue volume.toVolume geometry record place attributeLength outside) ↔
      place + 34 ≤ record.length := by
  by_cases hfits : place + 34 ≤ record.length
  · exact iff_of_true (noPanic_nonResidentValue houtside hlength hend hfits) hfits
  · refine iff_of_false (fun h ↦ ?_) hfits
    rw [nonResidentValue_panics hlength hend (by omega)] at h
    exact not_noPanic h

/-- The value of a resident attribute, cut at the end of the record or refused behind it. -/
theorem bitmapValue_noPanic_iff (hlength : record.length < 2 ^ 63) (hheader : HeaderAt record place) :
    NoPanic (bitmapValue record volume.toVolume geometry place (lengthAt record place)) ↔
      ValueHeaderFits record place := by
  have hend := hheader.2.2.2
  unfold bitmapValue ValueHeaderFits
  by_cases hresident : u8At record (place + 8) = 0
  · rw [if_pos hresident, if_pos hresident]
    by_cases hfits : place + 22 ≤ record.length
    · refine iff_of_true ?_ hfits
      rw [residentSpan_eq hlength hfits, Parse.ok_bind]
      split
      case isTrue hinside =>
        rw [slice_eq (Nat.le_add_right _ _) hinside]
        exact noPanic_ok _
      case isFalse => exact noPanic_invalidData _
    · refine iff_of_false (fun h ↦ ?_) hfits
      rw [residentSpan_panics (by omega) (by omega)] at h
      exact not_noPanic h
  · rw [if_neg hresident, if_neg hresident]
    exact nonResidentValue_noPanic_iff (noPanic_invalidData _) hlength hend

theorem listValue_noPanic_iff (hlength : record.length < 2 ^ 63) (hheader : HeaderAt record place) :
    NoPanic (listValue record volume.toVolume geometry place (lengthAt record place)) ↔
      ValueHeaderFits record place ∧ (u8At record (place + 8) = 0 →
        place + (u16At record (place + 20)).toNat ≤ record.length) := by
  have hend := hheader.2.2.2
  unfold listValue ValueHeaderFits
  by_cases hresident : u8At record (place + 8) = 0
  · rw [if_pos hresident, if_pos hresident]
    by_cases hfits : place + 22 ≤ record.length
    · rw [residentSpan_eq hlength hfits, Parse.ok_bind]
      dsimp only
      by_cases hstart : place + (u16At record (place + 20)).toNat ≤ record.length
      · refine iff_of_true ?_ ⟨hfits, fun _ ↦ hstart⟩
        rw [slice_eq (by omega) (by omega)]
        exact noPanic_ok _
      · refine iff_of_false (fun h ↦ ?_) fun h ↦ hstart (h.2 hresident)
        rw [slice, if_neg (by omega)] at h
        exact not_noPanic h
    · refine iff_of_false (fun h ↦ ?_) fun h ↦ hfits h.1
      rw [residentSpan_panics (by omega) (by omega)] at h
      exact not_noPanic h
  · rw [if_neg hresident, if_neg hresident]
    rw [and_iff_left fun h ↦ (hresident h).elim]
    exact nonResidentValue_noPanic_iff (noPanic_ok _) hlength hend

/-! ## One record -/

theorem firstAttribute_noPanic_iff {α : Type} {attributeType : UInt32} {cursor : ℕ}
    (value : ℕ → ℕ → Parse (Option α)) (hlength : record.length < 2 ^ 63) (hcursor : cursor < 2 ^ 63) :
    NoPanic (firstAttribute record attributeType value cursor) ↔
      ∀ place, firstOfType record attributeType cursor = some place →
        NoPanic (value place (lengthAt record place)) := by
  rw [firstAttribute_eq value hlength hcursor]
  cases firstOfType record attributeType cursor with
  | none => exact iff_of_true (noPanic_ok _) fun place h ↦ by cases h
  | some first => exact ⟨fun h place hplace ↦ Option.some.inj hplace ▸ h, fun h ↦ h first rfl⟩

theorem leU16_first (hshort : 22 ≤ record.length) : leU16 record 20 = .ok (u16At record 20) :=
  if_pos hshort

theorem firstAttrOffset_lt (record : List UInt8) : (u16At record 20).toNat < 2 ^ 63 :=
  (u16At record 20).toNat_lt.trans (by decide)

theorem extractBitmap_noPanic_iff (hlength : record.length < 2 ^ 63) (hshort : 22 ≤ record.length) :
    NoPanic (Machine.extractBitmapFromRecord record volume.toVolume geometry) ↔ BitmapFits record := by
  rw [Machine.extractBitmapFromRecord, leU16_first hshort, Parse.ok_bind]
  refine (firstAttribute_noPanic_iff _ hlength (firstAttrOffset_lt record)).trans ?_
  refine forall_congr' fun place ↦ forall_congr' fun hplace ↦ ?_
  exact bitmapValue_noPanic_iff hlength (headerAt_of_firstOfType hplace)

theorem readAttributeList_noPanic_iff (hlength : record.length < 2 ^ 63)
    (hshort : 22 ≤ record.length) :
    NoPanic (Machine.readAttributeListValue record volume.toVolume geometry) ↔ ListFits record := by
  rw [Machine.readAttributeListValue, leU16_first hshort, Parse.ok_bind]
  refine (firstAttribute_noPanic_iff _ hlength (firstAttrOffset_lt record)).trans ?_
  refine forall_congr' fun place ↦ forall_congr' fun hplace ↦ ?_
  exact listValue_noPanic_iff hlength (headerAt_of_firstOfType hplace)

/-- A bitmap attribute gives bytes or an error. -/
theorem bitmapValue_ne_none (attributeLength : ℕ) :
    bitmapValue record volume.toVolume geometry place attributeLength ≠ .ok none := by
  intro h
  unfold bitmapValue at h
  split at h
  case isTrue =>
    obtain ⟨span, -, h⟩ := Parse.bind_eq_ok_iff.mp h
    split at h
    case isTrue =>
      obtain ⟨value, -, h⟩ := Parse.bind_eq_ok_iff.mp h
      cases h
    case isFalse => cases h
  case isFalse =>
    obtain ⟨realSize, -, h⟩ := Parse.bind_eq_ok_iff.mp h
    obtain ⟨runs, -, h⟩ := Parse.bind_eq_ok_iff.mp h
    split at h
    case h_1 => cases h
    case h_2 runs =>
      obtain ⟨runs, -, h⟩ := Parse.bind_eq_ok_iff.mp h
      obtain ⟨extents, -, h⟩ := Parse.bind_eq_ok_iff.mp h
      obtain ⟨chunks, -, h⟩ := Parse.bind_eq_ok_iff.mp h
      cases h

theorem extractBitmap_eq_none_iff (hlength : record.length < 2 ^ 63) (hshort : 22 ≤ record.length) :
    Machine.extractBitmapFromRecord record volume.toVolume geometry = .ok none ↔
      firstAttributeOf record attributeBitmap = none := by
  rw [Machine.extractBitmapFromRecord, leU16_first hshort, Parse.ok_bind,
    firstAttribute_eq _ hlength (firstAttrOffset_lt record)]
  change (firstAttributeOf record attributeBitmap).elim _ _ = _ ↔ _
  cases firstAttributeOf record attributeBitmap with
  | none => exact iff_of_true rfl rfl
  | some place => exact iff_of_false (bitmapValue_ne_none _) (Option.some_ne_none place)

/-- Where it does not panic, the list is the one of the bitmap's model. -/
theorem readAttributeListValue_eq (hlength : record.length < 2 ^ 63) (hshort : 22 ≤ record.length)
    (hfits : ListFits record) :
    Machine.readAttributeListValue record volume.toVolume geometry =
      Ntfs.readAttributeListValue record volume.toVolume geometry := by
  rw [Machine.readAttributeListValue, Ntfs.readAttributeListValue, leU16_first hshort, Parse.ok_bind,
    Parse.ok_bind, firstAttribute_eq _ hlength (firstAttrOffset_lt record), attributeValueFrom_eq]
  cases hplace : firstOfType record attributeList (u16At record 20).toNat with
  | none => rfl
  | some place =>
      have hend := (headerAt_of_firstOfType hplace).2.2.2
      obtain ⟨hheader, hstart⟩ := hfits place hplace
      unfold ValueHeaderFits at hheader
      change listValue record volume.toVolume geometry place _ = _
      rw [Option.elim_some, listValue]
      by_cases hresident : u8At record (place + 8) = 0
      · rw [if_pos hresident] at hheader
        have hinside := hstart hresident
        have hread : leU16 record (place + 20) = .ok (u16At record (place + 20)) := if_pos (by omega)
        have hread' : leU32 record (place + 16) = .ok (u32At record (place + 16)) := if_pos (by omega)
        rw [if_pos hresident, if_pos hresident, residentSpan_eq hlength hheader, Parse.ok_bind, hread,
          Parse.ok_bind, hread', Parse.ok_bind, slice_eq (by omega) (by omega)]
        dsimp only
        rw [if_pos (by omega)]
        rfl
      · rw [if_neg hresident] at hheader
        rw [if_neg hresident, if_neg hresident, nonResidentValue_eq _ hlength hend hheader]

/-- A resident data attribute is an error, not a panic. -/
theorem dataExtents_noPanic_iff (hlength : record.length < 2 ^ 63) (hheader : HeaderAt record place) :
    NoPanic (dataExtents record geometry place (lengthAt record place)) ↔
      (u8At record (place + 8) ≠ 0 → place + 34 ≤ record.length) := by
  have hend := hheader.2.2.2
  unfold dataExtents
  by_cases hresident : u8At record (place + 8) = 0
  · rw [if_pos hresident]
    exact iff_of_true (noPanic_invalidData _) fun h ↦ (h hresident).elim
  · rw [if_neg hresident, lengthField_eq hlength hend, Parse.ok_bind]
    by_cases hfits : place + 34 ≤ record.length
    · refine iff_of_true ?_ fun _ ↦ hfits
      rw [runList_eq hlength hend hfits, Parse.ok_bind]
      split
      case h_1 => exact noPanic_invalidData _
      case h_2 runs hruns =>
        exact (noPanic_asSlice (length_lt_of_runs hlength hruns)).bind fun runs _ ↦
          (noPanic_decodeDataRuns runs _).bind fun extents _ ↦
            (noPanic_trimExtents extents _ _).bind fun trimmed _ ↦ noPanic_ok _
    · refine iff_of_false (fun h ↦ ?_) fun h ↦ hfits (h hresident)
      rw [runList_panics (by omega) (by omega)] at h
      exact not_noPanic h

end Values

/-! ## The two readers -/

section Readers

variable {volume : SeekingVolume} {geometry : MftGeometry}

theorem length_of_applyRecordFixups {bytes record : List UInt8} {bytesPerSector : ℕ}
    (h : Ntfs.applyRecordFixups bytes bytesPerSector = some record) :
    record.length = bytes.length := by
  rw [Ntfs.applyRecordFixups_eq] at h
  split at h
  case isTrue => exact Option.some.inj h ▸ length_restoreRecord bytesPerSector bytes
  case isFalse => cases h

theorem noPanic_readMftRecordAt (volume : Volume) (geometry : MftGeometry) (physical : UInt64) :
    NoPanic (Ntfs.readMftRecordAt volume geometry physical) := by
  refine (noPanic_readExact _ _ _).bind fun buffer _ ↦ ?_
  split
  case isTrue => exact noPanic_invalidData _
  case isFalse =>
    dsimp only
    split
    case isTrue => exact noPanic_invalidData _
    case isFalse =>
      split
      case h_1 => exact noPanic_invalidData _
      case h_2 => exact noPanic_ok _

theorem length_of_readMftRecordAt {volume : Volume} {physical : UInt64} {record : List UInt8}
    (h : Ntfs.readMftRecordAt volume geometry physical = .ok record) :
    record.length = ntfsRecordSize := by
  obtain ⟨buffer, -, h⟩ := Parse.bind_eq_ok_iff.mp h
  split at h
  case isTrue => cases h
  case isFalse hinside =>
    dsimp only at h
    split at h
    case isTrue => cases h
    case isFalse =>
      split at h
      case h_1 => cases h
      case h_2 fixed hfixed =>
        cases h
        rw [length_of_applyRecordFixups hfixed, List.length_take, List.length_drop]
        omega

/-- A record read from the volume is long enough for its header, and short enough for a slice. -/
theorem length_bounds {volume : Volume} {physical : UInt64} {record : List UInt8}
    (h : Ntfs.readMftRecordAt volume geometry physical = .ok record) :
    record.length < 2 ^ 63 ∧ 22 ≤ record.length := by
  rw [length_of_readMftRecordAt h]
  exact ⟨by decide, by decide⟩

theorem readBitmapAt_noPanic_iff (hbound : geometry.bytesPerCluster.toNat < 2 ^ 32)
    (physical : UInt64) :
    NoPanic (Machine.readMftRecordAt volume.toVolume geometry physical >>= fun record ↦
        Machine.extractBitmapFromRecord record volume.toVolume geometry) ↔
      ∀ record, Ntfs.readMftRecordAt volume.toVolume geometry physical = .ok record →
        BitmapFits record := by
  rw [readMftRecordAt_eq _ _ hbound, noPanic_bind_iff,
    and_iff_right (noPanic_readMftRecordAt _ _ _)]
  refine forall_congr' fun record ↦ forall_congr' fun hrecord ↦ ?_
  obtain ⟨hlength, hshort⟩ := length_bounds hrecord
  exact extractBitmap_noPanic_iff hlength hshort

theorem readListed_noPanic_iff (hbound : geometry.bytesPerCluster.toNat < 2 ^ 32)
    (dataExtents : List (UInt64 × UInt64)) (list : List UInt8) :
    NoPanic (Machine.readListedBitmap volume.toVolume geometry dataExtents list) ↔
      ListedReadable volume.toVolume geometry dataExtents list := by
  unfold ListedReadable Ntfs.attributeListBitmapRecord
  rw [Machine.readListedBitmap, attributeListBitmapRecordFrom_eq, Parse.ok_bind]
  cases hnumber : Ntfs.attributeListBitmapRecordFrom list 0 with
  | none => exact iff_of_true (noPanic_ok _) fun number h ↦ by cases h
  | some number =>
      have hlt := number_lt_of_attributeListBitmapRecordFrom hnumber
      have htarget : (number * .ofNat ntfsRecordSize).toNat = number.toNat * ntfsRecordSize := by
        have hsize : (UInt64.ofNat ntfsRecordSize).toNat = 1024 := by decide
        rw [UInt64.toNat_mul, hsize, Nat.mod_eq_of_lt (by omega)]
        rfl
      dsimp only
      rw [mftRecordPhysicalOffset_eq hlt]
      by_cases hfits : PlaceFits (number.toNat * ntfsRecordSize) 0 dataExtents
      · rw [physicalOffsetFrom_of_fits UInt64.zero_le (by rwa [htarget]), Parse.ok_bind]
        rw [← Ntfs.mftRecordPhysicalOffset]
        simp only [Option.some.injEq, forall_eq', hfits, true_and]
        cases Ntfs.mftRecordPhysicalOffset dataExtents number with
        | none => exact iff_of_true (noPanic_ok _) fun physical h ↦ by cases h
        | some physical =>
            simp only [Option.some.injEq, forall_eq']
            exact readBitmapAt_noPanic_iff hbound physical
      · rw [physicalOffsetFrom_panics UInt64.zero_le (by rwa [htarget]), Parse.error_bind]
        exact iff_of_false not_noPanic fun h ↦ hfits (h number rfl).1

theorem readRelocated_noPanic_iff (hbound : geometry.bytesPerCluster.toNat < 2 ^ 32)
    (dataExtents : List (UInt64 × UInt64)) {record : List UInt8} (hlength : record.length < 2 ^ 63)
    (hshort : 22 ≤ record.length) :
    NoPanic (readRelocatedBitmap volume.toVolume geometry dataExtents record) ↔
      ListFits record ∧
        ∀ list, Ntfs.readAttributeListValue record volume.toVolume geometry = .ok (some list) →
          ListedReadable volume.toVolume geometry dataExtents list := by
  rw [readRelocatedBitmap, noPanic_bind_iff, readAttributeList_noPanic_iff hlength hshort]
  refine and_congr_right fun hfits ↦ ?_
  rw [readAttributeListValue_eq hlength hshort hfits]
  constructor
  · exact fun h list hlist ↦ (readListed_noPanic_iff hbound dataExtents list).mp (h (some list) hlist)
  · intro h value hvalue
    cases value with
    | none => exact noPanic_ok _
    | some list => exact (readListed_noPanic_iff hbound dataExtents list).mpr (h list hvalue)

theorem readMftBitmap_noPanic_iff (hbound : geometry.bytesPerCluster.toNat < 2 ^ 32)
    (dataExtents : List (UInt64 × UInt64)) :
    NoPanic (Machine.readMftBitmap volume.toVolume geometry dataExtents) ↔
      BitmapReadable volume.toVolume geometry dataExtents := by
  rw [Machine.readMftBitmap, readMftRecordAt_eq _ _ hbound, noPanic_bind_iff,
    and_iff_right (noPanic_readMftRecordAt _ _ _)]
  refine forall_congr' fun record0 ↦ forall_congr' fun hrecord0 ↦ ?_
  obtain ⟨hlength, hshort⟩ := length_bounds hrecord0
  rw [noPanic_bind_iff, extractBitmap_noPanic_iff hlength hshort]
  refine and_congr_right fun _ ↦ ?_
  have habsent : Machine.extractBitmapFromRecord record0 volume.toVolume geometry = .ok none ↔ _ :=
    extractBitmap_eq_none_iff hlength hshort
  rw [← habsent, ← readRelocated_noPanic_iff hbound dataExtents hlength hshort]
  constructor
  · intro h hnone
    exact (noPanic_bind_iff.mp (h none hnone)).1
  · intro h value hvalue
    cases value with
    | none =>
        refine (h hvalue).bind fun found _ ↦ ?_
        cases found with
        | none => exact noPanic_invalidData _
        | some bitmap => exact noPanic_ok _
    | some bitmap => exact noPanic_ok _

/-- A record that passed its check, walked for its data attribute. -/
theorem readData_noPanic_iff {record : List UInt8} (hlength : record.length < 2 ^ 63) :
    NoPanic (leU16 record 20 >>= fun firstAttrOffset ↦
        Machine.firstAttribute record attributeData (Machine.dataExtents record geometry)
            firstAttrOffset.toNat >>= fun found ↦
          match found with
          | some extents => pure extents
          | none => invalidData "MFT record 0 has no non-resident $DATA attribute") ↔
      22 ≤ record.length ∧ DataFits record := by
  by_cases hshort : 22 ≤ record.length
  · rw [leU16_first hshort, Parse.ok_bind, noPanic_bind_iff, and_iff_right hshort,
      firstAttribute_noPanic_iff _ hlength (firstAttrOffset_lt record)]
    have hend : ∀ found : Option (List (UInt64 × UInt64)), NoPanic (match found with
        | some extents => pure extents
        | none => invalidData "MFT record 0 has no non-resident $DATA attribute") := by
      intro found
      cases found with
      | none => exact noPanic_invalidData _
      | some extents => exact noPanic_ok _
    refine (and_iff_left fun found _ ↦ hend found).trans ?_
    refine forall_congr' fun place ↦ forall_congr' fun hplace ↦ ?_
    exact dataExtents_noPanic_iff hlength (headerAt_of_firstOfType hplace)
  · have hread : leU16 record 20 = .error .panic := if_neg hshort
    rw [hread, Parse.error_bind]
    exact iff_of_false not_noPanic fun h ↦ hshort h.1

theorem readMftExtents_noPanic_iff (volume : Volume) (geometry : MftGeometry) :
    NoPanic (Machine.readMftExtents volume geometry) ↔ ExtentsReadable volume geometry := by
  have hread : ∀ bytes, volume.readExact geometry.mftStartOffset (extentReadLength geometry) =
      .ok bytes ↔ volume.read geometry.mftStartOffset (extentReadLength geometry) = .ok bytes := by
    intro bytes
    unfold Volume.readExact
    split
    case h_1 other hother => rw [hother]; simp
    case h_2 message hmessage => rw [hmessage]; simp [invalidData]
  rw [Machine.readMftExtents, noPanic_bind_iff, and_iff_right (noPanic_readExact _ _ _)]
  refine forall_congr' fun bytes ↦ ?_
  rw [hread]
  refine forall_congr' fun hbytes ↦ ?_
  have hsize := geometry.recordSize.toNat_lt
  have hlength : (bytes.take geometry.recordSize.toNat).length = geometry.recordSize.toNat := by
    rw [List.length_take, volume.length_read _ _ _ hbytes]
    exact Nat.min_eq_left ((Nat.le_max_left _ _).trans (Nat.le_max_left _ _))
  dsimp only
  by_cases hsignature : 4 ≤ geometry.recordSize.toNat
  · rw [slice_eq (by omega) (by omega), Parse.ok_bind, and_iff_right hsignature, List.drop_zero]
    by_cases hfile : (bytes.take geometry.recordSize.toNat).take 4 = fileRecordSignature
    · rw [if_neg (not_not.mpr hfile), fixedRecord_eq _ (by omega), Parse.ok_bind]
      cases hfixed : Ntfs.applyRecordFixups (bytes.take geometry.recordSize.toNat)
          geometry.bytesPerSector.toNat with
      | none => exact iff_of_true (noPanic_invalidData _) fun _ record h ↦ by cases h
      | some record =>
          have hrecord : record.length < 2 ^ 63 := by
            rw [length_of_applyRecordFixups hfixed]
            omega
          refine (readData_noPanic_iff hrecord).trans ⟨fun h _ other hother ↦ ?_, fun h ↦ h hfile _ rfl⟩
          exact Option.some.inj hother ▸ h
    · rw [if_pos hfile]
      exact iff_of_true (noPanic_invalidData _) fun h ↦ (hfile h).elim
  · rw [slice, if_neg (by omega), Parse.error_bind]
    exact iff_of_false not_noPanic fun h ↦ hsignature h.1

/-- On an accepted volume the readers of the extents and of the bitmap return
exactly when what they read at fixed distances lies inside the records. -/
theorem readers_return_iff {volume : SeekingVolume} {geometry : MftGeometry}
    (hgeometry : readVolumeGeometry volume.toVolume = .ok geometry) :
    (NoPanic (Machine.readMftExtents volume.toVolume geometry) ↔
        ExtentsReadable volume.toVolume geometry) ∧
      ∀ dataExtents, NoPanic (Machine.readMftBitmap volume.toVolume geometry dataExtents) ↔
        BitmapReadable volume.toVolume geometry dataExtents := by
  have hbound : geometry.bytesPerCluster.toNat < 2 ^ 32 :=
    (bytesPerCluster_lt_of_readVolumeGeometry hgeometry).trans (by decide)
  exact ⟨readMftExtents_noPanic_iff _ _, readMftBitmap_noPanic_iff hbound⟩

end Readers

/-! ## A data attribute at the end of record 0 -/

/-- Sectors of 512 bytes, clusters of 4096, records of 1024, the table at 16384. -/
def smallBoot : List UInt8 :=
  [0xEB, 0x52, 0x90] ++ ntfsSignature ++ List.replicate 4 0x20 ++ [0, 2, 8] ++
    List.replicate 34 0 ++ [4] ++ List.replicate 15 0 ++ [0xF6] ++ List.replicate 447 0

/-- Record 0 with one attribute: non-resident data of sixteen bytes at offset 1000. -/
def endHeaderRecord : List UInt8 :=
  fileRecordSignature ++ [48, 0, 3, 0] ++ List.replicate 12 0 ++ [0xE8, 3] ++ List.replicate 978 0 ++
    [0x80, 0, 0, 0, 16, 0, 0, 0, 1] ++ List.replicate 15 0

def endHeaderVolume : SeekingVolume where
  read position count :=
    if 2 ^ 63 ≤ position.toNat then .error "seek"
    else .ok (((if position = 0 then smallBoot else endHeaderRecord) ++
      List.replicate count 0).take count)
  length_read position count bytes h := by
    split at h
    case isTrue => cases h
    case isFalse =>
      obtain rfl := Except.ok.inj h
      rw [List.length_take, List.length_append, List.length_replicate]
      exact Nat.min_eq_left (Nat.le_add_left _ _)
  read_beyond position count h := ⟨_, if_pos h⟩

def smallGeometry : MftGeometry where
  bytesPerSector := 512
  bytesPerCluster := 4096
  mftStartOffset := 16384
  recordSize := 1024

theorem readers_return_small :
    (NoPanic (Machine.readMftExtents endHeaderVolume.toVolume smallGeometry) ↔
        ExtentsReadable endHeaderVolume.toVolume smallGeometry) ∧
      ∀ dataExtents, NoPanic (Machine.readMftBitmap endHeaderVolume.toVolume smallGeometry dataExtents) ↔
        BitmapReadable endHeaderVolume.toVolume smallGeometry dataExtents :=
  readers_return_iff (by decide +kernel)

/-- The run offset would be at byte 1032 of the record. -/
theorem end_header_panics :
    readVolumeGeometry endHeaderVolume.toVolume = .ok smallGeometry ∧
      ¬ NoPanic (Machine.readMftExtents endHeaderVolume.toVolume smallGeometry) := by
  have hpanic : Machine.readMftExtents endHeaderVolume.toVolume smallGeometry = .error .panic := by
    decide +kernel
  exact ⟨by decide +kernel, fun h ↦ h .panic hpanic rfl⟩

end Ntfs

end WinBlaze
