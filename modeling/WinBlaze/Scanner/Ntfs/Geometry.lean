import WinBlaze.Scanner.Ntfs.DataRuns

/-!
# The geometry of a volume

The boot sector gives the sizes of a sector, a cluster and a file record, and
the place of the file table. Only zero sizes are refused: the byte that encodes
the record size is used as a shift amount, and the table's cluster number as a
factor, as they stand on the disk.
-/

namespace WinBlaze

namespace Ntfs

/-! ## The fields -/

def ntfsSignature : List UInt8 := [0x4E, 0x54, 0x46, 0x53]

def bytesPerSectorOf (boot : List UInt8) : UInt16 := u16At boot 11

def sectorsPerClusterOf (boot : List UInt8) : UInt8 := u8At boot 13

def mftLcnOf (boot : List UInt8) : UInt64 := u64At boot 48

def clustersPerRecordOf (boot : List UInt8) : Int8 := (u8At boot 64).toInt8

def u64Mul (a b : UInt64) : Parse UInt64 :=
  if a.toNat * b.toNat < 2 ^ 64 then .ok (a * b) else .error .panic

def u32Mul (a b : UInt32) : Parse UInt32 :=
  if a.toNat * b.toNat < 2 ^ 32 then .ok (a * b) else .error .panic

/-- `-a` on an `i32` -/
def i32Neg (a : Int32) : Parse Int32 := if a.toInt = -2 ^ 31 then .error .panic else .ok (-a)

/-- `1u32 << amount` -/
def u32Bit (amount : Int32) : Parse UInt32 :=
  if 0 ≤ amount.toInt ∧ amount.toInt < 32 then .ok (.ofNat (2 ^ amount.toInt.toNat))
  else .error .panic

/-- The size of a file record: a number of clusters, or the negated exponent of
a power of two. -/
def recordSizeOf (clustersPerRecord : Int8) (bytesPerCluster : UInt64) : Parse UInt32 :=
  if 0 < clustersPerRecord then
    u32Mul clustersPerRecord.toInt32.toUInt32 bytesPerCluster.toUInt32
  else do
    let exponent ← i32Neg clustersPerRecord.toInt32
    u32Bit exponent

def readVolumeGeometry (volume : Volume) : Parse MftGeometry := do
  let boot ← volume.readExact 0 512
  if (boot.drop 3).take 4 ≠ ntfsSignature then invalidData "volume is not NTFS"
  else if bytesPerSectorOf boot = 0 ∨ sectorsPerClusterOf boot = 0 then
    invalidData "invalid NTFS boot sector geometry"
  else do
    let bytesPerCluster ← u64Mul (bytesPerSectorOf boot).toUInt64 (sectorsPerClusterOf boot).toUInt64
    let recordSize ← recordSizeOf (clustersPerRecordOf boot) bytesPerCluster
    let mftStartOffset ← u64Mul (mftLcnOf boot) bytesPerCluster
    pure {
      bytesPerSector := bytesPerSectorOf boot
      bytesPerCluster := bytesPerCluster
      mftStartOffset := mftStartOffset
      recordSize := recordSize }

/-! ## What the fields say -/

/-- The code accepts the sector. -/
def IsNtfsBoot (boot : List UInt8) : Prop :=
  (boot.drop 3).take 4 = ntfsSignature ∧ bytesPerSectorOf boot ≠ 0 ∧ sectorsPerClusterOf boot ≠ 0

instance instDecidableIsNtfsBoot (boot : List UInt8) : Decidable (IsNtfsBoot boot) :=
  inferInstanceAs (Decidable (_ ∧ _))

/-- Bytes per cluster, without a bound. -/
def clusterBytesOf (boot : List UInt8) : ℕ :=
  (bytesPerSectorOf boot).toNat * (sectorsPerClusterOf boot).toNat

/-- The geometry holds the numbers the sector describes. -/
structure DescribedBy (boot : List UInt8) (geometry : MftGeometry) : Prop where
  bytesPerSector : geometry.bytesPerSector = bytesPerSectorOf boot
  bytesPerCluster : geometry.bytesPerCluster.toNat = clusterBytesOf boot
  recordSize : (geometry.recordSize.toNat : ℤ) =
    if 0 < (clustersPerRecordOf boot).toInt then (clustersPerRecordOf boot).toInt * clusterBytesOf boot
    else 2 ^ (-(clustersPerRecordOf boot).toInt).toNat
  mftStartOffset : geometry.mftStartOffset.toNat = (mftLcnOf boot).toNat * clusterBytesOf boot

/-- The sector is refused, or its numbers are read without overflow. -/
def GeometryExact (volume : Volume) : Prop :=
  (∃ error, readVolumeGeometry volume = .error (.error error)) ∨
    ∃ boot geometry, volume.read 0 512 = .ok boot ∧ readVolumeGeometry volume = .ok geometry ∧
      DescribedBy boot geometry

/-! ## No other product overflows -/

section Fields

variable {boot : List UInt8}

theorem clusterBytesOf_lt (boot : List UInt8) : clusterBytesOf boot < 2 ^ 24 := by
  have hsector := (bytesPerSectorOf boot).toNat_lt
  have hcluster := (sectorsPerClusterOf boot).toNat_lt
  calc clusterBytesOf boot ≤ (2 ^ 16 - 1) * (2 ^ 8 - 1) := Nat.mul_le_mul (by omega) (by omega)
    _ < 2 ^ 24 := by decide

theorem u64Mul_cluster (boot : List UInt8) :
    u64Mul (bytesPerSectorOf boot).toUInt64 (sectorsPerClusterOf boot).toUInt64 =
      .ok (.ofNat (clusterBytesOf boot)) := by
  have hlt := clusterBytesOf_lt boot
  have hproduct : (bytesPerSectorOf boot).toUInt64.toNat * (sectorsPerClusterOf boot).toUInt64.toNat =
      clusterBytesOf boot := by
    simp [clusterBytesOf]
  unfold u64Mul
  rw [if_pos (by omega)]
  refine congrArg Except.ok (UInt64.toNat_inj.mp ?_)
  rw [UInt64.toNat_mul, hproduct, UInt64.toNat_ofNat']

theorem toNat_clusterBytes (boot : List UInt8) :
    (UInt64.ofNat (clusterBytesOf boot)).toNat = clusterBytesOf boot := by
  have hlt := clusterBytesOf_lt boot
  exact UInt64.toNat_ofNat_of_lt' (by simp only [UInt64.size]; omega)

theorem u64Mul_eq_ok_iff {a b product : UInt64} :
    u64Mul a b = .ok product ↔ product.toNat = a.toNat * b.toNat := by
  unfold u64Mul
  split
  case isTrue h =>
    rw [Except.ok.injEq, ← UInt64.toNat_inj, UInt64.toNat_mul, Nat.mod_eq_of_lt h, eq_comm]
  case isFalse h =>
    have hlt := product.toNat_lt
    simp only [reduceCtorEq, false_iff]
    omega

theorem toNat_toUInt32 {a : Int32} (h : 0 ≤ a.toInt) : (a.toUInt32.toNat : ℤ) = a.toInt := by
  have hcond := BitVec.toInt_eq_toNat_cond a.toBitVec
  have hlt := a.toBitVec.isLt
  change a.toInt = _ at hcond
  change (a.toBitVec.toNat : ℤ) = _
  split at hcond <;> omega

theorem pos_iff_toInt (a : Int8) : 0 < a ↔ 0 < a.toInt := Int8.lt_iff_toInt_lt

/-- A record of whole clusters: the largest product still fits. -/
theorem recordSizeOf_of_pos (boot : List UInt8) (hpos : 0 < (clustersPerRecordOf boot).toInt) :
    ∃ size, recordSizeOf (clustersPerRecordOf boot) (.ofNat (clusterBytesOf boot)) = .ok size ∧
      (size.toNat : ℤ) = (clustersPerRecordOf boot).toInt * clusterBytesOf boot := by
  set clusters := clustersPerRecordOf boot
  have hbytes := clusterBytesOf_lt boot
  have hmost := clusters.toInt_lt
  have hfactor : (clusters.toInt32.toUInt32.toNat : ℤ) = clusters.toInt := by
    rw [toNat_toUInt32 (by rw [Int8.toInt_toInt32]; omega), Int8.toInt_toInt32]
  have hcluster : (UInt64.ofNat (clusterBytesOf boot)).toUInt32.toNat = clusterBytesOf boot := by
    rw [UInt64.toNat_toUInt32, toNat_clusterBytes, Nat.mod_eq_of_lt (by omega)]
  have hsector := (bytesPerSectorOf boot).toNat_lt
  have hsectors := (sectorsPerClusterOf boot).toNat_lt
  have hproduct : clusters.toInt32.toUInt32.toNat * clusterBytesOf boot < 2 ^ 32 :=
    calc clusters.toInt32.toUInt32.toNat * clusterBytesOf boot
        ≤ (2 ^ 7 - 1) * ((2 ^ 16 - 1) * (2 ^ 8 - 1)) :=
          Nat.mul_le_mul (by omega) (Nat.mul_le_mul (by omega) (by omega))
      _ < 2 ^ 32 := by decide
  refine ⟨clusters.toInt32.toUInt32 * (UInt64.ofNat (clusterBytesOf boot)).toUInt32, ?_, ?_⟩
  · rw [recordSizeOf, if_pos ((pos_iff_toInt _).mpr hpos), u32Mul, if_pos (by rwa [hcluster])]
  · rw [UInt32.toNat_mul, hcluster, Nat.mod_eq_of_lt hproduct, Nat.cast_mul, hfactor]

theorem recordSizeOf_of_nonpos {boot : List UInt8} {bytesPerCluster : UInt64}
    (hpos : ¬ 0 < (clustersPerRecordOf boot).toInt) :
    recordSizeOf (clustersPerRecordOf boot) bytesPerCluster =
      if -32 < (clustersPerRecordOf boot).toInt then
        .ok (.ofNat (2 ^ (-(clustersPerRecordOf boot).toInt).toNat))
      else .error .panic := by
  set clusters := clustersPerRecordOf boot
  have hleast := clusters.le_toInt
  have hneg : (-clusters.toInt32).toInt = -clusters.toInt := by
    rw [Int32.toInt_neg, Int8.toInt_toInt32]
    exact Int.bmod_eq_of_le (by omega) (by omega)
  unfold recordSizeOf i32Neg u32Bit
  rw [if_neg (mt (pos_iff_toInt _).mp hpos), Int8.toInt_toInt32, if_neg (by omega), Parse.ok_bind,
    hneg]
  by_cases hshift : -32 < clusters.toInt
  · rw [if_pos hshift, if_pos (by omega)]
  · rw [if_neg hshift, if_neg (by omega)]

theorem toNat_bit {exponent : ℤ} (hlt : exponent < 32) :
    (UInt32.ofNat (2 ^ exponent.toNat)).toNat = 2 ^ exponent.toNat := by
  have hpow : 2 ^ exponent.toNat < 2 ^ 32 := Nat.pow_lt_pow_right (by decide) (by omega)
  exact UInt32.toNat_ofNat_of_lt' hpow

theorem readVolumeGeometry_of_boot {volume : Volume} (hread : volume.read 0 512 = .ok boot)
    (hboot : IsNtfsBoot boot) :
    readVolumeGeometry volume =
      (recordSizeOf (clustersPerRecordOf boot) (.ofNat (clusterBytesOf boot)) >>= fun recordSize ↦
        u64Mul (mftLcnOf boot) (.ofNat (clusterBytesOf boot)) >>= fun mftStartOffset ↦
          .ok ⟨bytesPerSectorOf boot, .ofNat (clusterBytesOf boot), mftStartOffset, recordSize⟩) := by
  obtain ⟨hsignature, hsector, hsectors⟩ := hboot
  unfold readVolumeGeometry Volume.readExact
  rw [hread]
  dsimp only
  rw [Parse.ok_bind, if_neg (not_not.mpr hsignature), if_neg (not_or.mpr ⟨hsector, hsectors⟩),
    u64Mul_cluster]
  rfl

theorem readVolumeGeometry_of_not_boot {volume : Volume} (hread : volume.read 0 512 = .ok boot)
    (hboot : ¬ IsNtfsBoot boot) :
    ∃ error, readVolumeGeometry volume = .error (.error error) := by
  unfold readVolumeGeometry Volume.readExact
  rw [hread]
  dsimp only
  rw [Parse.ok_bind]
  by_cases hsignature : (boot.drop 3).take 4 = ntfsSignature
  · rw [if_neg (not_not.mpr hsignature), if_pos]
    · exact ⟨_, rfl⟩
    · by_contra hzero
      exact hboot ⟨hsignature, not_or.mp hzero⟩
  · rw [if_pos hsignature]
    exact ⟨_, rfl⟩

/-- What the sector says about the size of a record. -/
def DescribesRecordSize (boot : List UInt8) (size : UInt32) : Prop :=
  (size.toNat : ℤ) = if 0 < (clustersPerRecordOf boot).toInt then
    (clustersPerRecordOf boot).toInt * clusterBytesOf boot
  else 2 ^ (-(clustersPerRecordOf boot).toInt).toNat

theorem recordSizeOf_of_fits (hshift : -32 < (clustersPerRecordOf boot).toInt) :
    ∃ size, recordSizeOf (clustersPerRecordOf boot) (.ofNat (clusterBytesOf boot)) = .ok size ∧
      DescribesRecordSize boot size := by
  unfold DescribesRecordSize
  by_cases hpos : 0 < (clustersPerRecordOf boot).toInt
  · rw [if_pos hpos]
    exact recordSizeOf_of_pos boot hpos
  · have hbit := toNat_bit (by omega : -(clustersPerRecordOf boot).toInt < 32)
    rw [recordSizeOf_of_nonpos hpos, if_pos hshift, if_neg hpos]
    exact ⟨_, rfl, by rw [hbit]; push_cast; rfl⟩

theorem recordSizeOf_of_not_fits {bytesPerCluster : UInt64}
    (hshift : ¬ -32 < (clustersPerRecordOf boot).toInt) :
    recordSizeOf (clustersPerRecordOf boot) bytesPerCluster = .error .panic := by
  rw [recordSizeOf_of_nonpos (by omega), if_neg hshift]

end Fields

/-! ## Overflow -/

/-- The two fields that are used unchecked are small enough. -/
def FieldsFit (boot : List UInt8) : Prop :=
  -32 < (clustersPerRecordOf boot).toInt ∧ (mftLcnOf boot).toNat * clusterBytesOf boot < 2 ^ 64

section Overflow

variable {volume : Volume} {boot : List UInt8}

theorem readVolumeGeometry_of_fits (hread : volume.read 0 512 = .ok boot) (hboot : IsNtfsBoot boot)
    (hfits : FieldsFit boot) :
    ∃ geometry, readVolumeGeometry volume = .ok geometry ∧ DescribedBy boot geometry := by
  obtain ⟨hshift, hstart⟩ := hfits
  obtain ⟨size, hsize, hexact⟩ := recordSizeOf_of_fits hshift
  rw [← toNat_clusterBytes] at hstart
  have hproduct : u64Mul (mftLcnOf boot) (.ofNat (clusterBytesOf boot)) =
      .ok (mftLcnOf boot * .ofNat (clusterBytesOf boot)) := if_pos hstart
  have hnat := u64Mul_eq_ok_iff.mp hproduct
  rw [toNat_clusterBytes] at hnat
  rw [readVolumeGeometry_of_boot hread hboot, hsize, Parse.ok_bind, hproduct, Parse.ok_bind]
  exact ⟨_, rfl, rfl, toNat_clusterBytes boot, hexact, hnat⟩

theorem readVolumeGeometry_of_not_fits (hread : volume.read 0 512 = .ok boot)
    (hboot : IsNtfsBoot boot) (hfits : ¬ FieldsFit boot) :
    readVolumeGeometry volume = .error .panic := by
  rw [readVolumeGeometry_of_boot hread hboot]
  by_cases hshift : -32 < (clustersPerRecordOf boot).toInt
  · obtain ⟨size, hsize, -⟩ := recordSizeOf_of_fits hshift
    have hstart : ¬ (mftLcnOf boot).toNat * (UInt64.ofNat (clusterBytesOf boot)).toNat < 2 ^ 64 := by
      rw [toNat_clusterBytes]
      exact fun h ↦ hfits ⟨hshift, h⟩
    rw [hsize, Parse.ok_bind, u64Mul, if_neg hstart, Parse.error_bind]
  · rw [recordSizeOf_of_not_fits hshift, Parse.error_bind]

/-- An accepted cluster is small. -/
theorem bytesPerCluster_lt_of_readVolumeGeometry {geometry : MftGeometry}
    (h : readVolumeGeometry volume = .ok geometry) : geometry.bytesPerCluster.toNat < 2 ^ 24 := by
  cases hread : volume.read 0 512 with
  | error message =>
      rw [readVolumeGeometry, Volume.readExact, hread] at h
      cases h
  | ok boot =>
      by_cases hboot : IsNtfsBoot boot
      · by_cases hfits : FieldsFit boot
        · obtain ⟨other, hother, hdescribed⟩ := readVolumeGeometry_of_fits hread hboot hfits
          cases h.symm.trans hother
          exact hdescribed.bytesPerCluster ▸ clusterBytesOf_lt boot
        · cases h.symm.trans (readVolumeGeometry_of_not_fits hread hboot hfits)
      · obtain ⟨error, herror⟩ := readVolumeGeometry_of_not_boot hread hboot
        cases h.symm.trans herror

theorem not_geometryExact_of_panic (hpanic : readVolumeGeometry volume = .error .panic) :
    ¬ GeometryExact volume := by
  rintro (⟨error, herror⟩ | ⟨boot, geometry, -, hgeometry, -⟩)
  · cases hpanic.symm.trans herror
  · cases hpanic.symm.trans hgeometry

/-- The geometry is exact unless one of two fields of an accepted sector is out
of range: an exponent of 32 or more, or a table beyond the address space. -/
theorem geometryExact_iff (volume : Volume) :
    GeometryExact volume ↔
      ∀ boot, volume.read 0 512 = .ok boot → IsNtfsBoot boot → FieldsFit boot := by
  constructor
  · intro hexact boot hread hboot
    by_contra hfits
    exact not_geometryExact_of_panic (readVolumeGeometry_of_not_fits hread hboot hfits) hexact
  · intro hall
    cases hread : volume.read 0 512 with
    | error message =>
        refine Or.inl ⟨.io message, ?_⟩
        rw [readVolumeGeometry, Volume.readExact, hread]
        rfl
    | ok boot =>
        by_cases hboot : IsNtfsBoot boot
        · obtain ⟨geometry, hgeometry, hdescribed⟩ :=
            readVolumeGeometry_of_fits hread hboot (hall boot hread hboot)
          exact Or.inr ⟨boot, geometry, hread, hgeometry, hdescribed⟩
        · exact Or.inl (readVolumeGeometry_of_not_boot hread hboot)

end Overflow

/-! ## A record of two to the power 32 bytes -/

/-- A boot sector with sectors of 512 bytes, eight of them to a cluster, and the
exponent 32 for the size of a record. -/
def wideRecordBoot : List UInt8 :=
  [0xEB, 0x52, 0x90] ++ ntfsSignature ++ List.replicate 4 0x20 ++ [0, 2, 8] ++
    List.replicate 34 0 ++ [0, 0, 0x0C, 0, 0, 0, 0, 0] ++ List.replicate 8 0 ++ [0xE0] ++
    List.replicate 447 0

/-- A volume that is a boot sector and zeros. -/
def bootVolume (boot : List UInt8) : Volume where
  read position count :=
    .ok (if position = 0 then (boot ++ List.replicate count 0).take count
      else List.replicate count 0)
  length_read position count bytes h := by
    obtain rfl := Except.ok.inj h
    split <;> simp

theorem wide_record_overflows :
    wideRecordBoot.length = 512 ∧ readVolumeGeometry (bootVolume wideRecordBoot) = .error .panic ∧
      ¬ GeometryExact (bootVolume wideRecordBoot) := by
  have hpanic : readVolumeGeometry (bootVolume wideRecordBoot) = .error .panic := by decide +kernel
  exact ⟨by decide +kernel, hpanic, not_geometryExact_of_panic hpanic⟩

end Ntfs

end WinBlaze
