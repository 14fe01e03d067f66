import Mathlib.Algebra.Order.Floor.Div
import Mathlib.Data.List.Flatten
import Mathlib.Data.List.Pairwise
import Mathlib.Data.Nat.Bitwise
import WinBlaze.Lib.Blocks
import WinBlaze.Lib.FreeRuns
import WinBlaze.Scanner.Ntfs.Record

/-!
# Reading around free records

The bitmap of the file table has one bit for each record. Before the table is
read, its extents are cut down to the clusters worth reading: those with a
record in use, and short gaps between them. Clusters are numbered through the
extents, in stream order; their flags are a table in memory, so these numbers
are not machine words here.
-/

namespace WinBlaze

namespace Ntfs

/-- The record's bit is set; a bit behind the end of the bitmap is not. -/
def recordMarked (bitmap : List UInt8) (record : ℕ) : Bool :=
  bitmap[record / 8]?.any (fun byte ↦ byte &&& ((1 : UInt8) <<< .ofNat (record % 8)) ≠ 0)

def clusterOccupied (bitmap : List UInt8) (recordsPerCluster cluster : ℕ) : Bool :=
  (List.range recordsPerCluster).any
    (fun offset ↦ recordMarked bitmap (cluster * recordsPerCluster + offset))

def recordsPerCluster (bytesPerCluster : UInt64) : ℕ := bytesPerCluster.toNat / ntfsRecordSize

def totalClusters (dataExtents : List (UInt64 × UInt64)) (bytesPerCluster : UInt64) : ℕ :=
  (dataExtents.map (fun extent ↦ (extent.2 / bytesPerCluster).toNat)).sum

/-- Free runs from this many clusters on are skipped. -/
def skipMin (skipMinBytes bytesPerCluster : UInt64) : ℕ :=
  max (skipMinBytes.toNat ⌈/⌉ bytesPerCluster.toNat) 1

/-- Which clusters are read. -/
def keepFlags (dataExtents : List (UInt64 × UInt64)) (bitmap : List UInt8)
    (bytesPerCluster skipMinBytes : UInt64) : List Bool :=
  FreeRuns.keepShortRuns (clusterOccupied bitmap (recordsPerCluster bytesPerCluster))
    (totalClusters dataExtents bytesPerCluster) (skipMin skipMinBytes bytesPerCluster) 0
    (List.replicate (totalClusters dataExtents bytesPerCluster) false)

/-- One more range to read, joined to the last one if they touch. -/
def pushRange (result : List (UInt64 × UInt64)) (phys length : UInt64) : List (UInt64 × UInt64) :=
  match result.getLast? with
  | some last =>
      if last.1 + last.2 = phys then result.dropLast ++ [(last.1, last.2 + length)]
      else result ++ [(phys, length)]
  | none => result ++ [(phys, length)]

/-- The ranges so far and the number of the next cluster, after one cluster. -/
def keepCluster (keep : List Bool) (bytesPerCluster : UInt64)
    (state : List (UInt64 × UInt64) × ℕ) (phys : UInt64) : List (UInt64 × UInt64) × ℕ :=
  (if keep.getD state.2 true then pushRange state.1 phys bytesPerCluster else state.1, state.2 + 1)

def extentClusters (bytesPerCluster : UInt64) (extent : UInt64 × UInt64) : List UInt64 :=
  (List.range (extent.2 / bytesPerCluster).toNat).map
    (fun loc ↦ extent.1 + .ofNat loc * bytesPerCluster)

/-- The same after one extent; what is left behind its last cluster is read. -/
def keepExtent (keep : List Bool) (bytesPerCluster : UInt64)
    (state : List (UInt64 × UInt64) × ℕ) (extent : UInt64 × UInt64) :
    List (UInt64 × UInt64) × ℕ :=
  let state := (extentClusters bytesPerCluster extent).foldl (keepCluster keep bytesPerCluster) state
  let tail := extent.2 % bytesPerCluster
  if tail ≠ 0 then
    (pushRange state.1 (extent.1 + extent.2 / bytesPerCluster * bytesPerCluster) tail, state.2)
  else state

def mftKeepExtents (dataExtents : List (UInt64 × UInt64)) (bitmap : List UInt8)
    (bytesPerCluster skipMinBytes : UInt64) : List (UInt64 × UInt64) :=
  if recordsPerCluster bytesPerCluster = 0 then dataExtents
  else if totalClusters dataExtents bytesPerCluster = 0 then dataExtents
  else
    (dataExtents.foldl
      (keepExtent (keepFlags dataExtents bitmap bytesPerCluster skipMinBytes) bytesPerCluster)
      ([], 0)).1

/-- The bytes of a volume in these ranges, in order. -/
def bytesOf (ranges : List (UInt64 × UInt64)) : List ℕ :=
  ranges.flatMap (fun range ↦ List.range' range.1.toNat range.2.toNat)

/-- The bitmap has the record's bit, and it is set. -/
def BitSet (bitmap : List UInt8) (record : ℕ) : Prop :=
  ∃ byte, bitmap[record / 8]? = some byte ∧ byte.toNat.testBit (record % 8) = true

/-- The bitmap has the record's bit, and it is zero. -/
def BitClear (bitmap : List UInt8) (record : ℕ) : Prop :=
  ∃ byte, bitmap[record / 8]? = some byte ∧ byte.toNat.testBit (record % 8) = false

/-- The clusters that are read. -/
def keptClusters (dataExtents : List (UInt64 × UInt64)) (bitmap : List UInt8)
    (bytesPerCluster skipMinBytes : UInt64) : List ℕ :=
  (List.range (totalClusters dataExtents bytesPerCluster)).filter
    (fun cluster ↦ (keepFlags dataExtents bitmap bytesPerCluster skipMinBytes).getD cluster true)

/-- The records of the table that are read. -/
def keptRecords (dataExtents : List (UInt64 × UInt64)) (bitmap : List UInt8)
    (bytesPerCluster skipMinBytes : UInt64) : List ℕ :=
  (List.range (totalClusters dataExtents bytesPerCluster * recordsPerCluster bytesPerCluster)).filter
    (fun record ↦ (keepFlags dataExtents bitmap bytesPerCluster skipMinBytes).getD
      (record / recordsPerCluster bytesPerCluster) true)

example :
    mftKeepExtents [(1048576, 40 * 4096)]
      ([0xFF] ++ List.replicate 14 0 ++ List.replicate 5 0xFF) 4096 65536 =
      [(1048576, 2 * 4096), (1048576 + 30 * 4096, 10 * 4096)] := by
  decide +kernel

/-! ## Bits -/

theorem and_shiftLeft_ne_zero_iff (byte : UInt8) {k : ℕ} (hk : k < 8) :
    byte &&& ((1 : UInt8) <<< .ofNat k) ≠ 0 ↔ byte.toNat.testBit k = true := by
  have hall : ∀ j : Fin 8, ((1 : UInt8) <<< (.ofNat j : UInt8)).toNat = 2 ^ (j : ℕ) := by decide
  have hshift : ((1 : UInt8) <<< (.ofNat k : UInt8)).toNat = 2 ^ k := hall ⟨k, hk⟩
  rw [ne_eq, ← UInt8.toNat_inj, UInt8.toNat_and, hshift, Nat.and_two_pow]
  cases byte.toNat.testBit k <;> simp

theorem recordMarked_iff (bitmap : List UInt8) (record : ℕ) :
    recordMarked bitmap record = true ↔ BitSet bitmap record := by
  have hbit : record % 8 < 8 := Nat.mod_lt _ (by decide)
  rw [recordMarked, Option.any_eq_true, BitSet]
  simp only [decide_eq_true_eq, and_shiftLeft_ne_zero_iff _ hbit]

theorem clusterOccupied_iff (bitmap : List UInt8) {perCluster : ℕ} (hpos : 0 < perCluster)
    (cluster : ℕ) :
    clusterOccupied bitmap perCluster cluster = true ↔
      ∃ record, record / perCluster = cluster ∧ BitSet bitmap record := by
  rw [clusterOccupied, List.any_eq_true]
  constructor
  · rintro ⟨offset, hoffset, hmarked⟩
    refine ⟨cluster * perCluster + offset, ?_, (recordMarked_iff _ _).mp hmarked⟩
    rw [Nat.mul_comm, Nat.mul_add_div hpos, Nat.div_eq_of_lt (List.mem_range.mp hoffset),
      Nat.add_zero]
  · rintro ⟨record, rfl, hset⟩
    refine ⟨record % perCluster, List.mem_range.mpr (Nat.mod_lt _ hpos), ?_⟩
    rw [Nat.div_add_mod']
    exact (recordMarked_iff _ _).mpr hset

/-! ## Clusters of the extents -/

section Clusters

variable {bytesPerCluster : UInt64} {dataExtents : List (UInt64 × UInt64)}

/-- The bytes of one cluster. -/
def clusterBytes (bytesPerCluster phys : UInt64) : List ℕ :=
  List.range' phys.toNat bytesPerCluster.toNat

theorem toNat_extentCluster {extent : UInt64 × UInt64}
    (hend : extent.1.toNat + extent.2.toNat < 2 ^ 64) {loc : ℕ}
    (hloc : loc < (extent.2 / bytesPerCluster).toNat) :
    (extent.1 + .ofNat loc * bytesPerCluster).toNat =
        extent.1.toNat + loc * bytesPerCluster.toNat ∧
      extent.1.toNat + loc * bytesPerCluster.toNat + bytesPerCluster.toNat ≤
        extent.1.toNat + extent.2.toNat := by
  have hfits : (loc + 1) * bytesPerCluster.toNat ≤ extent.2.toNat := by
    rw [UInt64.toNat_div] at hloc
    exact (Nat.mul_le_mul_right _ hloc).trans (Nat.div_mul_le_self _ _)
  rw [Nat.succ_mul] at hfits
  have hlocBound : loc < 2 ^ 64 := hloc.trans (UInt64.toNat_lt _)
  rw [UInt64.toNat_add, UInt64.toNat_mul, UInt64.toNat_ofNat_of_lt' hlocBound,
    Nat.mod_eq_of_lt (by omega : loc * bytesPerCluster.toNat < 2 ^ 64), Nat.mod_eq_of_lt (by omega)]
  exact ⟨rfl, by omega⟩

theorem extentClusters_fit {extent : UInt64 × UInt64}
    (hend : extent.1.toNat + extent.2.toNat < 2 ^ 64) {phys : UInt64}
    (hphys : phys ∈ extentClusters bytesPerCluster extent) :
    phys.toNat + bytesPerCluster.toNat < 2 ^ 64 := by
  obtain ⟨loc, hloc, rfl⟩ := List.mem_map.mp hphys
  obtain ⟨hstart, hstop⟩ := toNat_extentCluster hend (List.mem_range.mp hloc)
  omega

/-- A whole number of clusters makes up the extent. -/
theorem flatMap_extentClusters {extent : UInt64 × UInt64}
    (hend : extent.1.toNat + extent.2.toNat < 2 ^ 64)
    (hwhole : bytesPerCluster.toNat ∣ extent.2.toNat) :
    (extentClusters bytesPerCluster extent).flatMap (clusterBytes bytesPerCluster) =
      List.range' extent.1.toNat extent.2.toNat := by
  have hlength : extent.2.toNat = (extent.2 / bytesPerCluster).toNat * bytesPerCluster.toNat := by
    rw [UInt64.toNat_div, Nat.div_mul_cancel hwhole]
  rw [hlength, Blocks.range'_mul, extentClusters, List.flatMap_map]
  refine List.flatMap_congr fun loc hloc ↦ ?_
  rw [clusterBytes, (toNat_extentCluster hend (List.mem_range.mp hloc)).1]

theorem length_extentClusters (bytesPerCluster : UInt64) (extent : UInt64 × UInt64) :
    (extentClusters bytesPerCluster extent).length = (extent.2 / bytesPerCluster).toNat := by
  simp [extentClusters]

theorem length_flatMap_extentClusters (dataExtents : List (UInt64 × UInt64))
    (bytesPerCluster : UInt64) :
    (dataExtents.flatMap (extentClusters bytesPerCluster)).length =
      totalClusters dataExtents bytesPerCluster := by
  simp [List.length_flatMap, totalClusters, length_extentClusters]

theorem bytesOf_eq_flatMap (hwhole : ∀ extent ∈ dataExtents, bytesPerCluster.toNat ∣ extent.2.toNat)
    (hend : ∀ extent ∈ dataExtents, extent.1.toNat + extent.2.toNat < 2 ^ 64) :
    bytesOf dataExtents = (dataExtents.flatMap (extentClusters bytesPerCluster)).flatMap
      (clusterBytes bytesPerCluster) := by
  rw [bytesOf, List.flatMap_assoc]
  exact List.flatMap_congr fun extent hmem ↦
    (flatMap_extentClusters (hend extent hmem) (hwhole extent hmem)).symm

theorem length_bytesOf (hwhole : ∀ extent ∈ dataExtents, bytesPerCluster.toNat ∣ extent.2.toNat) :
    (bytesOf dataExtents).length =
      totalClusters dataExtents bytesPerCluster * bytesPerCluster.toNat := by
  induction dataExtents with
  | nil => simp [bytesOf, totalClusters]
  | cons extent rest ih =>
      have hrest := ih fun other hother ↦ hwhole other (List.mem_cons_of_mem extent hother)
      have hhead := Nat.div_mul_cancel (hwhole extent List.mem_cons_self)
      rw [bytesOf, totalClusters] at hrest ⊢
      rw [List.flatMap_cons, List.length_append, hrest, List.length_range', List.map_cons,
        List.sum_cons, Nat.add_mul, UInt64.toNat_div, hhead]

end Clusters

/-! ## Ranges -/

/-- No range wraps around the address space. -/
def RangesFit (ranges : List (UInt64 × UInt64)) : Prop :=
  ∀ range ∈ ranges, range.1.toNat + range.2.toNat < 2 ^ 64

theorem bytesOf_append (front rest : List (UInt64 × UInt64)) :
    bytesOf (front ++ rest) = bytesOf front ++ bytesOf rest := by
  simp [bytesOf]

theorem pushRange_concat (front : List (UInt64 × UInt64)) (last : UInt64 × UInt64)
    (phys length : UInt64) :
    pushRange (front ++ [last]) phys length =
      if last.1 + last.2 = phys then front ++ [(last.1, last.2 + length)]
      else front ++ [last] ++ [(phys, length)] := by
  simp [pushRange]

/-- A pushed range adds its bytes at the end, joined or not. -/
theorem pushRange_spec {result : List (UInt64 × UInt64)} {phys length : UInt64}
    (hresult : RangesFit result) (hphys : phys.toNat + length.toNat < 2 ^ 64) :
    RangesFit (pushRange result phys length) ∧
      bytesOf (pushRange result phys length) =
        bytesOf result ++ List.range' phys.toNat length.toNat := by
  have hpushed : bytesOf [(phys, length)] = List.range' phys.toNat length.toNat := by
    simp [bytesOf]
  rcases List.eq_nil_or_concat result with rfl | ⟨front, last, rfl⟩
  · exact ⟨by simpa [pushRange, RangesFit] using hphys, hpushed⟩
  · rw [List.concat_eq_append] at hresult ⊢
    have hlast := hresult last (by simp)
    rw [pushRange_concat]
    by_cases htouch : last.1 + last.2 = phys
    · rw [if_pos htouch]
      have hstart : phys.toNat = last.1.toNat + last.2.toNat := by
        rw [← htouch, UInt64.toNat_add, Nat.mod_eq_of_lt hlast]
      have hlength : (last.2 + length).toNat = last.2.toNat + length.toNat := by
        rw [UInt64.toNat_add, Nat.mod_eq_of_lt (by omega)]
      constructor
      · intro range hrange
        rcases List.mem_append.mp hrange with hfront | hjoined
        · exact hresult range (List.mem_append_left _ hfront)
        · rw [List.mem_singleton.mp hjoined]
          simp only [hlength]
          omega
      · rw [bytesOf_append, bytesOf_append, List.append_assoc]
        congr 1
        simp only [bytesOf, List.flatMap_singleton]
        rw [hlength, hstart, List.range'_append_1]
    · rw [if_neg htouch]
      constructor
      · intro range hrange
        rcases List.mem_append.mp hrange with hold | hnew
        · exact hresult range hold
        · rw [List.mem_singleton.mp hnew]
          exact hphys
      · rw [bytesOf_append, hpushed]

/-! ## The pass over the clusters -/

/-- What the pass has read after the clusters in `starts`. -/
structure ClustersRead (keep : List Bool) (bytesPerCluster : UInt64) (starts : List UInt64)
    (state : List (UInt64 × UInt64) × ℕ) : Prop where
  next : state.2 = starts.length
  fit : RangesFit state.1
  bytes : bytesOf state.1 =
    ((List.range starts.length).filter (fun cluster ↦ keep.getD cluster true)).flatMap
      (Blocks.block bytesPerCluster.toNat (starts.flatMap (clusterBytes bytesPerCluster)))

section Pass

variable {keep : List Bool} {bytesPerCluster : UInt64}

theorem length_clusterBytes (bytesPerCluster phys : UInt64) :
    (clusterBytes bytesPerCluster phys).length = bytesPerCluster.toNat := by
  simp [clusterBytes]

theorem length_flatMap_clusterBytes (bytesPerCluster : UInt64) (starts : List UInt64) :
    (starts.flatMap (clusterBytes bytesPerCluster)).length =
      starts.length * bytesPerCluster.toNat := by
  simp [List.length_flatMap, length_clusterBytes]

theorem ClustersRead.keepCluster {starts : List UInt64} {state : List (UInt64 × UInt64) × ℕ}
    (h : ClustersRead keep bytesPerCluster starts state) {phys : UInt64}
    (hphys : phys.toNat + bytesPerCluster.toNat < 2 ^ 64) :
    ClustersRead keep bytesPerCluster (starts ++ [phys])
      (keepCluster keep bytesPerCluster state phys) := by
  have hold : ((List.range starts.length).filter (fun cluster ↦ keep.getD cluster true)).flatMap
        (Blocks.block bytesPerCluster.toNat
          ((starts ++ [phys]).flatMap (clusterBytes bytesPerCluster))) =
      bytesOf state.1 := by
    rw [h.bytes, List.flatMap_append]
    refine List.flatMap_congr fun cluster hcluster ↦ ?_
    exact Blocks.block_append_left (length_flatMap_clusterBytes _ _).ge _
      (List.mem_range.mp (List.mem_of_mem_filter hcluster))
  have hnew : Blocks.block bytesPerCluster.toNat
        ((starts ++ [phys]).flatMap (clusterBytes bytesPerCluster)) starts.length =
      clusterBytes bytesPerCluster phys :=
    Blocks.block_flatMap (fun other _ ↦ length_clusterBytes _ other) (by simp)
  have hpush := pushRange_spec h.fit hphys
  refine ⟨by simp [Ntfs.keepCluster, h.next], ?_, ?_⟩
  · rw [Ntfs.keepCluster]
    split
    · exact hpush.1
    · exact h.fit
  · rw [List.length_append, List.length_singleton, List.range_succ, List.filter_append,
      List.flatMap_append, hold, Ntfs.keepCluster, h.next]
    cases hkeep : keep.getD starts.length true with
    | true =>
        have hfilter : [starts.length].filter (fun cluster ↦ keep.getD cluster true) =
            [starts.length] := by
          simpa using hkeep
        rw [if_pos rfl, hpush.2, hfilter, List.flatMap_singleton, hnew, clusterBytes]
    | false =>
        have hfilter : [starts.length].filter (fun cluster ↦ keep.getD cluster true) = [] := by
          simpa using hkeep
        rw [if_neg Bool.false_ne_true, hfilter, List.flatMap_nil, List.append_nil]

theorem clustersRead_foldl (keep : List Bool) {starts : List UInt64}
    (hfit : ∀ phys ∈ starts, phys.toNat + bytesPerCluster.toNat < 2 ^ 64) :
    ClustersRead keep bytesPerCluster starts
      (starts.foldl (Ntfs.keepCluster keep bytesPerCluster) ([], 0)) := by
  induction starts using List.reverseRecOn with
  | nil => exact ⟨rfl, by simp [RangesFit], rfl⟩
  | append_singleton front phys ih =>
      rw [List.foldl_append]
      exact (ih fun other hother ↦ hfit other (List.mem_append_left _ hother)).keepCluster
        (hfit phys (by simp))

/-- Whole extents have no tail: the pass is over their clusters. -/
theorem foldl_keepExtent {dataExtents : List (UInt64 × UInt64)}
    (hwhole : ∀ extent ∈ dataExtents, bytesPerCluster.toNat ∣ extent.2.toNat)
    (state : List (UInt64 × UInt64) × ℕ) :
    dataExtents.foldl (keepExtent keep bytesPerCluster) state =
      (dataExtents.flatMap (extentClusters bytesPerCluster)).foldl
        (Ntfs.keepCluster keep bytesPerCluster) state := by
  rw [List.foldl_flatMap]
  refine List.foldl_ext _ _ _ fun state extent hmem ↦ ?_
  have htail : extent.2 % bytesPerCluster = 0 := by
    rw [← UInt64.toNat_inj, UInt64.toNat_mod]
    exact Nat.mod_eq_zero_of_dvd (hwhole extent hmem)
  simp [keepExtent, htail]

end Pass

/-! ## What is read -/

section Kept

variable {dataExtents : List (UInt64 × UInt64)} {bitmap : List UInt8}
  {bytesPerCluster skipMinBytes : UInt64}

theorem keepFlags_iff {cluster : ℕ} (hcluster : cluster < totalClusters dataExtents bytesPerCluster) :
    (keepFlags dataExtents bitmap bytesPerCluster skipMinBytes).getD cluster true = true ↔
      ¬FreeRuns.InLongRun (clusterOccupied bitmap (recordsPerCluster bytesPerCluster))
        (totalClusters dataExtents bytesPerCluster) (skipMin skipMinBytes bytesPerCluster)
        cluster := by
  rw [← FreeRuns.keepShortRuns_iff hcluster, ← keepFlags]
  have hlength : cluster < (keepFlags dataExtents bitmap bytesPerCluster skipMinBytes).length := by
    rwa [keepFlags, FreeRuns.length_keepShortRuns]
  rw [List.getD_eq_getElem?_getD, List.getElem?_eq_getElem hlength]
  simp

theorem bytesOf_mftKeepExtents_of_pos (hrecords : recordsPerCluster bytesPerCluster ≠ 0)
    (hwhole : ∀ extent ∈ dataExtents, bytesPerCluster.toNat ∣ extent.2.toNat)
    (hend : RangesFit dataExtents) :
    bytesOf (mftKeepExtents dataExtents bitmap bytesPerCluster skipMinBytes) =
      (keptClusters dataExtents bitmap bytesPerCluster skipMinBytes).flatMap
        (Blocks.block bytesPerCluster.toNat (bytesOf dataExtents)) := by
  rw [mftKeepExtents, if_neg hrecords]
  by_cases htotal : totalClusters dataExtents bytesPerCluster = 0
  · have hlength := length_bytesOf hwhole
    rw [htotal, Nat.zero_mul] at hlength
    rw [if_pos htotal, keptClusters, htotal, List.length_eq_zero_iff.mp hlength]
    rfl
  · have hfit : ∀ phys ∈ dataExtents.flatMap (extentClusters bytesPerCluster),
        phys.toNat + bytesPerCluster.toNat < 2 ^ 64 := by
      intro phys hphys
      obtain ⟨extent, hmem, hphys⟩ := List.mem_flatMap.mp hphys
      exact extentClusters_fit (hend extent hmem) hphys
    have hread := clustersRead_foldl
      (keepFlags dataExtents bitmap bytesPerCluster skipMinBytes) hfit
    rw [if_neg htotal, foldl_keepExtent hwhole, hread.bytes, length_flatMap_extentClusters,
      ← bytesOf_eq_flatMap hwhole hend, keptClusters]

theorem bytesOf_mftKeepExtents (bitmap : List UInt8) (skipMinBytes : UInt64)
    (hbytes : ntfsRecordSize ∣ bytesPerCluster.toNat)
    (hwhole : ∀ extent ∈ dataExtents, bytesPerCluster.toNat ∣ extent.2.toNat)
    (hend : RangesFit dataExtents) :
    bytesOf (mftKeepExtents dataExtents bitmap bytesPerCluster skipMinBytes) =
      (keptClusters dataExtents bitmap bytesPerCluster skipMinBytes).flatMap
        (Blocks.block bytesPerCluster.toNat (bytesOf dataExtents)) := by
  by_cases hrecords : recordsPerCluster bytesPerCluster = 0
  · have hzero : bytesPerCluster.toNat = 0 := by
      rw [← Nat.div_mul_cancel hbytes, ← recordsPerCluster, hrecords, Nat.zero_mul]
    have hnil : bytesOf dataExtents = [] := by
      rw [← List.length_eq_zero_iff, length_bytesOf hwhole, hzero, Nat.mul_zero]
    rw [mftKeepExtents, if_pos hrecords, hnil]
    simp [Blocks.block]
  · exact bytesOf_mftKeepExtents_of_pos hrecords hwhole hend

/-- In records: a cluster is read or skipped with all its records. -/
theorem bytesOf_mftKeepExtents_records (hbytes : ntfsRecordSize ∣ bytesPerCluster.toNat)
    (hwhole : ∀ extent ∈ dataExtents, bytesPerCluster.toNat ∣ extent.2.toNat)
    (hend : RangesFit dataExtents) :
    bytesOf (mftKeepExtents dataExtents bitmap bytesPerCluster skipMinBytes) =
      (keptRecords dataExtents bitmap bytesPerCluster skipMinBytes).flatMap
        (Blocks.block ntfsRecordSize (bytesOf dataExtents)) := by
  have hsize : bytesPerCluster.toNat = recordsPerCluster bytesPerCluster * ntfsRecordSize := by
    rw [recordsPerCluster, Nat.div_mul_cancel hbytes]
  have hlength := length_bytesOf hwhole
  rw [hsize] at hlength
  rw [bytesOf_mftKeepExtents bitmap skipMinBytes hbytes hwhole hend, hsize]
  exact Blocks.flatMap_filter_block hlength.ge _

theorem mem_keptClusters {cluster : ℕ} :
    cluster ∈ keptClusters dataExtents bitmap bytesPerCluster skipMinBytes ↔
      cluster < totalClusters dataExtents bytesPerCluster ∧
        ¬FreeRuns.InLongRun (clusterOccupied bitmap (recordsPerCluster bytesPerCluster))
          (totalClusters dataExtents bytesPerCluster) (skipMin skipMinBytes bytesPerCluster)
          cluster := by
  rw [keptClusters, List.mem_filter, List.mem_range]
  exact and_congr_right fun hcluster ↦ keepFlags_iff hcluster

theorem mem_keptRecords {record : ℕ} :
    record ∈ keptRecords dataExtents bitmap bytesPerCluster skipMinBytes ↔
      record < totalClusters dataExtents bytesPerCluster * recordsPerCluster bytesPerCluster ∧
        ¬FreeRuns.InLongRun (clusterOccupied bitmap (recordsPerCluster bytesPerCluster))
          (totalClusters dataExtents bytesPerCluster) (skipMin skipMinBytes bytesPerCluster)
          (record / recordsPerCluster bytesPerCluster) := by
  rw [keptRecords, List.mem_filter, List.mem_range]
  refine and_congr_right fun hrecord ↦ keepFlags_iff ?_
  exact Nat.div_lt_of_lt_mul (by rwa [Nat.mul_comm])

theorem mem_keptRecords_of_bitSet {record : ℕ}
    (hrecord : record <
      totalClusters dataExtents bytesPerCluster * recordsPerCluster bytesPerCluster)
    (hset : BitSet bitmap record) :
    record ∈ keptRecords dataExtents bitmap bytesPerCluster skipMinBytes := by
  have hpos : 0 < recordsPerCluster bytesPerCluster := by
    by_contra hzero
    rw [Nat.eq_zero_of_not_pos hzero, Nat.mul_zero] at hrecord
    cases hrecord
  exact mem_keptRecords.mpr ⟨hrecord, FreeRuns.not_inLongRun_of_occupied
    ((clusterOccupied_iff bitmap hpos _).mpr ⟨record, rfl, hset⟩)⟩

/-- Of the clusters of the extents exactly those in long free runs are gone,
and with them whole records, none of them in use. -/
structure CutsLongFreeRuns (dataExtents : List (UInt64 × UInt64)) (bitmap : List UInt8)
    (bytesPerCluster skipMinBytes : UInt64) (kept : List (UInt64 × UInt64))
    (clusters records : List ℕ) : Prop where
  input : bytesOf dataExtents = (List.range (totalClusters dataExtents bytesPerCluster)).flatMap
    (Blocks.block bytesPerCluster.toNat (bytesOf dataExtents))
  clusters_sorted : clusters.Pairwise (· < ·)
  mem_clusters : ∀ cluster, cluster ∈ clusters ↔
    cluster < totalClusters dataExtents bytesPerCluster ∧
      ¬FreeRuns.InLongRun (clusterOccupied bitmap (recordsPerCluster bytesPerCluster))
        (totalClusters dataExtents bytesPerCluster) (skipMin skipMinBytes bytesPerCluster) cluster
  clusters_bytes : bytesOf kept =
    clusters.flatMap (Blocks.block bytesPerCluster.toNat (bytesOf dataExtents))
  sublist : (bytesOf kept).Sublist (bytesOf dataExtents)
  records_sorted : records.Pairwise (· < ·)
  mem_records : ∀ record, record ∈ records ↔
    record < totalClusters dataExtents bytesPerCluster * recordsPerCluster bytesPerCluster ∧
      record / recordsPerCluster bytesPerCluster ∈ clusters
  records_bytes : bytesOf kept =
    records.flatMap (Blocks.block ntfsRecordSize (bytesOf dataExtents))
  marked : ∀ record <
    totalClusters dataExtents bytesPerCluster * recordsPerCluster bytesPerCluster,
    BitSet bitmap record → record ∈ records

theorem mftKeepExtents_cutsLongFreeRuns (dataExtents : List (UInt64 × UInt64))
    (bitmap : List UInt8) (bytesPerCluster skipMinBytes : UInt64)
    (hbytes : ntfsRecordSize ∣ bytesPerCluster.toNat)
    (hwhole : ∀ extent ∈ dataExtents, bytesPerCluster.toNat ∣ extent.2.toNat)
    (hend : RangesFit dataExtents) :
    ∃ clusters records, CutsLongFreeRuns dataExtents bitmap bytesPerCluster skipMinBytes
      (mftKeepExtents dataExtents bitmap bytesPerCluster skipMinBytes) clusters records := by
  have hinput := (Blocks.flatMap_block (length_bytesOf hwhole)).symm
  have hclusters := bytesOf_mftKeepExtents bitmap skipMinBytes hbytes hwhole hend
  have hsublist : (keptClusters dataExtents bitmap bytesPerCluster skipMinBytes).Sublist
      (List.range (totalClusters dataExtents bytesPerCluster)) := List.filter_sublist
  refine ⟨keptClusters dataExtents bitmap bytesPerCluster skipMinBytes,
    keptRecords dataExtents bitmap bytesPerCluster skipMinBytes, ?_⟩
  constructor
  · exact hinput
  · exact List.pairwise_lt_range.filter _
  · exact fun cluster ↦ mem_keptClusters
  · exact hclusters
  · have hbytesSublist := hsublist.flatMap
      (Blocks.block bytesPerCluster.toNat (bytesOf dataExtents))
    rwa [← hclusters, ← hinput] at hbytesSublist
  · exact List.pairwise_lt_range.filter _
  · intro record
    rw [mem_keptRecords, mem_keptClusters]
    refine and_congr_right fun hrecord ↦ (and_iff_right ?_).symm
    exact Nat.div_lt_of_lt_mul (by rwa [Nat.mul_comm])
  · exact bytesOf_mftKeepExtents_records hbytes hwhole hend
  · exact fun record hrecord hset ↦ mem_keptRecords_of_bitSet hrecord hset

/-- Forty clusters in two fragments. -/
def sampleExtents : List (UInt64 × UInt64) := [(1048576, 20 * 4096), (4096, 20 * 4096)]

/-- The records of the first two and the last ten of forty clusters. -/
def sampleBitmap : List UInt8 := [0xFF] ++ List.replicate 14 0 ++ List.replicate 5 0xFF

theorem mftKeepExtents_sample :
    ∃ clusters records, CutsLongFreeRuns sampleExtents sampleBitmap 4096 65536
      (mftKeepExtents sampleExtents sampleBitmap 4096 65536) clusters records :=
  mftKeepExtents_cutsLongFreeRuns sampleExtents sampleBitmap 4096 65536 (by decide) (by simp [sampleExtents])
    (by simp [RangesFit, sampleExtents])

end Kept

end Ntfs

end WinBlaze
