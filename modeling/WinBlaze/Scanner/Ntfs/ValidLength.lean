import WinBlaze.Lib.Saturating
import WinBlaze.Scanner.Ntfs.KeepExtents

/-!
# The valid length of the file table

The file table may have more clusters than were ever written. Its extents are
cut at the valid length, rounded up to a cluster: whole extents as long as they
fit, and the first that does not fit shortened.
-/

namespace WinBlaze

namespace Ntfs

open Saturating

/-- `u64::div_ceil` -/
def divCeil (a b : UInt64) : UInt64 := if a % b = 0 then a / b else a / b + 1

def u64Add (a b : UInt64) : Parse UInt64 :=
  if a.toNat + b.toNat < 2 ^ 64 then .ok (a + b) else .error .panic

/-- The loop over the extents from `index` on: the extents it leaves, and how
many of them to keep. -/
def keepWithin (cap : UInt64) (extents : List (UInt64 × UInt64)) :
    List (UInt64 × UInt64) → ℕ → UInt64 → ℕ → Parse (List (UInt64 × UInt64) × ℕ)
  | [], _, _, keep => pure (extents, keep)
  | extent :: rest, index, cumulative, keep =>
      let remaining := satSub cap cumulative
      if remaining = 0 then pure (extents, keep)
      else if extent.2 ≤ remaining then do
        let cumulative ← u64Add cumulative extent.2
        keepWithin cap extents rest (index + 1) cumulative (index + 1)
      else pure (extents.set index (extent.1, remaining), index + 1)

def trimExtentsToValidLength (extents : List (UInt64 × UInt64)) (validLen cluster : UInt64) :
    Parse (List (UInt64 × UInt64)) :=
  if cluster = 0 ∨ validLen = 0 ∨ validLen = .ofNat (2 ^ 64 - 1) then pure extents
  else do
    let kept ← keepWithin (satMul (divCeil validLen cluster) cluster) extents extents 0 0 0
    -- A valid length must not defeat the scan.
    if 0 < kept.2 then pure (kept.1.take kept.2) else pure kept.1

/-- The extents of the first bytes. -/
structure CutAt (count : ℕ) (extents cut : List (UInt64 × UInt64)) : Prop where
  bytesOf_eq : bytesOf cut = (bytesOf extents).take count
  mem_of_empty : ∀ extent ∈ cut, extent.2 = 0 → extent ∈ extents

/-! ## Rounding up -/

theorem toNat_divCeil {a b : UInt64} (hb : b ≠ 0) :
    (divCeil a b).toNat = (a.toNat + b.toNat - 1) / b.toNat := by
  have hpos : 0 < b.toNat := Nat.pos_of_ne_zero fun h ↦ hb (UInt64.toNat_inj.mp h)
  have hsplit := Nat.div_add_mod a.toNat b.toNat
  have hmod := Nat.mod_lt a.toNat hpos
  have hlt := a.toNat_lt
  have hceil : (a.toNat + b.toNat - 1) / b.toNat =
      a.toNat / b.toNat + if a.toNat % b.toNat = 0 then 0 else 1 := by
    rw [show a.toNat + b.toNat - 1 =
      (a.toNat % b.toNat + b.toNat - 1) + b.toNat * (a.toNat / b.toNat) by omega,
      Nat.add_mul_div_left _ _ hpos, Nat.add_comm]
    congr 1
    split
    case isTrue hzero => exact Nat.div_eq_of_lt (by omega)
    case isFalse hrest => exact Nat.div_eq_of_lt_le (by omega) (by omega)
  have hzero : a % b = 0 ↔ a.toNat % b.toNat = 0 := by
    rw [← UInt64.toNat_inj, UInt64.toNat_mod, UInt64.toNat_zero]
  rw [hceil, divCeil]
  by_cases h : a % b = 0
  · rw [if_pos h, if_pos (hzero.mp h), UInt64.toNat_div, Nat.add_zero]
  · have hrest := mt hzero.mpr h
    have hle : a.toNat / b.toNat + 1 < 2 ^ 64 := by
      have hself : a.toNat / b.toNat ≤ b.toNat * (a.toNat / b.toNat) := Nat.le_mul_of_pos_left _ hpos
      omega
    rw [if_neg h, if_neg hrest, UInt64.toNat_add, UInt64.toNat_div, UInt64.toNat_one,
      Nat.mod_eq_of_lt hle]

/-! ## The loop -/

theorem length_bytesOf_sum (extents : List (UInt64 × UInt64)) :
    (bytesOf extents).length = (extents.map (fun extent ↦ extent.2.toNat)).sum := by
  simp [bytesOf, List.length_flatMap]

theorem u64Add_eq {a b : UInt64} (h : a.toNat + b.toNat < 2 ^ 64) : u64Add a b = .ok (a + b) :=
  if_pos h

/-- The first extents fill the front of the stream. -/
theorem cutAt_of_length {done rest : List (UInt64 × UInt64)} :
    CutAt (bytesOf done).length (done ++ rest) done where
  bytesOf_eq := by rw [bytesOf_append, List.take_left]
  mem_of_empty extent hmem _ := List.mem_append_left rest hmem

theorem bytesOf_singleton (extent : UInt64 × UInt64) :
    bytesOf [extent] = List.range' extent.1.toNat extent.2.toNat := by
  simp [bytesOf]

/-- An extent cut short ends the front of the stream. -/
theorem cutAt_of_cut {done rest : List (UInt64 × UInt64)} {extent : UInt64 × UInt64}
    {remaining : UInt64} (hpos : remaining ≠ 0) (hle : remaining.toNat ≤ extent.2.toNat) :
    CutAt ((bytesOf done).length + remaining.toNat) (done ++ extent :: rest)
      (done ++ [(extent.1, remaining)]) where
  bytesOf_eq := by
    have hextent : List.range' extent.1.toNat extent.2.toNat =
        List.range' extent.1.toNat remaining.toNat ++
          List.range' (extent.1.toNat + remaining.toNat) (extent.2.toNat - remaining.toNat) := by
      rw [List.range'_append_1, Nat.add_sub_cancel' hle]
    have hfront : bytesOf (done ++ extent :: rest) =
        (bytesOf done ++ bytesOf [(extent.1, remaining)]) ++
          (List.range' (extent.1.toNat + remaining.toNat) (extent.2.toNat - remaining.toNat) ++
            bytesOf rest) := by
      rw [bytesOf_append, bytesOf_singleton, ← List.singleton_append, bytesOf_append,
        bytesOf_singleton, hextent]
      simp only [List.append_assoc]
    rw [hfront, bytesOf_append, List.take_left' (by simp [bytesOf_singleton])]
  mem_of_empty other hmem hempty := by
    rcases List.mem_append.mp hmem with hdone | hcut
    · exact List.mem_append_left _ hdone
    · obtain rfl := List.mem_singleton.mp hcut
      exact (hpos hempty).elim

/-- When `done` is kept whole, the rest is kept as far as the cap allows. -/
theorem keepWithin_spec (cap : UInt64) (done rest : List (UInt64 × UInt64)) {cumulative : UInt64}
    (hdone : cumulative.toNat = (bytesOf done).length) (hle : cumulative.toNat ≤ cap.toNat) :
    ∃ left keep, keepWithin cap (done ++ rest) rest done.length cumulative done.length =
        .ok (left, keep) ∧
      CutAt cap.toNat (done ++ rest) (left.take keep) ∧
      (cap ≠ 0 → keep = 0 → left = []) := by
  induction rest generalizing done cumulative with
  | nil =>
      refine ⟨done ++ [], done.length, rfl, ⟨?_, ?_⟩, fun _ hkeep ↦ ?_⟩
      · rw [List.append_nil, List.take_length, List.take_of_length_le (by omega)]
      · rw [List.append_nil, List.take_length]
        exact fun extent hmem _ ↦ hmem
      · rw [List.append_nil]
        exact List.length_eq_zero_iff.mp hkeep
  | cons extent rest ih =>
      have hremaining := toNat_satSub cap cumulative
      unfold keepWithin
      dsimp only
      by_cases hzero : satSub cap cumulative = 0
      · rw [hzero, UInt64.toNat_zero] at hremaining
        have hcap : cap.toNat = (bytesOf done).length := by omega
        rw [if_pos hzero]
        refine ⟨done ++ extent :: rest, done.length, rfl, ?_, fun hcap' hkeep ↦ ?_⟩
        · rw [List.take_left, hcap]
          exact cutAt_of_length
        · obtain rfl := List.length_eq_zero_iff.mp hkeep
          exact (hcap' (UInt64.toNat_inj.mp hcap)).elim
      · rw [if_neg hzero]
        by_cases hwhole : extent.2 ≤ satSub cap cumulative
        · have hwhole' := UInt64.le_iff_toNat_le.mp hwhole
          have hcap := cap.toNat_lt
          have hsum : (cumulative + extent.2).toNat = cumulative.toNat + extent.2.toNat := by
            rw [UInt64.toNat_add, Nat.mod_eq_of_lt (by omega)]
          have hnext : (bytesOf (done ++ [extent])).length = (bytesOf done).length + extent.2.toNat := by
            rw [bytesOf_append, List.length_append, bytesOf_singleton, List.length_range']
          have hrest := ih (done ++ [extent]) (hsum.trans (by omega)) (by omega)
          rw [List.append_assoc, List.singleton_append, List.length_append, List.length_singleton]
            at hrest
          rw [if_pos hwhole, u64Add_eq (by omega), Parse.ok_bind]
          exact hrest
        · rw [UInt64.le_iff_toNat_le] at hwhole
          rw [if_neg (by rwa [UInt64.le_iff_toNat_le])]
          refine ⟨_, _, rfl, ?_, fun _ hkeep ↦ by omega⟩
          have hset : (done ++ extent :: rest).set done.length (extent.1, satSub cap cumulative) =
              (done ++ [(extent.1, satSub cap cumulative)]) ++ rest := by
            simp
          have hcap : cap.toNat = (bytesOf done).length + (satSub cap cumulative).toNat := by omega
          rw [hset, List.take_left' (by simp), hcap]
          exact cutAt_of_cut hzero (by omega)

/-! ## The trimmed extents -/

/-- The valid length in whole clusters. -/
def roundedLength (validLen cluster : UInt64) : ℕ :=
  (validLen.toNat + cluster.toNat - 1) / cluster.toNat * cluster.toNat

theorem le_roundedLength (validLen : UInt64) {cluster : UInt64} (hcluster : cluster ≠ 0) :
    validLen.toNat ≤ roundedLength validLen cluster := by
  have hpos : 0 < cluster.toNat := Nat.pos_of_ne_zero fun h ↦ hcluster (UInt64.toNat_inj.mp h)
  have hsplit := Nat.div_add_mod (validLen.toNat + cluster.toNat - 1) cluster.toNat
  have hmod := Nat.mod_lt (validLen.toNat + cluster.toNat - 1) hpos
  rw [Nat.mul_comm] at hsplit
  unfold roundedLength
  omega

theorem toNat_cap (validLen : UInt64) {cluster : UInt64} (hcluster : cluster ≠ 0) :
    (satMul (divCeil validLen cluster) cluster).toNat =
      min (roundedLength validLen cluster) maxValue := by
  rw [toNat_satMul, toNat_divCeil hcluster, roundedLength]

/-- What is left are the extents of the first bytes, as many as the valid length
takes in whole clusters; nothing is cut when the valid length is unknown. -/
theorem trimExtentsToValidLength_cuts {extents : List (UInt64 × UInt64)} {cluster : UInt64}
    (htotal : (extents.map (fun extent ↦ extent.2.toNat)).sum < 2 ^ 64) (hcluster : cluster ≠ 0)
    (validLen : UInt64) :
    ∃ trimmed, trimExtentsToValidLength extents validLen cluster = .ok trimmed ∧
      (validLen = 0 ∨ validLen = .ofNat (2 ^ 64 - 1) → trimmed = extents) ∧
      (¬(validLen = 0 ∨ validLen = .ofNat (2 ^ 64 - 1)) →
        CutAt (min (bytesOf extents).length (roundedLength validLen cluster)) extents trimmed) := by
  unfold trimExtentsToValidLength
  by_cases hunknown : validLen = 0 ∨ validLen = .ofNat (2 ^ 64 - 1)
  · rw [if_pos (Or.inr hunknown)]
    exact ⟨extents, rfl, fun _ ↦ rfl, fun h ↦ (h hunknown).elim⟩
  · rw [if_neg (not_or.mpr ⟨hcluster, hunknown⟩)]
    have hcap := toNat_cap validLen hcluster
    have hrounded := le_roundedLength validLen hcluster
    have hvalid : validLen.toNat ≠ 0 := fun h ↦ hunknown (Or.inl (UInt64.toNat_inj.mp h))
    have hlength := length_bytesOf_sum extents
    have hstart : (0 : UInt64).toNat = (bytesOf []).length := rfl
    obtain ⟨left, keep, hkept, hcut, hempty⟩ := keepWithin_spec
      (satMul (divCeil validLen cluster) cluster) [] extents hstart (Nat.zero_le _)
    have hpos : satMul (divCeil validLen cluster) cluster ≠ 0 := fun h ↦ by
      rw [h, UInt64.toNat_zero] at hcap
      unfold maxValue at hcap
      omega
    have hcut' : CutAt (min (bytesOf extents).length (roundedLength validLen cluster)) extents
        (left.take keep) := by
      refine ⟨hcut.bytesOf_eq.trans ?_, hcut.mem_of_empty⟩
      rw [List.nil_append, List.take_eq_take_iff, hcap]
      unfold maxValue
      omega
    rw [List.nil_append, List.length_nil] at hkept
    rw [hkept, Parse.ok_bind]
    dsimp only
    split
    case isTrue => exact ⟨_, rfl, fun h ↦ (hunknown h).elim, fun _ ↦ hcut'⟩
    case isFalse hkeep =>
      obtain rfl := hempty hpos (by omega)
      rw [List.take_nil] at hcut'
      exact ⟨_, rfl, fun h ↦ (hunknown h).elim, fun _ ↦ hcut'⟩

/-- Two extents of four clusters, of which five and a half are valid. -/
theorem trimExtentsToValidLength_cuts_sample :
    ∃ trimmed, trimExtentsToValidLength [(4096, 16384), (65536, 16384)] 22528 4096 = .ok trimmed ∧
      ((22528 : UInt64) = 0 ∨ (22528 : UInt64) = .ofNat (2 ^ 64 - 1) →
        trimmed = [(4096, 16384), (65536, 16384)]) ∧
      (¬((22528 : UInt64) = 0 ∨ (22528 : UInt64) = .ofNat (2 ^ 64 - 1)) →
        CutAt (min (bytesOf [(4096, 16384), (65536, 16384)]).length (roundedLength 22528 4096))
          [(4096, 16384), (65536, 16384)] trimmed) :=
  trimExtentsToValidLength_cuts (by decide) (by decide) 22528

end Ntfs

end WinBlaze
