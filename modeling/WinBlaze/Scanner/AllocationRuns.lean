import Mathlib.Data.List.Nodup
import WinBlaze.Lib.FirstClaims
import WinBlaze.Lib.Saturating
import WinBlaze.Scanner.Allocation

/-!
# The tracker is a set

Whatever windows were made, moved or grown, a set of identities contains exactly
the identities inserted. So the tracker grants the first claim of every
identity, alone and behind its 64 locks.
-/

namespace WinBlaze

/-! ## What a set contains -/

/-- The window starts at a multiple of 64 and ends with the numbers at the latest. -/
structure DenseIdentities.Wf (dense : DenseIdentities) : Prop where
  aligned : 64 ∣ dense.first.toNat
  nonempty : 0 < dense.words.length
  small : dense.words.length ≤ 131072
  bound : dense.first.toNat + 64 * dense.words.length ≤ 2 ^ 64

/-- The file's bit in the window is set. -/
def DenseIdentities.Contains (dense : DenseIdentities) (file : UInt64) : Prop :=
  ∃ offset, BitWindow.offset? dense.first.toNat dense.words.length file.toNat = some offset ∧
    BitWindow.testBit dense.words offset = true

namespace NarrowIdentities

def Contains (identities : NarrowIdentities) (file : UInt64) : Prop :=
  (∃ dense, identities.dense = some dense ∧ dense.Contains file) ∨ file ∈ identities.sparse

/-- No identity is in the hash set twice, or in it and in reach of the window. -/
structure Wf (identities : NarrowIdentities) : Prop where
  nodup : identities.sparse.Nodup
  dense : ∀ dense, identities.dense = some dense → dense.Wf
  apart : ∀ dense, identities.dense = some dense → ∀ file ∈ identities.sparse,
    BitWindow.offset? dense.first.toNat dense.words.length file.toNat = none

theorem wf_default : Wf {} := ⟨List.nodup_nil, fun _ h ↦ (nomatch h), fun _ h ↦ nomatch h⟩

theorem not_contains_default (file : UInt64) : ¬Contains {} file := by
  rintro (⟨dense, hdense, -⟩ | hmem)
  · cases hdense
  · cases hmem

end NarrowIdentities

/-! ## Moving into a window -/

section Rebuild

variable {first : UInt64} {words : List UInt64}

theorem retainStep_of_some {file : UInt64} {offset count : ℕ} {kept : List UInt64}
    (h : BitWindow.offset? first.toNat words.length file.toNat = some offset) :
    retainStep first (words, count, kept) file =
      (BitWindow.setBit words offset, count + 1, kept) := by
  unfold retainStep
  simp only [h]

theorem retainStep_of_none {file : UInt64} {count : ℕ} {kept : List UInt64}
    (h : BitWindow.offset? first.toNat words.length file.toNat = none) :
    retainStep first (words, count, kept) file = (words, count, kept ++ [file]) := by
  unfold retainStep
  simp only [h]

/-- The files in reach become bits, the others are kept. -/
theorem foldl_retainStep (first : UInt64) (files : List UInt64) (words : List UInt64) (count : ℕ)
    (kept : List UInt64) :
    (files.foldl (retainStep first) (words, count, kept)).1.length = words.length ∧
      (∀ i, BitWindow.testBit (files.foldl (retainStep first) (words, count, kept)).1 i = true ↔
        BitWindow.testBit words i = true ∨
          ∃ file ∈ files, BitWindow.offset? first.toNat words.length file.toNat = some i) ∧
      (files.foldl (retainStep first) (words, count, kept)).2.2 =
        kept ++ files.filter
          (fun file ↦ BitWindow.offset? first.toNat words.length file.toNat = none) := by
  induction files generalizing words count kept with
  | nil => simp
  | cons file rest ih =>
      rw [List.foldl_cons]
      cases hoffset : BitWindow.offset? first.toNat words.length file.toNat with
      | none =>
          rw [retainStep_of_none hoffset]
          obtain ⟨hlength, hbits, hkept⟩ := ih words count (kept ++ [file])
          refine ⟨hlength, fun i ↦ ?_, ?_⟩
          · rw [hbits i]
            simp [hoffset]
          · rw [hkept]
            simp [hoffset]
      | some offset =>
          have hin := BitWindow.lt_of_offset? hoffset
          rw [retainStep_of_some hoffset]
          obtain ⟨hlength, hbits, hkept⟩ := ih (BitWindow.setBit words offset) (count + 1) kept
          rw [BitWindow.length_setBit] at hlength hbits hkept
          refine ⟨hlength, fun i ↦ ?_, ?_⟩
          · rw [hbits i, BitWindow.testBit_setBit_iff hin]
            simp only [List.mem_cons, exists_eq_or_imp, hoffset, Option.some.injEq]
            rw [or_assoc, or_left_comm, eq_comm (a := i)]
          · rw [hkept]
            simp [hoffset]

/-- The bits of the old window, at their places in the new one. -/
theorem retainedWords_spec {size : ℕ} {dense : Option DenseIdentities} (hfirst : 64 ∣ first.toNat)
    (hwf : ∀ old, dense = some old → old.Wf)
    (hreach : ∀ old, dense = some old → first.toNat ≤ old.first.toNat ∧
      old.first.toNat + 64 * old.words.length ≤ first.toNat + 64 * size) :
    ∃ words count, retainedWords first size dense = some (words, count) ∧ words.length = size ∧
      ∀ file : UInt64, ∀ i, BitWindow.offset? first.toNat size file.toNat = some i →
        (BitWindow.testBit words i = true ↔ ∃ old, dense = some old ∧ old.Contains file) := by
  cases dense with
  | none =>
      refine ⟨List.replicate size 0, 0, rfl, List.length_replicate, fun file i _ ↦ ?_⟩
      rw [BitWindow.testBit_replicate_zero]
      exact iff_of_false Bool.false_ne_true fun ⟨old, hold, _⟩ ↦ nomatch hold
  | some old =>
      obtain ⟨hle, hend⟩ := hreach old rfl
      obtain ⟨haligned, hnonempty, -, hbound⟩ := hwf old rfl
      have hdistance : (old.first - first).toNat = old.first.toNat - first.toNat :=
        UInt64.toNat_sub_of_le _ _ (UInt64.le_iff_toNat_le.mpr hle)
      have hshift : (old.first - first).toNat / 64 * 64 = old.first.toNat - first.toNat := by
        rw [hdistance]
        exact Nat.div_mul_cancel (Nat.dvd_sub haligned hfirst)
      have hroom : (old.first - first).toNat / 64 + old.words.length ≤
          (List.replicate size (0 : UInt64)).length := by
        rw [List.length_replicate]
        omega
      obtain ⟨copied, hcopied⟩ := BitWindow.exists_copyWords hroom
      have hnot : ¬old.first < first := UInt64.not_lt.mpr (UInt64.le_iff_toNat_le.mpr hle)
      refine ⟨copied, old.count, ?_, ?_, fun file i hfile ↦ ?_⟩
      · simp only [retainedWords, if_neg hnot, hcopied, Option.map_some]
      · rw [BitWindow.length_copyWords hcopied, List.length_replicate]
      · obtain ⟨hge, -, rfl⟩ := BitWindow.offset?_eq_some_iff.mp hfile
        rw [BitWindow.testBit_copyWords hcopied, hshift]
        constructor
        · rintro ⟨k, hk, hbit⟩
          have hin := BitWindow.lt_of_testBit hbit
          refine ⟨old, rfl, k, BitWindow.offset?_eq_some_iff.mpr ⟨?_, ?_, ?_⟩, hbit⟩
          · omega
          · rwa [show file.toNat - old.first.toNat = k by omega]
          · omega
        · rintro ⟨other, hother, k, hk, hbit⟩
          obtain rfl := Option.some.inj hother
          obtain ⟨hle', -, rfl⟩ := BitWindow.offset?_eq_some_iff.mp hk
          exact ⟨_, by omega, hbit⟩

/-- A window that covers the old one keeps the set. -/
theorem NarrowIdentities.rebuild_spec {identities : NarrowIdentities} (h : identities.Wf)
    {size : ℕ} (hfirst : 64 ∣ first.toNat) (hsize : 0 < size)
    (hsmall : size ≤ 131072) (hbound : first.toNat + 64 * size ≤ 2 ^ 64)
    (hreach : ∀ old, identities.dense = some old → first.toNat ≤ old.first.toNat ∧
      old.first.toNat + 64 * old.words.length ≤ first.toNat + 64 * size) :
    ∃ rebuilt, identities.rebuild first size = some rebuilt ∧ rebuilt.Wf ∧
      ∀ file, rebuilt.Contains file ↔ identities.Contains file := by
  obtain ⟨words, count, hretained, hlength, hold⟩ := retainedWords_spec hfirst h.dense hreach
  obtain ⟨hmoved, hbits, hkept⟩ := foldl_retainStep first identities.sparse words count []
  obtain ⟨moved, hfold⟩ : ∃ moved,
    identities.sparse.foldl (retainStep first) (words, count, []) = moved := ⟨_, rfl⟩
  rw [List.nil_append, hlength, hfold] at hkept
  rw [hlength, hfold] at hmoved
  rw [hlength, hfold] at hbits
  have hrebuild : identities.rebuild first size = some
      { sparse := moved.2.2
        dense := some { first := first, words := moved.1, count := moved.2.1 }
        nextCompaction := max moved.2.2.length 1 * 2 } := by
    simp only [rebuild, hretained, Option.map_some, hfold]
  have hkeptMem : ∀ file, file ∈ moved.2.2 ↔ file ∈ identities.sparse ∧
      BitWindow.offset? first.toNat size file.toNat = none := by
    intro file
    rw [hkept, List.mem_filter, decide_eq_true_eq]
  refine ⟨_, hrebuild, ⟨?_, ?_, ?_⟩, fun file ↦ ?_⟩
  · rw [hkept]
    exact h.nodup.filter _
  · intro dense hdense
    obtain rfl := Option.some.inj hdense
    exact ⟨hfirst, by rwa [hmoved], by rwa [hmoved], by rwa [hmoved]⟩
  · intro dense hdense file hfile
    obtain rfl := Option.some.inj hdense
    rw [hmoved]
    exact ((hkeptMem file).mp hfile).2
  · simp only [Contains, Option.some.injEq, exists_eq_left', hkeptMem]
    rw [DenseIdentities.Contains, hmoved]
    cases hoffset : BitWindow.offset? first.toNat size file.toNat with
    | none =>
        have hold : ¬∃ dense, identities.dense = some dense ∧ dense.Contains file := by
          rintro ⟨dense, hdense, offset, hin, -⟩
          obtain ⟨hle, hend⟩ := hreach dense hdense
          have hout := BitWindow.offset?_eq_none_iff.mp hoffset
          obtain ⟨hge, hlt, -⟩ := BitWindow.offset?_eq_some_iff.mp hin
          omega
        simp [hold]
    | some offset =>
        have hsame : (∃ other ∈ identities.sparse,
            BitWindow.offset? first.toNat size other.toNat = some offset) ↔
              file ∈ identities.sparse := by
          constructor
          · rintro ⟨other, hmem, hother⟩
            rwa [UInt64.toNat_inj.mp (BitWindow.offset?_inj hoffset hother)]
          · exact fun hmem ↦ ⟨file, hmem, hoffset⟩
        simp [hbits, hold file offset hoffset, hsame]

end Rebuild

/-! ## Choosing a window -/

section Compact

open Saturating

theorem and_not_63_dvd (file : UInt64) : 64 ∣ (file &&& ~~~63).toNat := by
  have hmask : (~~~63 : UInt64).toNat % 2 ^ 6 = 0 := by decide
  rw [UInt64.toNat_and]
  refine Nat.dvd_of_mod_eq_zero ?_
  rw [show (64 : ℕ) = 2 ^ 6 from rfl, Nat.and_mod_two_pow, hmask, Nat.and_zero]

theorem and_not_63_le (file : UInt64) : (file &&& ~~~63).toNat ≤ file.toNat := by
  rw [UInt64.toNat_and]
  exact Nat.and_le_left

/-- A cluster with members starts at a multiple of 64 and not behind its end. -/
structure ClusterExtent.Ordered (cluster : ClusterExtent) : Prop where
  empty : cluster.count = 0 → ∀ file : UInt64, file.toNat ≤ cluster.first.toNat
  aligned : cluster.count ≠ 0 → 64 ∣ cluster.first.toNat
  ordered : cluster.count ≠ 0 → cluster.first.toNat ≤ cluster.last.toNat

theorem ClusterExtent.Ordered.add {cluster : ClusterExtent} (h : cluster.Ordered) (half : UInt64)
    (file : UInt64) : (cluster.add half file).Ordered := by
  unfold ClusterExtent.add
  split
  · have hle := and_not_63_le file
    refine ⟨fun hzero ↦ (nomatch hzero), fun _ ↦ ?_, fun _ ↦ ?_⟩
    · rw [toNat_min]
      by_cases hcount : cluster.count = 0
      · rw [Nat.min_eq_right (h.empty hcount _)]
        exact and_not_63_dvd file
      · rcases Nat.le_total cluster.first.toNat (file &&& ~~~63).toNat with hmin | hmin
        · rw [Nat.min_eq_left hmin]
          exact h.aligned hcount
        · rw [Nat.min_eq_right hmin]
          exact and_not_63_dvd file
    · rw [toNat_min, toNat_max]
      omega
  · exact h

theorem clusterExtent_ordered (half : UInt64) (files : List UInt64) :
    (clusterExtent half files).Ordered := by
  have hstart : ClusterExtent.Ordered
      { first := .ofNat (2 ^ 64 - 1), last := 0, count := 0 } := by
    refine ⟨fun _ file ↦ ?_, fun h ↦ absurd rfl h, fun h ↦ absurd rfl h⟩
    have hlt := file.toNat_lt
    rw [UInt64.toNat_ofNat_of_lt' (by decide)]
    omega
  unfold clusterExtent
  generalize ({ first := .ofNat (2 ^ 64 - 1), last := 0, count := 0 } : ClusterExtent) = cluster at *
  induction files generalizing cluster with
  | nil => exact hstart
  | cons file rest ih => exact ih _ (hstart.add half file)

/-- The last number in reach of a window. -/
theorem DenseIdentities.Wf.toNat_last {dense : DenseIdentities} (h : dense.Wf) :
    (dense.first + (.ofNat dense.words.length * 64 - 1)).toNat =
      dense.first.toNat + 64 * dense.words.length - 1 := by
  have hbound := h.bound
  have hpos := h.nonempty
  have hsmall := h.small
  have hlength : (UInt64.ofNat dense.words.length).toNat = dense.words.length :=
    UInt64.toNat_ofNat_of_lt' (lt_of_le_of_lt hsmall (by decide))
  have hbits : (UInt64.ofNat dense.words.length * 64).toNat = 64 * dense.words.length := by
    rw [UInt64.toNat_mul, hlength]
    exact (Nat.mod_eq_of_lt (by simp only [UInt64.reduceToNat]; omega)).trans (Nat.mul_comm _ _)
  have hlast : (UInt64.ofNat dense.words.length * 64 - 1).toNat = 64 * dense.words.length - 1 := by
    rw [UInt64.toNat_sub_of_le _ _ (by rw [UInt64.le_iff_toNat_le, hbits]; simp; omega), hbits]
    rfl
  rw [UInt64.toNat_add, hlast, Nat.mod_eq_of_lt (by omega)]
  omega

/-- The cluster reaches over the old window. -/
theorem ClusterExtent.Ordered.withDense {cluster : ClusterExtent} (h : cluster.Ordered)
    (hcount : cluster.count ≠ 0) {dense : Option DenseIdentities}
    (hwf : ∀ old, dense = some old → old.Wf) :
    64 ∣ (cluster.withDense dense).first.toNat ∧
      (cluster.withDense dense).first.toNat ≤ (cluster.withDense dense).last.toNat ∧
      ∀ old, dense = some old → (cluster.withDense dense).first.toNat ≤ old.first.toNat ∧
        old.first.toNat + 64 * old.words.length ≤ (cluster.withDense dense).last.toNat + 1 := by
  have haligned := h.aligned hcount
  have hordered := h.ordered hcount
  cases dense with
  | none => exact ⟨haligned, hordered, fun _ hold ↦ nomatch hold⟩
  | some old =>
      have hold := hwf old rfl
      have hpos := hold.nonempty
      simp only [ClusterExtent.withDense, toNat_min, toNat_max, hold.toNat_last]
      refine ⟨?_, by omega, fun other hother ↦ ?_⟩
      · rcases Nat.le_total cluster.first.toNat old.first.toNat with hmin | hmin
        · rwa [Nat.min_eq_left hmin]
        · rw [Nat.min_eq_right hmin]
          exact hold.aligned
      · obtain rfl := Option.some.inj hother
        omega

namespace NarrowIdentities

theorem postpone_spec {identities : NarrowIdentities} (h : identities.Wf) :
    identities.postpone.Wf ∧ ∀ file, identities.postpone.Contains file ↔ identities.Contains file :=
  ⟨⟨h.nodup, h.dense, h.apart⟩, fun _ ↦ Iff.rfl⟩

/-- Compaction does not panic and keeps the set, in whatever order it votes. -/
theorem compact_spec (order : IterationOrder) {identities : NarrowIdentities} (h : identities.Wf) :
    ∃ compacted, identities.compact order = some compacted ∧ compacted.Wf ∧
      ∀ file, compacted.Contains file ↔ identities.Contains file := by
  unfold compact
  generalize identities.clusterHalf order = half
  dsimp only
  split
  · exact ⟨_, rfl, postpone_spec h⟩
  · rename_i hcluster
    have hcount : (clusterExtent half identities.sparse).count ≠ 0 := fun hzero ↦
      hcluster (Or.inl hzero)
    obtain ⟨haligned, hordered, hreach⟩ :=
      (clusterExtent_ordered half identities.sparse).withDense hcount h.dense
    generalize (clusterExtent half identities.sparse).withDense identities.dense = cluster at *
    rw [if_neg (by rw [UInt64.lt_iff_toNat_lt]; omega)]
    have hsize := Nat.le_pow_clog Nat.one_lt_two
      ((cluster.last.toNat - cluster.first.toNat) / 64 + 1)
    generalize 2 ^ Nat.clog 2 ((cluster.last.toNat - cluster.first.toNat) / 64 + 1) = size at *
    split
    · exact ⟨_, rfl, postpone_spec h⟩
    · rename_i hsmall
      have hlast := cluster.last.toNat_lt
      split
      · rename_i hhigh
        have hfirst : (UInt64.ofNat (2 ^ 64 - size * 64)).toNat = 2 ^ 64 - size * 64 :=
          UInt64.toNat_ofNat_of_lt' (by rw [UInt64.size]; omega)
        refine rebuild_spec h ?_ (by omega) (by omega) (by rw [hfirst]; omega) fun old hold ↦ ?_
        · rw [hfirst]
          omega
        · obtain ⟨hle, hend⟩ := hreach old hold
          rw [hfirst]
          omega
      · rename_i hlow
        refine rebuild_spec h haligned (by omega) (by omega) (by omega) fun old hold ↦ ?_
        obtain ⟨hle, hend⟩ := hreach old hold
        omega

end NarrowIdentities

end Compact

/-! ## Inserting -/

namespace NarrowIdentities

/-- What an insertion of `file` does to a set: it says whether the file is new,
and adds it. -/
def Inserts (identities : NarrowIdentities) (file : UInt64)
    (result : Option (Bool × NarrowIdentities)) : Prop :=
  ∃ first after, result = some (first, after) ∧ after.Wf ∧
    (first = true ↔ ¬identities.Contains file) ∧
    ∀ other, after.Contains other ↔ other = file ∨ identities.Contains other

variable {identities : NarrowIdentities} {file : UInt64}

/-- A file out of reach of the window is contained in the hash set or not at all. -/
theorem contains_iff_mem_sparse
    (hout : ∀ dense, identities.dense = some dense →
      BitWindow.offset? dense.first.toNat dense.words.length file.toNat = none) :
    identities.Contains file ↔ file ∈ identities.sparse := by
  refine or_iff_right ?_
  rintro ⟨dense, hdense, offset, hoffset, -⟩
  rw [hout dense hdense] at hoffset
  cases hoffset

theorem inserts_insertSparse (order : IterationOrder) (h : identities.Wf)
    (hout : ∀ dense, identities.dense = some dense →
      BitWindow.offset? dense.first.toNat dense.words.length file.toNat = none) :
    identities.Inserts file (identities.insertSparse order file) := by
  have hcontains := contains_iff_mem_sparse hout
  unfold insertSparse
  by_cases hmem : file ∈ identities.sparse
  · rw [if_pos hmem]
    refine ⟨false, identities, rfl, h, by simp [hcontains, hmem], fun other ↦ ?_⟩
    exact ⟨Or.inr, fun hor ↦ hor.elim (fun heq ↦ heq ▸ hcontains.mpr hmem) id⟩
  · have hwf : Wf { identities with sparse := identities.sparse ++ [file] } := by
      refine ⟨?_, h.dense, fun dense hdense other hother ↦ ?_⟩
      · exact List.nodup_append_comm.mp (List.nodup_cons.mpr ⟨hmem, h.nodup⟩)
      · rcases List.mem_append.mp hother with hold | hnew
        · exact h.apart dense hdense other hold
        · rw [List.mem_singleton.mp hnew]
          exact hout dense hdense
    have hadd : ∀ other, Contains { identities with sparse := identities.sparse ++ [file] } other ↔
        other = file ∨ identities.Contains other := by
      intro other
      simp only [Contains, List.mem_append, List.mem_singleton]
      rw [← or_assoc, or_comm]
    have hfirst : true = true ↔ ¬identities.Contains file := by simp [hcontains, hmem]
    rw [if_neg hmem]
    dsimp only
    split
    · obtain ⟨compacted, hcompact, hwf', hsame⟩ := compact_spec order hwf
      refine ⟨true, compacted, by rw [hcompact]; rfl, hwf', hfirst, fun other ↦ ?_⟩
      rw [hsame, hadd]
    · exact ⟨true, _, rfl, hwf, hfirst, hadd⟩

theorem inserts_insert (order : IterationOrder) (h : identities.Wf) (file : UInt64) :
    identities.Inserts file (identities.insert order file) := by
  unfold insert
  cases hdense : identities.dense with
  | none => exact inserts_insertSparse order h fun dense hsome ↦ by rw [hdense] at hsome; cases hsome
  | some dense =>
      cases hoffset : BitWindow.offset? dense.first.toNat dense.words.length file.toNat with
      | none =>
          simp only [hoffset]
          refine inserts_insertSparse order h fun other hother ↦ ?_
          rw [hdense] at hother
          obtain rfl := Option.some.inj hother
          exact hoffset
      | some offset =>
          simp only [hoffset]
          obtain ⟨haligned, hnonempty, hsmall, hbound⟩ := h.dense dense hdense
          have hin := BitWindow.lt_of_offset? hoffset
          have hsparse : file ∉ identities.sparse := by
            intro hmem
            have hnone := h.apart dense hdense file hmem
            rw [hoffset] at hnone
            cases hnone
          have hcontains : identities.Contains file ↔
              BitWindow.testBit dense.words offset = true := by
            simp [Contains, hdense, DenseIdentities.Contains, hoffset, hsparse]
          refine ⟨_, _, rfl, ?_, ?_, fun other ↦ ?_⟩
          · refine ⟨h.nodup, fun other hother ↦ ?_, fun other hother key hkey ↦ ?_⟩
            · obtain rfl := Option.some.inj hother
              constructor <;> simpa
            · obtain rfl := Option.some.inj hother
              rw [BitWindow.length_setBit]
              exact h.apart dense hdense key hkey
          · rw [hcontains]
            cases BitWindow.testBit dense.words offset <;> simp
          · simp only [Contains, Option.some.injEq, exists_eq_left', hdense, DenseIdentities.Contains,
              BitWindow.length_setBit, BitWindow.testBit_setBit_iff hin]
            constructor
            · rintro (⟨place, hplace, rfl | hbit⟩ | hmem)
              · exact Or.inl (UInt64.toNat_inj.mp (BitWindow.offset?_inj hplace hoffset))
              · exact Or.inr (Or.inl ⟨place, hplace, hbit⟩)
              · exact Or.inr (Or.inr hmem)
            · rintro (rfl | ⟨place, hplace, hbit⟩ | hmem)
              · exact Or.inl ⟨offset, hoffset, Or.inl rfl⟩
              · exact Or.inl ⟨place, hplace, Or.inr hbit⟩
              · exact Or.inr hmem

end NarrowIdentities

/-! ## Claims -/

/-- One call, with the order in which hash sets are iterated meanwhile. -/
structure ClaimCall where
  order : IterationOrder
  volume : UInt64
  file : BitVec 128
  bytes : UInt64

def ClaimCall.identity (call : ClaimCall) : UInt64 × BitVec 128 := (call.volume, call.file)

def claimsByIdentity : FirstClaims.Claims ClaimCall (UInt64 × BitVec 128) UInt64 where
  key := ClaimCall.identity
  amount := ClaimCall.bytes

namespace VolumeIdentities

def Contains (identities : VolumeIdentities) (file : BitVec 128) : Prop :=
  if file.toNat < 2 ^ 64 then identities.narrow.Contains (.ofNat file.toNat)
  else file ∈ identities.wide

structure Wf (identities : VolumeIdentities) : Prop where
  narrow : identities.narrow.Wf
  wide : identities.wide.Nodup

theorem wf_default : Wf {} := ⟨NarrowIdentities.wf_default, List.nodup_nil⟩

theorem not_contains_default (file : BitVec 128) : ¬Contains {} file := by
  unfold Contains
  split
  · exact NarrowIdentities.not_contains_default _
  · exact List.not_mem_nil

/-- What a claim does to the identities of a volume. -/
def Claims (identities : VolumeIdentities) (file : BitVec 128) (bytes : UInt64)
    (result : Option (UInt64 × VolumeIdentities)) : Prop :=
  ∃ answer after, result = some (answer, after) ∧ after.Wf ∧
    (identities.Contains file → answer = 0) ∧ (¬identities.Contains file → answer = bytes) ∧
    ∀ other, after.Contains other ↔ other = file ∨ identities.Contains other

theorem ofNat_toNat_inj {file other : BitVec 128} (hfile : file.toNat < 2 ^ 64)
    (hother : other.toNat < 2 ^ 64) :
    UInt64.ofNat other.toNat = UInt64.ofNat file.toNat ↔ other = file := by
  rw [← UInt64.toNat_inj, UInt64.toNat_ofNat_of_lt' hother, UInt64.toNat_ofNat_of_lt' hfile,
    BitVec.toNat_inj]

theorem claims_claim (order : IterationOrder) {identities : VolumeIdentities} (h : identities.Wf)
    (file : BitVec 128) (bytes : UInt64) :
    identities.Claims file bytes (identities.claim order file bytes) := by
  unfold claim
  by_cases hnarrow : file.toNat < 2 ^ 64
  · obtain ⟨first, after, hinsert, hwf, hfirst, hadd⟩ :=
      NarrowIdentities.inserts_insert order h.narrow (.ofNat file.toNat)
    have hcontains : identities.Contains file ↔
        identities.narrow.Contains (.ofNat file.toNat) := by
      rw [Contains, if_pos hnarrow]
    rw [if_pos hnarrow, hinsert]
    refine ⟨_, _, rfl, ⟨hwf, h.wide⟩, fun hold ↦ ?_, fun hnew ↦ ?_, fun other ↦ ?_⟩
    · rw [hcontains] at hold
      exact if_neg fun hf ↦ hfirst.mp hf hold
    · rw [hcontains] at hnew
      exact if_pos (hfirst.mpr hnew)
    · by_cases hother : other.toNat < 2 ^ 64
      · simp only [Contains, if_pos hother]
        rw [hadd, ofNat_toNat_inj hnarrow hother]
      · have hne : other ≠ file := fun heq ↦ hother (heq ▸ hnarrow)
        simp only [Contains, if_neg hother, hne, false_or]
  · have hcontains : identities.Contains file ↔ file ∈ identities.wide := by
      rw [Contains, if_neg hnarrow]
    rw [if_neg hnarrow]
    unfold insertWide
    by_cases hmem : file ∈ identities.wide
    · rw [if_pos hmem]
      refine ⟨0, identities, rfl, h, fun _ ↦ rfl, fun hnew ↦ ?_, fun other ↦ ?_⟩
      · exact absurd (hcontains.mpr hmem) hnew
      · exact ⟨Or.inr, fun hor ↦ hor.elim (fun heq ↦ heq ▸ hcontains.mpr hmem) id⟩
    · rw [if_neg hmem]
      refine ⟨bytes, _, rfl, ⟨h.narrow, ?_⟩, fun hold ↦ ?_, fun _ ↦ rfl, fun other ↦ ?_⟩
      · exact List.nodup_append_comm.mp (List.nodup_cons.mpr ⟨hmem, h.wide⟩)
      · exact absurd (hcontains.mp hold) hmem
      · by_cases hother : other.toNat < 2 ^ 64
        · have hne : other ≠ file := fun heq ↦ hnarrow (heq ▸ hother)
          simp only [Contains, if_pos hother, hne, false_or]
        · simp only [Contains, if_neg hother, List.mem_append, List.mem_singleton, or_comm]

end VolumeIdentities

namespace TrackedVolumes

def Contains (tracker : TrackedVolumes) (identity : UInt64 × BitVec 128) : Prop :=
  match tracker with
  | .empty => False
  | .single primary identities => identity.1 = primary ∧ identities.Contains identity.2
  | .multiple volumes =>
      ∃ identities, volumes.find? identity.1 = some identities ∧ identities.Contains identity.2

def Wf : TrackedVolumes → Prop
  | .empty => True
  | .single _ identities => identities.Wf
  | .multiple volumes => ∀ volume identities, volumes.find? volume = some identities → identities.Wf

/-- The tracker stands for the set of identities claimed so far. -/
def Represents (tracker : TrackedVolumes) (claimed : Set (UInt64 × BitVec 128)) : Prop :=
  tracker.Wf ∧ ∀ identity, tracker.Contains identity ↔ identity ∈ claimed

/-- What a claim of some bytes does to a tracker. -/
def ClaimsIn (contains : UInt64 × BitVec 128 → Prop) (identity : UInt64 × BitVec 128)
    (bytes : UInt64) (result : Option (UInt64 × TrackedVolumes)) : Prop :=
  ∃ answer after, result = some (answer, after) ∧ after.Wf ∧
    (contains identity → answer = 0) ∧ (¬contains identity → answer = bytes) ∧
    ∀ other, after.Contains other ↔ other = identity ∨ contains other

theorem claimsIn_claimIn (order : IterationOrder) {volumes : IdMap UInt64 VolumeIdentities}
    (h : Wf (.multiple volumes)) (volume : UInt64) (file : BitVec 128) (bytes : UInt64) :
    ClaimsIn (Contains (.multiple volumes)) (volume, file) bytes
      (claimIn order volumes volume file bytes) := by
  have hwf : ((volumes.find? volume).getD {}).Wf := by
    cases hfind : volumes.find? volume with
    | none => exact VolumeIdentities.wf_default
    | some identities => exact h volume identities hfind
  have hcontains : ∀ other, ((volumes.find? volume).getD {}).Contains other ↔
      Contains (.multiple volumes) (volume, other) := by
    intro other
    cases hfind : volumes.find? volume with
    | none => simp [Contains, hfind, VolumeIdentities.not_contains_default]
    | some identities => simp [Contains, hfind]
  obtain ⟨answer, after, hclaim, hafter, hold, hnew, hadd⟩ :=
    VolumeIdentities.claims_claim order hwf file bytes
  rw [hcontains] at hold hnew
  refine ⟨answer, .multiple (volumes.set volume after), by rw [claimIn, hclaim]; rfl,
    fun other identities hfind ↦ ?_, hold, hnew, fun other ↦ ?_⟩
  · rw [IdMap.find?_set] at hfind
    by_cases hvolume : other = volume
    · rw [if_pos hvolume] at hfind
      obtain rfl := Option.some.inj hfind
      exact hafter
    · rw [if_neg hvolume] at hfind
      exact h other identities hfind
  · obtain ⟨otherVolume, otherFile⟩ := other
    by_cases hvolume : otherVolume = volume
    · subst hvolume
      have hstep : Contains (.multiple (volumes.set otherVolume after)) (otherVolume, otherFile) ↔
          after.Contains otherFile := by
        simp [Contains]
      rw [hstep, hadd, hcontains, Prod.mk.injEq, eq_self_iff_true, true_and]
    · simp [Contains, IdMap.find?_set, hvolume]

theorem claimsIn_claim (order : IterationOrder) {tracker : TrackedVolumes} (h : tracker.Wf)
    (volume : UInt64) (file : BitVec 128) {bytes : UInt64} (hbytes : bytes ≠ 0) :
    ClaimsIn tracker.Contains (volume, file) bytes (tracker.claim order volume file bytes) := by
  unfold claim
  rw [if_neg hbytes]
  cases tracker with
  | empty =>
      obtain ⟨answer, after, hclaim, hafter, -, hnew, hadd⟩ :=
        VolumeIdentities.claims_claim order VolumeIdentities.wf_default file bytes
      refine ⟨answer, .single volume after, by dsimp only; rw [hclaim]; rfl, hafter,
        fun hfalse ↦ hfalse.elim, fun _ ↦ hnew (VolumeIdentities.not_contains_default _), fun other ↦ ?_⟩
      simp [Contains, hadd, VolumeIdentities.not_contains_default, Prod.ext_iff]
  | single primary identities =>
      by_cases hprimary : primary = volume
      · subst hprimary
        obtain ⟨answer, after, hclaim, hafter, hold, hnew, hadd⟩ :=
          VolumeIdentities.claims_claim order h file bytes
        refine ⟨answer, .single primary after, by dsimp only; rw [if_pos rfl, hclaim]; rfl, hafter,
          fun hin ↦ hold hin.2, fun hout ↦ hnew fun hin ↦ hout ⟨rfl, hin⟩, fun other ↦ ?_⟩
        simp only [Contains, hadd, Prod.ext_iff]
        tauto
      · have hwf : Wf (.multiple (IdMap.set .empty primary identities)) := by
          intro other found hfind
          rw [IdMap.find?_set] at hfind
          split at hfind
          · obtain rfl := Option.some.inj hfind
            exact h
          · cases hfind
        have hsame : Contains (.multiple (IdMap.set .empty primary identities)) =
            Contains (.single primary identities) := by
          funext identity
          simp only [Contains, IdMap.find?_set]
          by_cases hvolume : identity.1 = primary <;> simp [hvolume]
        have hclaims := claimsIn_claimIn order hwf volume file bytes
        dsimp only
        rwa [if_neg hprimary, ← hsame]
  | multiple volumes => exact claimsIn_claimIn order h volume file bytes

/-- One call. -/
def claimCall (tracker : TrackedVolumes) (call : ClaimCall) : Option (UInt64 × TrackedVolumes) :=
  tracker.claim call.order call.volume call.file call.bytes

theorem tracksFirst : FirstClaims.TracksFirst claimsByIdentity claimCall Represents where
  step := by
    intro tracker claimed call hrepresents
    by_cases hzero : call.bytes = 0
    · refine ⟨0, tracker, ?_, fun _ ↦ ⟨rfl, hrepresents⟩, fun hne ↦ absurd hzero hne⟩
      simp only [claimCall, claim.eq_def, if_pos hzero]
    · obtain ⟨answer, after, hclaim, hwf, hold, hnew, hadd⟩ :=
        claimsIn_claim call.order hrepresents.1 call.volume call.file hzero
      rw [hrepresents.2] at hold hnew
      refine ⟨answer, after, hclaim, fun heq ↦ absurd heq hzero, fun _ ↦ ⟨⟨hwf, ?_⟩, hold, hnew⟩⟩
      intro identity
      rw [hadd, hrepresents.2]
      rfl

theorem represents_empty : Represents .empty ∅ := ⟨trivial, fun _ ↦ Iff.rfl⟩

end TrackedVolumes

/-! ## Runs -/

/-- The shard a call takes the lock of. -/
def ClaimCall.shard (call : ClaimCall) : Fin 64 := shardIndex call.volume call.file

/-- Workers with claims to make on a `ConcurrentAllocationTracker`. -/
abbrev ConcurrentTracker (W : Type) :=
  FirstClaims.Sharded (Fin 64) W ClaimCall UInt64 TrackedVolumes

namespace ConcurrentTracker

variable {W : Type} [DecidableEq W]

def initial (programs : W → List ClaimCall) : ConcurrentTracker W :=
  FirstClaims.Sharded.initial .empty programs

def Step : ConcurrentTracker W → ConcurrentTracker W → Prop :=
  FirstClaims.ShardedStep claimsByIdentity ClaimCall.shard TrackedVolumes.claimCall

def Reachable (programs : W → List ClaimCall) (state : ConcurrentTracker W) : Prop :=
  Relation.ReflTransGen Step (initial programs) state

theorem shard_eq_of_identity_eq {call other : ClaimCall}
    (h : claimsByIdentity.key call = claimsByIdentity.key other) : call.shard = other.shard := by
  obtain ⟨hvolume, hfile⟩ := Prod.mk.inj h
  simp only [ClaimCall.shard, hvolume, hfile]

theorem consistent {programs : W → List ClaimCall} {state : ConcurrentTracker W}
    (h : Reachable programs state) :
    state.Consistent claimsByIdentity ClaimCall.shard TrackedVolumes.Represents programs :=
  FirstClaims.consistent_of_reachable TrackedVolumes.tracksFirst
    (fun _ _ ↦ shard_eq_of_identity_eq) TrackedVolumes.represents_empty h

/-- The answers so far, in the order they were given. -/
def answered (state : ConcurrentTracker W) : List (ClaimCall × UInt64) := state.log.map Prod.snd

end ConcurrentTracker

/-- Whatever the windows made and the volumes added in between, one tracker
answers a sequence of calls in order: the bytes for the first call of an
identity with bytes, zero for every other one. So does the sharded tracker in
every run of its workers, which grants each identity claimed so far once, loses
no call and can always go on. -/
theorem claims_granted_once (calls : List ClaimCall) {W : Type} [DecidableEq W]
    (programs : W → List ClaimCall) (state : ConcurrentTracker W)
    (hreach : ConcurrentTracker.Reachable programs state) :
    (∃ answers tracker,
      FirstClaims.runClaims TrackedVolumes.claimCall .empty calls = some (answers, tracker) ∧
        answers.map Prod.fst = calls ∧ FirstClaims.InOrder claimsByIdentity answers) ∧
    FirstClaims.InOrder claimsByIdentity state.answered ∧
    (∀ identity,
      (FirstClaims.Claimed claimsByIdentity (state.answered.map Prod.fst) identity →
        (FirstClaims.granted claimsByIdentity state.answered identity).length = 1) ∧
      (¬FirstClaims.Claimed claimsByIdentity (state.answered.map Prod.fst) identity →
        FirstClaims.granted claimsByIdentity state.answered identity = [])) ∧
    (∀ worker, state.made worker ++ state.pending worker = programs worker) ∧
    ∀ worker, state.pending worker ≠ [] → ∃ next, ConcurrentTracker.Step state next := by
  have hconsistent := ConcurrentTracker.consistent hreach
  refine ⟨?_, hconsistent.order, hconsistent.order.length_granted, hconsistent.programs, ?_⟩
  · have hempty : FirstClaims.claimedKeys claimsByIdentity [] = ∅ := by
      ext identity
      simp [FirstClaims.claimedKeys, FirstClaims.Claimed]
    have hstart : TrackedVolumes.Represents .empty (FirstClaims.claimedKeys claimsByIdentity []) :=
      hempty ▸ TrackedVolumes.represents_empty
    exact TrackedVolumes.tracksFirst.runClaims hstart (FirstClaims.inOrder_nil claimsByIdentity) calls
  · intro worker hpending
    obtain ⟨call, rest, hcalls⟩ := List.exists_cons_of_ne_nil hpending
    exact hconsistent.exists_step TrackedVolumes.tracksFirst hcalls

/-- Two names of one file on volume 7. -/
def sampleClaim : ClaimCall := { order := id, volume := 7, file := 1, bytes := 4096 }

theorem sample_reachable : ∃ state : ConcurrentTracker Bool,
    ConcurrentTracker.Reachable (fun _ ↦ [sampleClaim]) state ∧
      state.answered = [(sampleClaim, 4096), (sampleClaim, 0)] ∧ state.pending = fun _ ↦ [] := by
  have hbytes : claimsByIdentity.amount sampleClaim ≠ 0 := by decide
  refine ⟨_, .tail (.tail (.tail (.tail .refl
    (.lock (w := true) (c := sampleClaim) rfl hbytes rfl))
    (.answer (w := true) (c := sampleClaim) rfl hbytes rfl rfl))
    (.lock (w := false) (c := sampleClaim) rfl hbytes rfl))
    (.answer (w := false) (c := sampleClaim) rfl hbytes rfl rfl), rfl, ?_⟩
  funext worker
  cases worker <;> rfl

theorem claims_granted_once_sample : ∃ state : ConcurrentTracker Bool,
    ConcurrentTracker.Reachable (fun _ ↦ [sampleClaim]) state ∧
      (FirstClaims.granted claimsByIdentity state.answered (7, 1)).length = 1 ∧
      state.made false = [sampleClaim] := by
  obtain ⟨state, hreach, hanswered, hpending⟩ := sample_reachable
  obtain ⟨-, -, hgranted, hmade, -⟩ :=
    claims_granted_once [sampleClaim, sampleClaim] (fun _ ↦ [sampleClaim]) state hreach
  refine ⟨state, hreach, (hgranted (7, 1)).1 ⟨sampleClaim, ?_, by decide, rfl⟩, ?_⟩
  · simp [hanswered]
  · simpa [hpending] using hmade false

end WinBlaze
