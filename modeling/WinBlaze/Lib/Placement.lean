import Mathlib.Data.Finset.Card
import Mathlib.Logic.Equiv.Basic
import Mathlib.Order.Interval.Finset.Nat

/-!
# Placing elements by swaps

Elements of an array have places. Swapping an element into its place, where
another one stood out of place, leaves fewer places unsettled.
-/

namespace Placement

variable {α : Type} (place : α → ℕ)

/-- The element there is at its place. -/
def Settled (xs : Array α) (i : ℕ) : Prop := xs[i]?.map place = some i

instance (xs : Array α) (i : ℕ) : Decidable (Settled place xs i) :=
  inferInstanceAs (Decidable (_ = _))

def unsettled (xs : Array α) : ℕ := ((Finset.range xs.size).filter (¬ Settled place xs ·)).card

variable {place} {xs : Array α} {i j k : ℕ} {a b : α}

theorem unsettled_le (place : α → ℕ) (xs : Array α) : unsettled place xs ≤ xs.size :=
  (Finset.card_filter_le _ _).trans_eq (Finset.card_range _)

theorem lt_size (h : xs[i]? = some a) : i < xs.size := (Array.getElem?_eq_some_iff.mp h).1

theorem settled_iff (h : xs[i]? = some a) : Settled place xs i ↔ place a = i := by
  rw [Settled, h, Option.map_some, Option.some.injEq]

theorem getElem?_swap (hi : xs[i]? = some a) (hj : xs[j]? = some b) :
    (xs.swap i j (lt_size hi) (lt_size hj))[k]? =
      if k = j then some a else if k = i then some b else xs[k]? := by
  obtain ⟨hlti, rfl⟩ := Array.getElem?_eq_some_iff.mp hi
  obtain ⟨hltj, rfl⟩ := Array.getElem?_eq_some_iff.mp hj
  rw [Array.getElem?_swap]
  simp only [eq_comm]

theorem getElem?_swap_equiv (hi : xs[i]? = some a) (hj : xs[j]? = some b) :
    (xs.swap i j (lt_size hi) (lt_size hj))[k]? = xs[Equiv.swap i j k]? := by
  rw [getElem?_swap hi hj, Equiv.swap_apply_def]
  split_ifs with hkj hki hki
  · rw [← hkj, hki, hi]
  · rw [hi]
  · rw [hj]
  · rfl

section Swap

variable (hi : xs[i]? = some a) (hj : xs[j]? = some b) (ha : place a = j) (hij : i ≠ j) (hb : place b ≠ j)

include ha hij hb

theorem settled_swap_of_settled (hk : Settled place xs k) :
    Settled place (xs.swap i j (lt_size hi) (lt_size hj)) k := by
  have hki : k ≠ i := by
    rintro rfl
    exact hij (((settled_iff hi).mp hk).symm.trans ha)
  have hkj : k ≠ j := by
    rintro rfl
    exact hb ((settled_iff hj).mp hk)
  rwa [Settled, getElem?_swap hi hj, if_neg hkj, if_neg hki]

/-- The swap settles a place and unsettles none. -/
theorem unsettled_swap_lt :
    unsettled place (xs.swap i j (lt_size hi) (lt_size hj)) < unsettled place xs := by
  have hsettled : Settled place (xs.swap i j (lt_size hi) (lt_size hj)) j := by
    refine (settled_iff (a := a) ?_).mpr ha
    rw [getElem?_swap hi hj, if_pos rfl]
  have hunsettled : ¬ Settled place xs j := mt (settled_iff hj).mp hb
  refine Finset.card_lt_card (Finset.ssubset_iff_subset_ne.mpr ⟨fun k hk ↦ ?_, fun hsame ↦ ?_⟩)
  · rw [Finset.mem_filter, Array.size_swap] at hk
    exact Finset.mem_filter.mpr ⟨hk.1, fun hsettled ↦
      hk.2 (settled_swap_of_settled hi hj ha hij hb hsettled)⟩
  · have hmem : j ∈ (Finset.range xs.size).filter (¬ Settled place xs ·) :=
      Finset.mem_filter.mpr ⟨Finset.mem_range.mpr (lt_size hj), hunsettled⟩
    rw [← hsame] at hmem
    exact (Finset.mem_filter.mp hmem).2 hsettled

end Swap

end Placement
