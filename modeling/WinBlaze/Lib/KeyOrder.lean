import Mathlib.Data.List.Sort
import Mathlib.Order.Basic

/-!
# Sorting records by a key

When the keys of a list are pairwise different, the list sorted by key is
determined by its records alone, whatever sorting algorithm produced it.
-/

namespace KeyOrder

variable {α ι : Type*} [LinearOrder ι]

instance total_of_key (f : α → ι) : Std.Total (fun a b ↦ f a ≤ f b) := ⟨fun a b ↦ le_total (f a) (f b)⟩

instance isTrans_of_key (f : α → ι) : IsTrans α (fun a b ↦ f a ≤ f b) := ⟨fun _ _ _ ↦ le_trans⟩

def sortByKey (f : α → ι) (l : List α) : List α :=
  l.insertionSort (fun a b ↦ f a ≤ f b)

theorem sortByKey_perm (f : α → ι) (l : List α) : (sortByKey f l).Perm l :=
  List.perm_insertionSort _ l

@[simp] theorem mem_sortByKey (f : α → ι) (l : List α) (a : α) : a ∈ sortByKey f l ↔ a ∈ l :=
  (sortByKey_perm f l).mem_iff

@[simp] theorem length_sortByKey (f : α → ι) (l : List α) :
    (sortByKey f l).length = l.length :=
  (sortByKey_perm f l).length_eq

theorem sortByKey_pairwise (f : α → ι) (l : List α) :
    (sortByKey f l).Pairwise (fun a b ↦ f a ≤ f b) :=
  List.pairwise_insertionSort _ l

theorem sortByKey_of_pairwise (f : α → ι) {l : List α} (h : l.Pairwise (fun a b ↦ f a ≤ f b)) :
    sortByKey f l = l :=
  h.insertionSort_eq

theorem nodup_map_sortByKey (f : α → ι) {β : Type*} (g : α → β) {l : List α}
    (h : (l.map g).Nodup) : ((sortByKey f l).map g).Nodup :=
  ((sortByKey_perm f l).map g).nodup_iff.mpr h

/-- Two sorted lists of the same records with different keys are equal. -/
theorem eq_of_perm_of_sorted (f : α → ι) {l m : List α} (hperm : l.Perm m)
    (hnodup : (l.map f).Nodup) (hl : l.Pairwise (fun a b ↦ f a ≤ f b))
    (hm : m.Pairwise (fun a b ↦ f a ≤ f b)) : l = m := by
  apply List.Perm.eq_of_pairwise _ hl hm hperm
  intro a b ha hb hab hba
  exact List.inj_on_of_nodup_map hnodup ha (hperm.mem_iff.mpr hb) (le_antisymm hab hba)

end KeyOrder
