import Mathlib.Data.List.Nodup

/-!
# The front of a sorted list

An unstable sort promises no more than a sorted permutation, and a selection no
more than that what precedes a place is not above it and what follows is not
below. Where a comparator tells apart the elements of a list, the front that a
selection leaves, once sorted, is the front of the sorted list.
-/

namespace Selection

variable {α : Type*}

/-- Sorted by a comparator. -/
def Sorted (cmp : α → α → Ordering) (l : List α) : Prop := l.Pairwise (fun a b ↦ (cmp a b).isLE)

/-- An implementation of the unstable sorts: only what they promise is known. -/
structure Unstable (α : Type*) where
  sortBy : (α → α → Ordering) → List α → List α
  selectNthBy : ℕ → (α → α → Ordering) → List α → List α
  sortBy_perm : ∀ cmp l, (sortBy cmp l).Perm l
  sorted_sortBy : ∀ cmp l, Std.TransCmp cmp → Sorted cmp (sortBy cmp l)
  selectNthBy_perm : ∀ n cmp l, (selectNthBy n cmp l).Perm l
  isLE_selectNthBy : ∀ n cmp l, Std.TransCmp cmp → n < l.length → ∀ i j a b, i ≤ n → n ≤ j →
    (selectNthBy n cmp l)[i]? = some a → (selectNthBy n cmp l)[j]? = some b → (cmp a b).isLE

/-- The order that a comparator without ties determines. -/
def sorted (cmp : α → α → Ordering) (l : List α) : List α := l.mergeSort (fun a b ↦ (cmp a b).isLE)

/-- The first places of a selection, sorted. -/
def Unstable.smallest (sorts : Unstable α) (n count : ℕ) (cmp : α → α → Ordering) (l : List α) :
    List α :=
  sorts.sortBy cmp ((sorts.selectNthBy n cmp l).take count)

variable {cmp : α → α → Ordering}

theorem sorted_perm (cmp : α → α → Ordering) (l : List α) : (sorted cmp l).Perm l :=
  List.mergeSort_perm l _

@[simp] theorem length_sorted (cmp : α → α → Ordering) (l : List α) :
    (sorted cmp l).length = l.length := (sorted_perm cmp l).length_eq

theorem isLE_total [Std.TransCmp cmp] (a b : α) : ((cmp a b).isLE || (cmp b a).isLE) = true := by
  have hswap : cmp b a = (cmp a b).swap := Std.OrientedCmp.eq_swap
  rw [hswap]
  cases cmp a b <;> rfl

theorem isLE_trans [Std.TransCmp cmp] (a b c : α) (hab : (cmp a b).isLE = true)
    (hbc : (cmp b c).isLE = true) : (cmp a c).isLE = true := Std.TransCmp.isLE_trans hab hbc

theorem sorted_sorted [Std.TransCmp cmp] (l : List α) : Sorted cmp (sorted cmp l) :=
  List.pairwise_mergeSort isLE_trans isLE_total l

/-- A comparator that tells the elements of a list apart leaves one sorted order. -/
theorem eq_sorted [Std.TransCmp cmp] {l l' : List α}
    (hties : ∀ a ∈ l, ∀ b ∈ l, cmp a b = .eq → a = b) (hperm : l'.Perm l) (hsorted : Sorted cmp l') :
    l' = sorted cmp l := by
  refine List.Perm.eq_of_pairwise (fun a b ha hb hab hba ↦ ?_) hsorted (sorted_sorted l)
    (hperm.trans (sorted_perm cmp l).symm)
  exact hties a (hperm.mem_iff.mp ha) b ((sorted_perm cmp l).mem_iff.mp hb)
    (Std.OrientedCmp.isLE_antisymm hab hba)

/-- Comparing the images of two elements. -/
theorem transCmp_comap {β : Type*} [Std.TransCmp cmp] (f : β → α) :
    Std.TransCmp (fun a b ↦ cmp (f a) (f b)) where
  eq_swap := Std.OrientedCmp.eq_swap
  isLE_trans := Std.TransCmp.isLE_trans

/-- Sorting places by what is at them sorts what is at them. -/
theorem map_sorted {β : Type*} [Std.TransCmp cmp] {f : β → α} {l : List β} {l' : List α}
    (hmap : l.map f = l') (hties : ∀ a ∈ l', ∀ b ∈ l', cmp a b = .eq → a = b) :
    (sorted (fun a b ↦ cmp (f a) (f b)) l).map f = sorted cmp l' := by
  have htrans : Std.TransCmp (fun a b ↦ cmp (f a) (f b)) := transCmp_comap f
  refine eq_sorted hties (hmap ▸ (sorted_perm _ l).map f) ?_
  exact List.pairwise_map.mpr (sorted_sorted l)

/-- The reversed comparator reverses the order. -/
theorem sorted_swap [Std.TransCmp cmp] {l : List α}
    (hties : ∀ a ∈ l, ∀ b ∈ l, cmp a b = .eq → a = b) :
    sorted (fun a b ↦ cmp b a) l = (sorted cmp l).reverse := by
  have htrans : Std.TransCmp (fun a b ↦ cmp b a) := Std.TransCmp.opposite
  refine (eq_sorted (fun a ha b hb heq ↦ (hties b hb a ha heq).symm) ?_ ?_).symm
  · exact (List.reverse_perm _).trans (sorted_perm cmp l)
  · exact List.pairwise_reverse.mpr (sorted_sorted l)

/-- The places of a list, compared by what is at them, then by their order. -/
def tieBroken (cmp : α → α → Ordering) (place : ℕ → α) : ℕ → ℕ → Ordering :=
  compareLex (fun i j ↦ cmp (place i) (place j)) compare

instance transCmp_tieBroken [Std.TransCmp cmp] (place : ℕ → α) :
    Std.TransCmp (tieBroken cmp place) := by
  have hplace : Std.TransCmp (fun i j ↦ cmp (place i) (place j)) := transCmp_comap place
  unfold tieBroken
  infer_instance

theorem eq_of_tieBroken {place : ℕ → α} {i j : ℕ} (h : tieBroken cmp place i j = .eq) :
    i = j := by
  unfold tieBroken at h
  rw [compareLex_eq_eq] at h
  exact Std.LawfulEqCmp.eq_of_compare h.2

/-- Sorting the places with their order as the last key is a stable sort. -/
theorem map_sorted_places [Std.TransCmp cmp] {l : List α} {place : ℕ → α}
    (hplace : ∀ i a, l[i]? = some a → place i = a) :
    (sorted (tieBroken cmp place) (List.range l.length)).map place =
      l.mergeSort (fun a b ↦ (cmp a b).isLE) := by
  set le : α → α → Bool := fun a b ↦ (cmp a b).isLE
  set decorated := l.zipIdx.mergeSort (List.zipIdxLE le)
  have hperm : decorated.Perm l.zipIdx := List.mergeSort_perm _ _
  have hat : ∀ entry ∈ decorated, place entry.2 = entry.1 := fun entry hentry ↦
    hplace _ _ (List.mk_mem_zipIdx_iff_getElem?.mp (hperm.mem_iff.mp hentry))
  have hsorted : decorated.Pairwise (fun a b ↦ List.zipIdxLE le a b = true) :=
    List.pairwise_mergeSort (List.zipIdxLE_trans isLE_trans) (List.zipIdxLE_total isLE_total) _
  have hplaces : decorated.map Prod.snd = sorted (tieBroken cmp place) (List.range l.length) := by
    refine eq_sorted (fun _ _ _ _ ↦ eq_of_tieBroken) ?_ (List.pairwise_map.mpr ?_)
    · rw [List.range_eq_range', ← List.zipIdx_map_snd]
      exact hperm.map _
    · refine hsorted.imp_of_mem fun {a b} ha hb hle ↦ ?_
      unfold tieBroken compareLex
      dsimp only
      rw [hat a ha, hat b hb]
      unfold List.zipIdxLE at hle
      have hswap : cmp b.1 a.1 = (cmp a.1 b.1).swap := Std.OrientedCmp.eq_swap
      cases horder : cmp a.1 b.1 with
      | lt => rfl
      | eq =>
          simp only [le, horder, hswap, Ordering.swap_eq, Ordering.isLE_eq, if_true,
            decide_eq_true_eq] at hle
          exact Std.isLE_compare.mpr hle
      | gt => simp [le, horder] at hle
  rw [← hplaces, List.map_map, ← List.mergeSort_zipIdx]
  exact List.map_congr_left hat

namespace Unstable

variable (sorts : Unstable α)

theorem sortBy_eq [Std.TransCmp cmp] {l : List α}
    (hties : ∀ a ∈ l, ∀ b ∈ l, cmp a b = .eq → a = b) : sorts.sortBy cmp l = sorted cmp l :=
  eq_sorted hties (sorts.sortBy_perm cmp l) (sorts.sorted_sortBy cmp l inferInstance)

/-- The first places of a selection, sorted, are the front of the sorted list. -/
theorem smallest_eq [Std.TransCmp cmp] {l : List α}
    (hties : ∀ a ∈ l, ∀ b ∈ l, cmp a b = .eq → a = b) {n count : ℕ} (hn : n < l.length)
    (hcount : n ≤ count) (hcount' : count ≤ n + 1) :
    sorts.smallest n count cmp l = (sorted cmp l).take count := by
  have hselected := sorts.selectNthBy_perm n cmp l
  generalize hl' : sorts.selectNthBy n cmp l = l' at hselected
  have hsplit : (l'.take count ++ l'.drop count).Perm l := by rwa [List.take_append_drop]
  have hfront := sorts.sortBy_perm cmp (l'.take count)
  have hback := sorts.sortBy_perm cmp (l'.drop count)
  have hcross : ∀ a ∈ l'.take count, ∀ b ∈ l'.drop count, (cmp a b).isLE = true := by
    intro a ha b hb
    obtain ⟨i, hi, hia⟩ := List.mem_take_iff_getElem.mp ha
    obtain ⟨j, hj, hjb⟩ := List.mem_drop_iff_getElem.mp hb
    refine sorts.isLE_selectNthBy n cmp l inferInstance hn i (count + j) a b (by omega) (by omega) ?_ ?_
    · rw [hl', List.getElem?_eq_getElem (by omega), hia]
    · rw [hl', List.getElem?_eq_getElem (by omega), hjb]
  have hall : sorts.sortBy cmp (l'.take count) ++ sorts.sortBy cmp (l'.drop count) = sorted cmp l := by
    refine eq_sorted hties ((hfront.append hback).trans hsplit) (List.pairwise_append.mpr
      ⟨sorts.sorted_sortBy cmp _ inferInstance, sorts.sorted_sortBy cmp _ inferInstance, ?_⟩)
    exact fun a ha b hb ↦ hcross a (hfront.mem_iff.mp ha) b (hback.mem_iff.mp hb)
  have hlength : (sorts.sortBy cmp (l'.take count)).length = count := by
    rw [hfront.length_eq, List.length_take, hselected.length_eq]
    omega
  rw [smallest, hl', ← hall, List.take_left' hlength]

/-- A stable sort is an unstable one. -/
def ofMergeSort : Unstable α where
  sortBy := sorted
  selectNthBy _ := sorted
  sortBy_perm := sorted_perm
  sorted_sortBy _ l _ := sorted_sorted l
  selectNthBy_perm _ := sorted_perm
  isLE_selectNthBy := by
    intro n cmp l htrans hn i j a b hi hj ha hb
    obtain ⟨hia, rfl⟩ := List.getElem?_eq_some_iff.mp ha
    obtain ⟨hjb, rfl⟩ := List.getElem?_eq_some_iff.mp hb
    rcases Nat.eq_or_lt_of_le (Nat.le_trans hi hj) with rfl | hlt
    · exact Ordering.isLE_of_eq_eq Std.ReflCmp.compare_self
    · exact List.pairwise_iff_getElem.mp (sorted_sorted l) i j hia hjb hlt

end Unstable

end Selection
