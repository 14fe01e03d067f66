import Mathlib.Algebra.BigOperators.Group.List.Basic
import Mathlib.Algebra.GroupWithZero.Nat
import Mathlib.Algebra.Order.Group.Nat
import Mathlib.Data.List.Induction

/-!
# Blocks at offsets

Each item of a list takes up a block of the result, placed behind the blocks of
the items before it. A block may depend on where it starts.
-/

namespace Offsets

variable {α β ι : Type*} [AddMonoid ι] {size : α → ι} {block : ι → α → List β} {items : List α}

/-- The size of the items before the given one. -/
def offset (size : α → ι) (items : List α) (i : ℕ) : ι := ((items.take i).map size).sum

/-- The blocks of all items, the first of them at `start`. -/
def atOffsets (size : α → ι) (block : ι → α → List β) : ι → List α → List β
  | _, [] => []
  | start, a :: rest => block start a ++ atOffsets size block (start + size a) rest

@[simp] theorem offset_zero (size : α → ι) (items : List α) : offset size items 0 = 0 := by
  simp [offset]

theorem offset_succ {i : ℕ} {a : α} (h : items[i]? = some a) :
    offset size items (i + 1) = offset size items i + size a := by
  rw [offset, List.take_add_one, h]
  simp [offset]

theorem atOffsets_append (start : ι) (front back : List α) :
    atOffsets size block start (front ++ back) =
      atOffsets size block start front ++ atOffsets size block (start + (front.map size).sum) back := by
  induction front generalizing start with
  | nil => simp [atOffsets]
  | cons a rest ih =>
      simp only [List.cons_append, atOffsets, ih, List.append_assoc, List.map_cons, List.sum_cons,
        add_assoc]

theorem atOffsets_concat (start : ι) (front : List α) (a : α) :
    atOffsets size block start (front ++ [a]) =
      atOffsets size block start front ++ block (start + (front.map size).sum) a := by
  simp [atOffsets_append, atOffsets]

/-- The blocks before, of and behind an item. -/
theorem atOffsets_split (start : ι) {i : ℕ} {a : α} (h : items[i]? = some a) :
    atOffsets size block start items = atOffsets size block start (items.take i) ++
      (block (start + offset size items i) a ++
        atOffsets size block (start + offset size items (i + 1)) (items.drop (i + 1))) := by
  obtain ⟨hi, rfl⟩ := List.getElem?_eq_some_iff.mp h
  have hsplit : items = items.take i ++ items[i] :: items.drop (i + 1) := by
    rw [← List.drop_eq_getElem_cons hi, List.take_append_drop]
  conv_lhs => rw [hsplit]
  rw [atOffsets_append, atOffsets, offset_succ h, ← add_assoc]
  rfl

theorem mem_atOffsets {start : ι} {b : β} :
    b ∈ atOffsets size block start items ↔
      ∃ i a, items[i]? = some a ∧ b ∈ block (start + offset size items i) a := by
  induction items generalizing start with
  | nil => simp [atOffsets]
  | cons a rest ih =>
      rw [atOffsets, List.mem_append, ih]
      have hshift : ∀ i, offset size (a :: rest) (i + 1) = size a + offset size rest i := by
        intro i
        simp [offset]
      constructor
      · rintro (hfirst | ⟨i, other, hget, hmem⟩)
        · exact ⟨0, a, rfl, by simpa using hfirst⟩
        · exact ⟨i + 1, other, hget, by rwa [hshift, ← add_assoc]⟩
      · rintro ⟨i, other, hget, hmem⟩
        cases i with
        | zero =>
            obtain rfl := Option.some.inj hget
            exact Or.inl (by simpa using hmem)
        | succ i => exact Or.inr ⟨i, other, hget, by rwa [hshift, ← add_assoc] at hmem⟩

theorem length_atOffsets {count : α → ℕ} (hcount : ∀ start a, (block start a).length = count a)
    (start : ι) (items : List α) :
    (atOffsets size block start items).length = (items.map count).sum := by
  induction items generalizing start with
  | nil => rfl
  | cons a rest ih => rw [atOffsets, List.length_append, hcount, ih, List.map_cons, List.sum_cons]

/-- An element of a block is found behind the blocks before it. -/
theorem getElem?_atOffsets {count : α → ℕ} (hcount : ∀ start a, (block start a).length = count a)
    (start : ι) {i k : ℕ} {a : α} (h : items[i]? = some a) (hk : k < count a) :
    (atOffsets size block start items)[offset count items i + k]? =
      (block (start + offset size items i) a)[k]? := by
  have hfront : (atOffsets size block start (items.take i)).length = offset count items i :=
    length_atOffsets hcount start (items.take i)
  rw [atOffsets_split start h, ← hfront, List.getElem?_append_right (Nat.le_add_right _ k),
    Nat.add_sub_cancel_left, List.getElem?_append_left (by rwa [hcount])]

/-- Where only one item's block has elements of a kind, they are all there. -/
theorem filter_atOffsets {p : β → Bool} {start : ι} {i : ℕ} {a : α} (h : items[i]? = some a)
    (hothers : ∀ j other, items[j]? = some other → j ≠ i →
      ∀ b ∈ block (start + offset size items j) other, p b = false) :
    (atOffsets size block start items).filter p =
      (block (start + offset size items i) a).filter p := by
  have hi := (List.getElem?_eq_some_iff.mp h).1
  have hfront : (atOffsets size block start (items.take i)).filter p = [] := by
    refine List.filter_eq_nil_iff.mpr fun b hb ↦ ?_
    obtain ⟨j, other, hget, hmem⟩ := mem_atOffsets.mp hb
    have hj : j < i := by
      have hlt := (List.getElem?_eq_some_iff.mp hget).1
      rw [List.length_take] at hlt
      omega
    have hoffset : offset size (items.take i) j = offset size items j := by
      rw [offset, List.take_take, Nat.min_eq_left hj.le, offset]
    rw [List.getElem?_take_of_lt hj] at hget
    rw [hothers j other hget hj.ne b (hoffset ▸ hmem)]
    exact Bool.false_ne_true
  have hback : (atOffsets size block (start + offset size items (i + 1))
      (items.drop (i + 1))).filter p = [] := by
    refine List.filter_eq_nil_iff.mpr fun b hb ↦ ?_
    obtain ⟨j, other, hget, hmem⟩ := mem_atOffsets.mp hb
    rw [List.getElem?_drop] at hget
    have hoffset : offset size items (i + 1) + offset size (items.drop (i + 1)) j =
        offset size items (i + 1 + j) := by
      rw [offset, offset, offset, ← List.sum_append, ← List.map_append, ← List.take_add]
    rw [add_assoc, hoffset] at hmem
    rw [hothers (i + 1 + j) other hget (by omega) b hmem]
    exact Bool.false_ne_true
  rw [atOffsets_split start h, List.filter_append, List.filter_append, hfront, hback,
    List.nil_append, List.append_nil]

/-- Blocks that do not depend on their start are simply joined. -/
theorem atOffsets_const (f : α → List β) (start : ι) (items : List α) :
    atOffsets size (fun _ a ↦ f a) start items = items.flatMap f := by
  induction items generalizing start with
  | nil => rfl
  | cons a rest ih => rw [atOffsets, ih, List.flatMap_cons]

theorem sum_map_atOffsets {M : Type*} [AddMonoid M] {value : β → M} {share : α → M}
    (hshare : ∀ start, ∀ a ∈ items, ((block start a).map value).sum = share a) (start : ι) :
    ((atOffsets size block start items).map value).sum = (items.map share).sum := by
  induction items generalizing start with
  | nil => rfl
  | cons a rest ih =>
      rw [atOffsets, List.map_append, List.sum_append, hshare start a List.mem_cons_self,
        ih fun start b hb ↦ hshare start b (List.mem_cons_of_mem a hb), List.map_cons, List.sum_cons]

/-! ## Places -/

section Places

variable {width : α → ℕ}

theorem offset_mono (width : α → ℕ) (items : List α) {i j : ℕ} (hij : i ≤ j) :
    offset width items i ≤ offset width items j := by
  obtain ⟨k, rfl⟩ := Nat.exists_eq_add_of_le hij
  rw [offset, offset, List.take_add, List.map_append, List.sum_append]
  exact Nat.le_add_right _ _

theorem offset_add_le {i : ℕ} {a : α} (h : items[i]? = some a) :
    offset width items i + width a ≤ (items.map width).sum := by
  have hall : offset width items items.length = (items.map width).sum := by
    rw [offset, List.take_length]
  rw [← offset_succ h, ← hall]
  exact offset_mono width items (List.getElem?_eq_some_iff.mp h).1

/-- The blocks do not overlap. -/
theorem offset_inj {i j k l : ℕ} {a b : α} (ha : items[i]? = some a) (hb : items[j]? = some b)
    (hk : k < width a) (hl : l < width b)
    (heq : offset width items i + k = offset width items j + l) : i = j ∧ k = l := by
  have happart : ∀ {i j k l : ℕ} {a : α}, items[i]? = some a → k < width a →
      offset width items i + k = offset width items j + l → ¬ i < j := by
    intro i j k l a ha hk heq hlt
    have hle : offset width items (i + 1) ≤ offset width items j := offset_mono width items hlt
    rw [offset_succ ha] at hle
    omega
  have hij : i = j := by
    rcases Nat.lt_trichotomy i j with hlt | hsame | hgt
    · exact (happart ha hk heq hlt).elim
    · exact hsame
    · exact (happart hb hl heq.symm hgt).elim
  subst hij
  exact ⟨rfl, by omega⟩

variable (items width) in
/-- Every place is in some block. -/
theorem exists_block {place : ℕ} (h : place < (items.map width).sum) :
    ∃ i a k, items[i]? = some a ∧ k < width a ∧ place = offset width items i + k := by
  induction items using List.reverseRecOn with
  | nil => cases h
  | append_singleton front a ih =>
      rw [List.map_append, List.sum_append, List.map_singleton, List.sum_singleton] at h
      rcases Nat.lt_or_ge place (front.map width).sum with hlt | hge
      · obtain ⟨i, other, k, hget, hk, rfl⟩ := ih hlt
        have hi := (List.getElem?_eq_some_iff.mp hget).1
        refine ⟨i, other, k, by rwa [List.getElem?_append_left hi], hk, ?_⟩
        rw [offset, offset, List.take_append_of_le_length hi.le]
      · refine ⟨front.length, a, place - (front.map width).sum, by simp, by omega, ?_⟩
        rw [offset, List.take_left]
        omega

end Places

end Offsets
