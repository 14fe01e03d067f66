import Mathlib.Algebra.BigOperators.Group.List.Basic
import Mathlib.Algebra.GroupWithZero.Nat
import Mathlib.Algebra.Order.BigOperators.Group.List
import Mathlib.Data.List.Induction

/-!
# Grouping by counting

Elements with small keys are grouped in one list: count the elements of each
key, give every key the range behind those of smaller keys, and put each element
at the next free place of its range. The range of a key then holds the elements
with this key, in their old order.
-/

namespace Buckets

variable {α : Type*}

/-- One more element with this key. -/
def bump (counts : List ℕ) : Option ℕ → List ℕ
  | some k => counts.modify k (· + 1)
  | none => counts

/-- How often each key below `n` occurs. -/
def tally (n : ℕ) (keys : List (Option ℕ)) : List ℕ := keys.foldl bump (List.replicate n 0)

/-- Ranges of the given sizes, one behind the other. -/
def ranges (start : ℕ) : List ℕ → List (ℕ × ℕ)
  | [] => []
  | size :: sizes => (start, start + size) :: ranges (start + size) sizes

/-- Puts an element at the next free place of its key. -/
def placeStep (state : List ℕ × List α) (element : Option ℕ × α) : List ℕ × List α :=
  match element.1 with
  | some k => (state.1.modify k (· + 1), state.2.set (state.1.getD k 0) element.2)
  | none => state

/-- The elements in the ranges that start at `cursors`. -/
def place (cursors : List ℕ) (slots : List α) (elements : List (Option ℕ × α)) : List α :=
  (elements.foldl placeStep (cursors, slots)).2

/-- The elements with a key, in order. -/
def members (elements : List (Option ℕ × α)) (k : ℕ) : List α :=
  (elements.filter (fun element ↦ element.1 = some k)).map Prod.snd

/-- The elements of a range. -/
def slice (l : List α) (range : ℕ × ℕ) : List α := (l.drop range.1).take (range.2 - range.1)

/-! ## Counting -/

theorem getElem?_bump (counts : List ℕ) (key : Option ℕ) (k : ℕ) :
    (bump counts key)[k]? = counts[k]?.map (fun count ↦ if key = some k then count + 1 else count) := by
  cases key with
  | none => simp [bump]
  | some other =>
      rw [bump, List.getElem?_modify]
      by_cases h : other = k <;> simp [h]

theorem getElem?_foldl_bump (keys : List (Option ℕ)) (counts : List ℕ) (k : ℕ) :
    (keys.foldl bump counts)[k]? = counts[k]?.map (· + keys.count (some k)) := by
  induction keys generalizing counts with
  | nil => simp
  | cons key rest ih =>
      rw [List.foldl_cons, ih, getElem?_bump, Option.map_map, List.count_cons]
      refine congrFun (congrArg _ (funext fun count ↦ ?_)) _
      by_cases h : key = some k
      · simp [h]
        omega
      · simp [h]

theorem getElem?_tally {n : ℕ} (keys : List (Option ℕ)) {k : ℕ} (hk : k < n) :
    (tally n keys)[k]? = some (keys.count (some k)) := by
  rw [tally, getElem?_foldl_bump, List.getElem?_replicate, if_pos hk]
  simp

@[simp] theorem length_bump (counts : List ℕ) (key : Option ℕ) :
    (bump counts key).length = counts.length := by
  cases key <;> simp [bump]

@[simp] theorem length_tally (n : ℕ) (keys : List (Option ℕ)) : (tally n keys).length = n := by
  rw [tally]
  generalize hcounts : List.replicate n 0 = counts
  have hlength : counts.length = n := by rw [← hcounts, List.length_replicate]
  clear hcounts
  induction keys generalizing counts with
  | nil => exact hlength
  | cons key rest ih =>
      apply ih
      rw [length_bump, hlength]

theorem getElem?_ranges (sizes : List ℕ) (start : ℕ) {k : ℕ} (hk : k < sizes.length) :
    (ranges start sizes)[k]? =
      some (start + (sizes.take k).sum, start + (sizes.take (k + 1)).sum) := by
  induction sizes generalizing start k with
  | nil => cases hk
  | cons size rest ih =>
      cases k with
      | zero => simp [ranges]
      | succ k =>
          rw [ranges, List.getElem?_cons_succ, ih _ (Nat.lt_of_succ_lt_succ hk)]
          simp [Nat.add_assoc]

@[simp] theorem length_ranges (sizes : List ℕ) (start : ℕ) :
    (ranges start sizes).length = sizes.length := by
  induction sizes generalizing start with
  | nil => rfl
  | cons size rest ih => rw [ranges, List.length_cons, ih, List.length_cons]

/-! ## Placing -/

theorem members_concat (elements : List (Option ℕ × α)) (element : Option ℕ × α) (k : ℕ) :
    members (elements ++ [element]) k =
      members elements k ++ if element.1 = some k then [element.2] else [] := by
  rw [members, List.filter_append, List.map_append, members]
  by_cases h : element.1 = some k <;> simp [h]

/-- Ranges of `n` keys within `total` places that do not overlap. -/
structure Apart (n total : ℕ) (start size : ℕ → ℕ) : Prop where
  bound : ∀ k < n, start k + size k ≤ total
  apart : ∀ k < n, ∀ l < n, k < l → start k + size k ≤ start l

/-- The elements so far are at the front of their ranges. -/
structure PlacedInRanges (n total : ℕ) (start : ℕ → ℕ) (elements : List (Option ℕ × α))
    (state : List ℕ × List α) : Prop where
  cursors : ∀ k < n, state.1[k]? = some (start k + (members elements k).length)
  length : state.2.length = total
  slots : ∀ k < n, ∀ j < (members elements k).length,
    state.2[start k + j]? = (members elements k)[j]?

section Place

variable {n total : ℕ} {start size : ℕ → ℕ}

theorem Apart.ne (h : Apart n total start size) {k l : ℕ} (hk : k < n) (hl : l < n) (hne : k ≠ l)
    {i j : ℕ} (hi : i < size k) (hj : j < size l) : start k + i ≠ start l + j := by
  rcases Nat.lt_or_gt_of_ne hne with hlt | hlt
  · have hle := h.apart k hk l hl hlt
    omega
  · have hle := h.apart l hl k hk hlt
    omega

theorem PlacedInRanges.placeStep (hapart : Apart n total start size)
    {elements : List (Option ℕ × α)} {state : List ℕ × List α}
    (h : PlacedInRanges n total start elements state) {element : Option ℕ × α}
    (hkey : ∀ k, element.1 = some k → k < n)
    (hsize : ∀ k < n, (members (elements ++ [element]) k).length ≤ size k) :
    PlacedInRanges n total start (elements ++ [element]) (placeStep state element) := by
  cases hcase : element.1 with
  | none =>
      have hsame : ∀ k, members (elements ++ [element]) k = members elements k := by
        intro k
        rw [members_concat, hcase]
        exact List.append_nil _
      rw [Buckets.placeStep, hcase]
      refine ⟨fun k hk ↦ ?_, h.length, fun k hk j hj ↦ ?_⟩
      · rw [hsame]
        exact h.cursors k hk
      · rw [hsame] at hj ⊢
        exact h.slots k hk j hj
  | some key =>
      have hkeyLt := hkey key hcase
      have hcursor : state.1.getD key 0 = start key + (members elements key).length := by
        rw [List.getD_eq_getElem?_getD, h.cursors key hkeyLt, Option.getD_some]
      have hgrown : members (elements ++ [element]) key = members elements key ++ [element.2] := by
        rw [members_concat, if_pos hcase]
      have hroom := hsize key hkeyLt
      rw [hgrown, List.length_append, List.length_singleton] at hroom
      have hsame : ∀ k, k ≠ key → members (elements ++ [element]) k = members elements k := by
        intro k hne
        rw [members_concat, if_neg, List.append_nil]
        intro heq
        rw [hcase] at heq
        exact hne (Option.some.inj heq).symm
      rw [Buckets.placeStep, hcase]
      dsimp only
      rw [hcursor]
      refine ⟨fun k hk ↦ ?_, ?_, fun k hk j hj ↦ ?_⟩
      · rw [List.getElem?_modify, h.cursors k hk]
        by_cases hk' : k = key
        · subst hk'
          simp [hgrown]
          omega
        · simp [Ne.symm hk', hsame k hk']
      · rw [List.length_set, h.length]
      · by_cases hk' : k = key
        · subst hk'
          rw [hgrown] at hj ⊢
          by_cases hlast : j = (members elements k).length
          · subst hlast
            have hbound := hapart.bound k hk
            rw [List.getElem?_set_self (by rw [h.length]; omega)]
            simp
          · rw [List.length_append, List.length_singleton] at hj
            have hold : j < (members elements k).length := by omega
            rw [List.getElem?_set_ne (by omega), h.slots k hk j hold,
              List.getElem?_append_left hold]
        · have hmember := hsize k hk
          rw [hsame k hk'] at hj hmember ⊢
          have hne := hapart.ne hkeyLt hk (Ne.symm hk') (i := (members elements key).length)
            (j := j) (by omega) (by omega)
          rw [List.getElem?_set_ne hne]
          exact h.slots k hk j hj

theorem length_place (cursors : List ℕ) (slots : List α) (elements : List (Option ℕ × α)) :
    (place cursors slots elements).length = slots.length := by
  have hfold : ∀ state : List ℕ × List α,
      (elements.foldl Buckets.placeStep state).2.length = state.2.length := by
    induction elements with
    | nil => exact fun _ ↦ rfl
    | cons element rest ih =>
        intro state
        rw [List.foldl_cons, ih, Buckets.placeStep]
        split
        · exact List.length_set
        · rfl
  exact hfold (cursors, slots)

theorem PlacedInRanges.foldl (hapart : Apart n total start size)
    {elements : List (Option ℕ × α)} (hkeys : ∀ element ∈ elements, ∀ k, element.1 = some k → k < n)
    (hsize : ∀ k < n, (members elements k).length ≤ size k) {cursors : List ℕ} {slots : List α}
    (hcursors : ∀ k < n, cursors[k]? = some (start k)) (hslots : slots.length = total) :
    PlacedInRanges n total start elements (elements.foldl Buckets.placeStep (cursors, slots)) := by
  induction elements using List.reverseRecOn with
  | nil =>
      refine ⟨fun k hk ↦ ?_, hslots, fun k _ j hj ↦ ?_⟩
      · exact hcursors k hk
      · cases hj
  | append_singleton front element ih =>
      rw [List.foldl_append]
      refine (ih (fun other hother ↦ hkeys other (List.mem_append_left _ hother))
        fun k hk ↦ ?_).placeStep hapart (hkeys element (by simp)) hsize
      refine le_trans ?_ (hsize k hk)
      rw [members_concat, List.length_append]
      exact Nat.le_add_right _ _

end Place

theorem count_keys (elements : List (Option ℕ × α)) (k : ℕ) :
    (elements.map Prod.fst).count (some k) = (members elements k).length := by
  rw [members, List.length_map, ← List.countP_eq_length_filter, List.count, List.countP_map]
  apply List.countP_congr
  intro element _
  simp

theorem sum_take_le (l : List ℕ) {i j : ℕ} (hij : i ≤ j) : (l.take i).sum ≤ (l.take j).sum := by
  have hsplit := congrArg List.sum (List.take_append_drop i (l.take j))
  rw [List.take_take, Nat.min_eq_left hij, List.sum_append] at hsplit
  omega

/-- The range of a key is as long as the key is frequent. -/
theorem width_of_getElem?_ranges {n : ℕ} (keys : List (Option ℕ)) {k : ℕ} (hk : k < n)
    {range : ℕ × ℕ} (h : (ranges 0 (tally n keys))[k]? = some range) :
    range.2 - range.1 = keys.count (some k) := by
  rw [getElem?_ranges _ _ (by simpa using hk), Option.some.injEq] at h
  have hsize := getElem?_tally keys hk
  obtain ⟨hlt, hget⟩ := List.getElem?_eq_some_iff.mp hsize
  have hnext : ((tally n keys).take (k + 1)).sum = ((tally n keys).take k).sum + keys.count (some k) := by
    rw [List.take_succ_eq_append_getElem hlt, List.sum_append, hget]
    simp
  rw [← h]
  simp only [hnext]
  omega

/-- Running sums give ranges apart from each other. -/
theorem apart_tally (n : ℕ) (elements : List (Option ℕ × α)) :
    Apart n (tally n (elements.map Prod.fst)).sum
      (fun k ↦ ((tally n (elements.map Prod.fst)).take k).sum)
      (fun k ↦ (members elements k).length) := by
  have hnext : ∀ k < n, ((tally n (elements.map Prod.fst)).take k).sum + (members elements k).length =
      ((tally n (elements.map Prod.fst)).take (k + 1)).sum := by
    intro k hk
    have hk' : k < (tally n (elements.map Prod.fst)).length := by rwa [length_tally]
    have hcount := getElem?_tally (elements.map Prod.fst) hk
    rw [List.getElem?_eq_getElem hk', count_keys] at hcount
    rw [List.sum_take_succ _ k hk', Option.some.inj hcount]
  refine ⟨fun k hk ↦ ?_, fun k hk l _ hkl ↦ ?_⟩
  · have hle := sum_take_le (tally n (elements.map Prod.fst)) (i := k + 1) (j := n) hk
    rw [List.take_of_length_le (length_tally n _).le, ← hnext k hk] at hle
    exact hle
  · have hle := sum_take_le (tally n (elements.map Prod.fst)) (i := k + 1) (j := l) hkl
    rwa [← hnext k hk] at hle

/-- Every range holds the elements of its key. -/
theorem slice_place {n : ℕ} {elements : List (Option ℕ × α)}
    (hkeys : ∀ element ∈ elements, ∀ k, element.1 = some k → k < n) {slots : List α}
    (hslots : slots.length = (tally n (elements.map Prod.fst)).sum) {k : ℕ} {range : ℕ × ℕ}
    (hrange : (ranges 0 (tally n (elements.map Prod.fst)))[k]? = some range) :
    slice (place ((ranges 0 (tally n (elements.map Prod.fst))).map Prod.fst) slots elements) range =
      members elements k := by
  have hranges : ∀ l < n, (ranges 0 (tally n (elements.map Prod.fst)))[l]? =
      some (((tally n (elements.map Prod.fst)).take l).sum,
        ((tally n (elements.map Prod.fst)).take (l + 1)).sum) := by
    intro l hl
    rw [getElem?_ranges _ 0 (by rwa [length_tally]), Nat.zero_add, Nat.zero_add]
  have hk : k < n := by
    have hlt := (List.getElem?_eq_some_iff.mp hrange).1
    rwa [length_ranges, length_tally] at hlt
  have hcursors : ∀ l < n, ((ranges 0 (tally n (elements.map Prod.fst))).map Prod.fst)[l]? =
      some ((tally n (elements.map Prod.fst)).take l).sum := by
    intro l hl
    rw [List.getElem?_map, hranges l hl, Option.map_some]
  have hplaced := PlacedInRanges.foldl (apart_tally n elements) hkeys (fun l _ ↦ le_rfl) hcursors
    hslots
  have hsize : range.2 - range.1 = (members elements k).length := by
    have hk' : k < (tally n (elements.map Prod.fst)).length := by rwa [length_tally]
    have hcount := getElem?_tally (elements.map Prod.fst) hk
    rw [List.getElem?_eq_getElem hk', count_keys] at hcount
    rw [hranges k hk] at hrange
    rw [← Option.some.inj hrange, List.sum_take_succ _ k hk', Option.some.inj hcount]
    omega
  have hstart : range.1 = ((tally n (elements.map Prod.fst)).take k).sum := by
    rw [hranges k hk] at hrange
    rw [← Option.some.inj hrange]
  rw [slice, hsize, hstart]
  apply List.ext_getElem?
  intro j
  by_cases hj : j < (members elements k).length
  · rw [List.getElem?_take_of_lt hj, List.getElem?_drop]
    exact hplaced.slots k hk j hj
  · rw [List.getElem?_take_eq_none (by omega), List.getElem?_eq_none (by omega)]

/-! ## The ranges as a whole -/

theorem bounds_of_mem_ranges {sizes : List ℕ} {start : ℕ} {range : ℕ × ℕ}
    (h : range ∈ ranges start sizes) :
    start ≤ range.1 ∧ range.1 ≤ range.2 ∧ range.2 ≤ start + sizes.sum := by
  induction sizes generalizing start with
  | nil => cases h
  | cons size rest ih =>
      rw [List.sum_cons]
      rcases List.mem_cons.mp h with rfl | hrest
      · dsimp only
        omega
      · obtain ⟨hstart, hle, hend⟩ := ih hrest
        omega

theorem pairwise_ranges (sizes : List ℕ) (start : ℕ) :
    (ranges start sizes).Pairwise (fun a b ↦ a.2 ≤ b.1) := by
  induction sizes generalizing start with
  | nil => exact List.Pairwise.nil
  | cons size rest ih => exact List.pairwise_cons.mpr ⟨fun b hb ↦ (bounds_of_mem_ranges hb).1, ih _⟩

/-- The last range ends at the sum of all sizes. -/
theorem end_ranges (sizes : List ℕ) (start : ℕ) :
    (((ranges start sizes).getLast?).map Prod.snd).getD start = start + sizes.sum := by
  induction sizes generalizing start with
  | nil => rfl
  | cons size rest ih =>
      have hrest := ih (start + size)
      rw [ranges, List.getLast?_cons, Option.map_some, Option.getD_some, List.sum_cons, ← Nat.add_assoc,
        ← hrest]
      cases (ranges (start + size) rest).getLast? <;> rfl

theorem sum_bump_le (counts : List ℕ) (key : Option ℕ) : (bump counts key).sum ≤ counts.sum + 1 := by
  cases key with
  | none => exact Nat.le_succ _
  | some k =>
      rw [bump]
      induction counts generalizing k with
      | nil => simp
      | cons count rest ih =>
          cases k with
          | zero =>
              simp only [List.modify_zero_cons, List.sum_cons]
              omega
          | succ k =>
              have hrest := ih k
              simp only [List.modify_succ_cons, List.sum_cons]
              omega

theorem sum_tally_le (n : ℕ) (keys : List (Option ℕ)) : (tally n keys).sum ≤ keys.length := by
  have hfold : ∀ counts : List ℕ, (keys.foldl bump counts).sum ≤ counts.sum + keys.length := by
    induction keys with
    | nil => exact fun counts ↦ le_rfl
    | cons key rest ih =>
        intro counts
        have hbump := sum_bump_le counts key
        have hrest := ih (bump counts key)
        rw [List.foldl_cons, List.length_cons]
        omega
  have hzero := hfold (List.replicate n 0)
  rwa [List.sum_replicate, Nat.nsmul_eq_mul, Nat.mul_zero, Nat.zero_add] at hzero

/-! ## Rewriting ranges in place -/

/-- Rewrites the elements of a range. -/
def mapSlice (f : List α → List α) (l : List α) (range : ℕ × ℕ) : List α :=
  l.take range.1 ++ f (slice l range) ++ l.drop range.2

section MapSlice

variable {f : List α → List α} (hf : ∀ l, (f l).length = l.length)

theorem length_slice {l : List α} {range : ℕ × ℕ} (h : range.2 ≤ l.length) :
    (slice l range).length = range.2 - range.1 := by
  rw [slice, List.length_take, List.length_drop]
  omega

include hf

theorem length_mapSlice {l : List α} {range : ℕ × ℕ} (hle : range.1 ≤ range.2)
    (h : range.2 ≤ l.length) : (mapSlice f l range).length = l.length := by
  rw [mapSlice, List.length_append, List.length_append, hf, length_slice h, List.length_take,
    List.length_drop]
  omega

theorem slice_mapSlice_self {l : List α} {range : ℕ × ℕ} (hle : range.1 ≤ range.2)
    (h : range.2 ≤ l.length) : slice (mapSlice f l range) range = f (slice l range) := by
  have hfront : (l.take range.1).length = range.1 := List.length_take_of_le (by omega)
  rw [slice, mapSlice, List.append_assoc, List.drop_left' hfront]
  exact List.take_left' ((hf _).trans (length_slice h))

/-- A range apart from the rewritten one keeps its elements. -/
theorem slice_mapSlice_of_apart {l : List α} {range other : ℕ × ℕ} (hle : range.1 ≤ range.2)
    (h : range.2 ≤ l.length) (hapart : other.2 ≤ range.1 ∨ range.2 ≤ other.1) :
    slice (mapSlice f l range) other = slice l other := by
  have hfront : (l.take range.1).length = range.1 := List.length_take_of_le (by omega)
  have hmiddle : (l.take range.1 ++ f (slice l range)).length = range.2 := by
    rw [List.length_append, hfront, hf, length_slice h]
    omega
  rcases hapart with hbefore | hafter
  · have htake : ∀ l' : List α, slice l' other = (l'.take other.2).drop other.1 := fun l' ↦
      (List.drop_take).symm
    have hsame : (mapSlice f l range).take other.2 = l.take other.2 := by
      rw [mapSlice, List.append_assoc, List.take_append_of_le_length (by omega), List.take_take,
        Nat.min_eq_left hbefore]
    rw [htake, htake, hsame]
  · have hsame : (mapSlice f l range).drop other.1 = l.drop other.1 := by
      rw [mapSlice, List.drop_append, List.drop_eq_nil_of_le (by omega), hmiddle, List.nil_append,
        List.drop_drop]
      congr 1
      omega
    rw [slice, hsame, slice]

/-- Rewriting ranges apart from each other rewrites each of them. -/
theorem slice_foldl_mapSlice {ranges : List (ℕ × ℕ)} (hpairwise : ranges.Pairwise fun a b ↦ a.2 ≤ b.1)
    {l : List α} (hbounds : ∀ range ∈ ranges, range.1 ≤ range.2 ∧ range.2 ≤ l.length)
    {range : ℕ × ℕ} (hrange : range ∈ ranges) :
    slice (ranges.foldl (mapSlice f) l) range = f (slice l range) := by
  have hkept : ∀ (others : List (ℕ × ℕ)) (l : List α),
      (∀ other ∈ others, other.1 ≤ other.2 ∧ other.2 ≤ l.length) →
      (∀ other ∈ others, range.2 ≤ other.1) →
      slice (others.foldl (mapSlice f) l) range = slice l range := by
    intro others
    induction others with
    | nil => exact fun _ _ _ ↦ rfl
    | cons other rest ih =>
        intro l hothers hapart
        obtain ⟨hle, hend⟩ := hothers other List.mem_cons_self
        rw [List.foldl_cons, ih, slice_mapSlice_of_apart hf hle hend
          (Or.inl (hapart other List.mem_cons_self))]
        · intro next hnext
          rw [length_mapSlice hf hle hend]
          exact hothers next (List.mem_cons_of_mem _ hnext)
        · exact fun next hnext ↦ hapart next (List.mem_cons_of_mem _ hnext)
  induction ranges generalizing l with
  | nil => cases hrange
  | cons first rest ih =>
      obtain ⟨hfirst, hrest⟩ := List.pairwise_cons.mp hpairwise
      obtain ⟨hle, hend⟩ := hbounds first List.mem_cons_self
      have hlater : ∀ other ∈ rest, other.1 ≤ other.2 ∧ other.2 ≤ (mapSlice f l first).length := by
        intro other hother
        rw [length_mapSlice hf hle hend]
        exact hbounds other (List.mem_cons_of_mem _ hother)
      rw [List.foldl_cons]
      rcases List.mem_cons.mp hrange with rfl | hmem
      · rw [hkept rest _ hlater hfirst, slice_mapSlice_self hf hle hend]
      · rw [ih hrest hlater hmem,
          slice_mapSlice_of_apart hf hle hend (Or.inr (hfirst range hmem))]

end MapSlice

end Buckets
