import Mathlib.Data.List.Basic
import Mathlib.Tactic.Ring

/-!
# Blocks of one size

A list is read as a sequence of blocks of a fixed size. Blocks of a multiple of
the size are made of consecutive small blocks.
-/

namespace Blocks

variable {α β : Type*}

/-- The block with this index. -/
def block (size : ℕ) (l : List α) (i : ℕ) : List α := (l.drop (i * size)).take size

theorem length_block {size n : ℕ} {l : List α} (hl : n * size ≤ l.length) {i : ℕ} (hi : i < n) :
    (block size l i).length = size := by
  have hle : (i + 1) * size ≤ n * size := Nat.mul_le_mul_right size hi
  have hsucc : (i + 1) * size = i * size + size := by ring
  rw [block, List.length_take, List.length_drop]
  omega

theorem block_append_left {size n : ℕ} {l : List α} (hl : n * size ≤ l.length) (rest : List α)
    {i : ℕ} (hi : i < n) : block size (l ++ rest) i = block size l i := by
  have hle : (i + 1) * size ≤ n * size := Nat.mul_le_mul_right size hi
  have hsucc : (i + 1) * size = i * size + size := by ring
  have hdrop : (l ++ rest).drop (i * size) = l.drop (i * size) ++ rest :=
    List.drop_append_of_le_length (by omega)
  rw [block, hdrop, List.take_append_of_le_length (by rw [List.length_drop]; omega), block]

theorem block_append_right {size n : ℕ} {l : List α} (hl : l.length = n * size) (rest : List α)
    (i : ℕ) : block size (l ++ rest) (n + i) = block size rest i := by
  have hindex : (n + i) * size = l.length + i * size := by
    rw [hl]
    ring
  have hdrop : (l ++ rest).drop (l.length + i * size) = rest.drop (i * size) := by
    rw [← List.drop_drop, List.drop_left]
  rw [block, hindex, hdrop, block]

/-- The blocks of a list make up the list. -/
theorem flatMap_block {size n : ℕ} {l : List α} (hl : l.length = n * size) :
    (List.range n).flatMap (block size l) = l := by
  induction n generalizing l with
  | zero =>
      have hnil : l = [] := List.length_eq_zero_iff.mp (by simpa using hl)
      simp [hnil]
  | succ n ih =>
      have hsucc : (n + 1) * size = n * size + size := by ring
      have hfront : (l.take (n * size)).length = n * size := by
        rw [List.length_take]
        omega
      have hblocks : (List.range n).flatMap (block size l) = l.take (n * size) := by
        rw [← ih hfront]
        refine List.flatMap_congr fun i hi ↦ ?_
        have happ := block_append_left hfront.ge (l.drop (n * size)) (List.mem_range.mp hi)
        rwa [List.take_append_drop] at happ
      have hlast : block size l n = l.drop (n * size) := by
        rw [block, List.take_of_length_le]
        rw [List.length_drop]
        omega
      rw [List.range_succ, List.flatMap_append, hblocks, List.flatMap_singleton, hlast,
        List.take_append_drop]

/-- A small block of a large block is a block. -/
theorem block_block {size k : ℕ} (l : List α) (i : ℕ) {j : ℕ} (hj : j < k) :
    block size (block (k * size) l i) j = block size l (i * k + j) := by
  have hle : (j + 1) * size ≤ k * size := Nat.mul_le_mul_right size hj
  have hsucc : (j + 1) * size = j * size + size := by ring
  have hindex : (i * k + j) * size = i * (k * size) + j * size := by ring
  rw [block, block, List.drop_take, List.take_take, List.drop_drop, block, hindex,
    Nat.min_eq_left (by omega)]

/-- A large block is made of small ones. -/
theorem block_mul {size k n : ℕ} {l : List α} (hl : n * (k * size) ≤ l.length) {i : ℕ} (hi : i < n) :
    block (k * size) l i = (List.range k).flatMap (fun j ↦ block size l (i * k + j)) := by
  rw [← flatMap_block (length_block hl hi)]
  exact List.flatMap_congr fun j hj ↦ block_block l i (List.mem_range.mp hj)

/-- Images of one length are the blocks of their concatenation. -/
theorem block_flatMap {size : ℕ} {f : α → List β} {l : List α}
    (hf : ∀ a ∈ l, (f a).length = size) {i : ℕ} {a : α} (ha : l[i]? = some a) :
    block size (l.flatMap f) i = f a := by
  induction l generalizing i with
  | nil => simp at ha
  | cons head rest ih =>
      have hhead := hf head List.mem_cons_self
      cases i with
      | zero =>
          obtain rfl : head = a := by simpa using ha
          simp [block, ← hhead]
      | succ i =>
          have hrest := block_append_right (n := 1) (by rw [hhead, Nat.one_mul])
            (rest.flatMap f) i
          rw [List.flatMap_cons, Nat.add_comm, hrest]
          exact ih (fun b hb ↦ hf b (List.mem_cons_of_mem head hb)) (by simpa using ha)

/-- Numbers below a product, grouped by their quotient. -/
theorem range_mul (n k : ℕ) :
    List.range (n * k) = (List.range n).flatMap (fun i ↦ (List.range k).map (i * k + ·)) := by
  induction n with
  | zero => simp
  | succ n ih => rw [Nat.succ_mul, List.range_add, ih, List.range_succ, List.flatMap_append,
      List.flatMap_singleton]

theorem flatMap_filter (p : α → Bool) (f : α → List β) (l : List α) :
    (l.filter p).flatMap f = l.flatMap (fun a ↦ if p a then f a else []) := by
  induction l with
  | nil => rfl
  | cons a rest ih => by_cases hp : p a = true <;> simp [hp, ih]

/-- Small blocks instead of large ones, where only some are taken. -/
theorem flatMap_filter_block {size k n : ℕ} {l : List α} (hl : n * (k * size) ≤ l.length)
    (p : ℕ → Bool) :
    ((List.range n).filter p).flatMap (block (k * size) l) =
      ((List.range (n * k)).filter (fun r ↦ p (r / k))).flatMap (block size l) := by
  rw [range_mul, List.filter_flatMap, List.flatMap_assoc, flatMap_filter]
  refine List.flatMap_congr fun i hi ↦ ?_
  have hquotient : ∀ j ∈ List.range k, p ((i * k + j) / k) = p i := by
    intro j hj
    have hjk := List.mem_range.mp hj
    rw [Nat.mul_comm, Nat.mul_add_div (by omega), Nat.div_eq_of_lt hjk, Nat.add_zero]
  rw [List.filter_map]
  by_cases hp : p i = true
  · have hall : (List.range k).filter ((fun r ↦ p (r / k)) ∘ (i * k + ·)) = List.range k :=
      List.filter_eq_self.mpr fun j hj ↦ (hquotient j hj).trans hp
    rw [if_pos hp, hall, block_mul hl (List.mem_range.mp hi), List.flatMap_map]
  · have hnone : (List.range k).filter ((fun r ↦ p (r / k)) ∘ (i * k + ·)) = [] :=
      List.filter_eq_nil_iff.mpr fun j hj ↦ by simpa [hquotient j hj] using hp
    rw [if_neg hp, hnone]
    rfl

/-- Consecutive numbers in blocks. -/
theorem range'_mul (start n size : ℕ) :
    List.range' start (n * size) =
      (List.range n).flatMap (fun i ↦ List.range' (start + i * size) size) := by
  induction n with
  | zero => simp
  | succ n ih =>
      rw [Nat.succ_mul, ← List.range'_append_1, ih, List.range_succ, List.flatMap_append,
        List.flatMap_singleton]

/-! ## All whole blocks -/

/-- The whole blocks of a list; a shorter rest is left out. -/
def blocks (size : ℕ) (l : List α) : List (List α) := (List.range (l.length / size)).map (block size l)

theorem length_of_mem_blocks {size : ℕ} {l b : List α} (hb : b ∈ blocks size l) :
    b.length = size := by
  obtain ⟨i, hi, rfl⟩ := List.mem_map.mp hb
  exact length_block (Nat.div_mul_le_self _ _) (List.mem_range.mp hi)

theorem blocks_of_lt {size : ℕ} {l : List α} (hl : l.length < size) : blocks size l = [] := by
  simp [blocks, Nat.div_eq_of_lt hl]

theorem blocks_append {size : ℕ} (hsize : 0 < size) {l : List α} (hl : size ∣ l.length)
    (rest : List α) : blocks size (l ++ rest) = blocks size l ++ blocks size rest := by
  have hlength : l.length / size * size = l.length := Nat.div_mul_cancel hl
  have hcount : (l ++ rest).length / size = l.length / size + rest.length / size := by
    obtain ⟨n, hn⟩ := hl
    rw [List.length_append, hn, Nat.mul_add_div hsize, Nat.mul_div_cancel_left n hsize]
  rw [blocks, hcount, List.range_add, List.map_append, List.map_map, blocks, blocks]
  congr 1
  · exact List.map_congr_left fun i hi ↦
      block_append_left hlength.le rest (List.mem_range.mp hi)
  · exact List.map_congr_left fun i _ ↦ block_append_right hlength.symm rest i

theorem blocks_self {size : ℕ} (hsize : 0 < size) {l : List α} (hl : l.length = size) :
    blocks size l = [l] := by
  have hcount : l.length / size = 1 := by rw [hl, Nat.div_self hsize]
  rw [blocks, hcount]
  simp [block, List.take_of_length_le hl.le]

theorem dvd_length_take (size : ℕ) (l : List α) :
    size ∣ (l.take (l.length / size * size)).length := by
  rw [List.length_take, Nat.min_eq_left (Nat.div_mul_le_self _ _)]
  exact Nat.dvd_mul_left _ _

/-- Consecutive blocks; the last one can be shorter. -/
def chunks (size : ℕ) : List α → List (List α)
  | [] => []
  | a :: rest => (a :: rest.take (size - 1)) :: chunks size (rest.drop (size - 1))
termination_by l => l.length
decreasing_by
  rw [List.length_drop, List.length_cons]
  exact Nat.lt_succ_of_le (Nat.sub_le _ _)

theorem flatten_chunks (size : ℕ) (l : List α) : (chunks size l).flatten = l := by
  induction l using chunks.induct size with
  | case1 => simp [chunks]
  | case2 a rest ih => simp [chunks, ih]

/-! ## Consecutive ranges -/

/-- The ranges cover the numbers from `first` to `stop`, one behind the other. -/
def Tiles : List (ℕ × ℕ) → ℕ → ℕ → Prop
  | [], first, stop => first = stop
  | range :: rest, first, stop => range.1 = first ∧ range.1 ≤ range.2 ∧ Tiles rest range.2 stop

theorem Tiles.le {ranges : List (ℕ × ℕ)} {first stop : ℕ} (h : Tiles ranges first stop) :
    first ≤ stop := by
  induction ranges generalizing first with
  | nil => exact le_of_eq h
  | cons range rest ih =>
      obtain ⟨rfl, hle, hrest⟩ := h
      exact hle.trans (ih hrest)

theorem Tiles.snd_le {ranges : List (ℕ × ℕ)} {first stop : ℕ} (h : Tiles ranges first stop)
    {range : ℕ × ℕ} (hrange : range ∈ ranges) : range.2 ≤ stop := by
  induction ranges generalizing first with
  | nil => cases hrange
  | cons head rest ih =>
      obtain ⟨rfl, hle, hrest⟩ := h
      rcases List.mem_cons.mp hrange with rfl | hmem
      · exact hrest.le
      · exact ih hrest hmem

theorem Tiles.flatMap_range' {ranges : List (ℕ × ℕ)} {first stop : ℕ}
    (h : Tiles ranges first stop) :
    ranges.flatMap (fun range ↦ List.range' range.1 (range.2 - range.1)) =
      List.range' first (stop - first) := by
  induction ranges generalizing first with
  | nil =>
      obtain rfl : first = stop := h
      simp
  | cons range rest ih =>
      obtain ⟨rfl, hle, hrest⟩ := h
      have hstop := hrest.le
      have hmid : range.1 + (range.2 - range.1) = range.2 := Nat.add_sub_cancel' hle
      have hsum : stop - range.1 = range.2 - range.1 + (stop - range.2) := by omega
      rw [List.flatMap_cons, ih hrest, hsum, ← List.range'_append_1, hmid]

/-- Ranges of at most `chunk` of the numbers below `n`, one for each worker
from `worker` on, until the numbers run out. -/
def chunkRanges (chunk n : ℕ) : ℕ → ℕ → List (ℕ × ℕ)
  | _, 0 => []
  | worker, left + 1 =>
      if n ≤ worker * chunk then []
      else (worker * chunk, min ((worker + 1) * chunk) n) :: chunkRanges chunk n (worker + 1) left

theorem tiles_chunkRanges (chunk n worker left : ℕ) :
    Tiles (chunkRanges chunk n worker left) (min (worker * chunk) n)
      (min ((worker + left) * chunk) n) := by
  induction left generalizing worker with
  | zero => rfl
  | succ left ih =>
      have hnext : (worker + 1) * chunk = worker * chunk + chunk := by ring
      have hlast : worker * chunk ≤ (worker + (left + 1)) * chunk :=
        Nat.mul_le_mul_right chunk (Nat.le_add_right _ _)
      rw [chunkRanges]
      by_cases hend : n ≤ worker * chunk
      · rw [if_pos hend]
        exact (Nat.min_eq_right hend).trans (Nat.min_eq_right (hend.trans hlast)).symm
      · have htail := ih (worker + 1)
        rw [if_neg hend]
        refine ⟨by dsimp only; omega, by dsimp only; omega, ?_⟩
        rwa [show worker + (left + 1) = worker + 1 + left by omega]

/-- Enough chunks cover all numbers. -/
theorem tiles_chunkRanges_zero {chunk n workers : ℕ} (h : n ≤ workers * chunk) :
    Tiles (chunkRanges chunk n 0 workers) 0 n := by
  have htiles := tiles_chunkRanges chunk n 0 workers
  rwa [Nat.zero_add, Nat.zero_mul, Nat.zero_min, Nat.min_eq_right h] at htiles

end Blocks
