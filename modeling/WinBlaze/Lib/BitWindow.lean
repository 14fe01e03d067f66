import Mathlib.Data.List.Basic
import Mathlib.Data.Nat.Bitwise

/-!
# Sets of numbers as windows of bits

A window of `count` words starts at a number and has one bit for each of the
next `64 * count` numbers. Windows that start at multiples of 64 can be copied
into larger ones word by word.
-/

namespace BitWindow

/-- The bit of a place in its word. -/
def mask (i : ℕ) : UInt64 := (1 : UInt64) <<< .ofNat (i % 64)

def testBit (words : List UInt64) (i : ℕ) : Bool :=
  words[i / 64]?.any (fun word ↦ word &&& mask i ≠ 0)

def setBit (words : List UInt64) (i : ℕ) : List UInt64 := words.modify (i / 64) (· ||| mask i)

/-- The place of a number in the window, if it has one. -/
def offset? (first count key : ℕ) : Option ℕ :=
  if first ≤ key ∧ (key - first) / 64 < count then some (key - first) else none

/-- Overwrites the words from `offset` on, if there are enough. -/
def copyWords (words : List UInt64) (offset : ℕ) (source : List UInt64) : Option (List UInt64) :=
  if offset + source.length ≤ words.length then
    some (words.take offset ++ source ++ words.drop (offset + source.length))
  else none

section Bits

variable {words : List UInt64} {i j : ℕ}

theorem toNat_mask (i : ℕ) : (mask i).toNat = 2 ^ (i % 64) := by
  have hall : ∀ k : Fin 64, ((1 : UInt64) <<< (.ofNat k : UInt64)).toNat = 2 ^ (k : ℕ) := by decide
  exact hall ⟨i % 64, Nat.mod_lt _ (by decide)⟩

theorem and_mask_ne_zero_iff (word : UInt64) (i : ℕ) :
    word &&& mask i ≠ 0 ↔ word.toNat.testBit (i % 64) = true := by
  rw [ne_eq, ← UInt64.toNat_inj, UInt64.toNat_and, toNat_mask, Nat.and_two_pow]
  cases word.toNat.testBit (i % 64) <;> simp

theorem testBit_eq_true_iff :
    testBit words i = true ↔
      ∃ word, words[i / 64]? = some word ∧ word.toNat.testBit (i % 64) = true := by
  rw [testBit, Option.any_eq_true]
  simp only [decide_eq_true_eq, and_mask_ne_zero_iff]

@[simp] theorem length_setBit (words : List UInt64) (i : ℕ) :
    (setBit words i).length = words.length :=
  List.length_modify _ _ _

/-- Setting a bit changes no other. -/
theorem testBit_setBit_iff (hi : i / 64 < words.length) :
    testBit (setBit words i) j = true ↔ j = i ∨ testBit words j = true := by
  rw [testBit_eq_true_iff, testBit_eq_true_iff, setBit]
  simp only [List.getElem?_modify]
  by_cases hword : i / 64 = j / 64
  · rw [← hword, List.getElem?_eq_getElem hi]
    simp only [Option.map_eq_map, if_true, Option.map_some, Option.some.injEq, exists_eq_left', UInt64.toNat_or,
      Nat.testBit_or, toNat_mask, Nat.testBit_two_pow, Bool.or_eq_true, decide_eq_true_eq]
    have hsame : i % 64 = j % 64 ↔ j = i := by omega
    rw [hsame, or_comm]
  · have hne : j ≠ i := fun h ↦ hword (by rw [h])
    simp only [Option.map_eq_map, if_neg hword, Option.map_id', hne, false_or]

theorem testBit_replicate_zero (n i : ℕ) : testBit (List.replicate n 0) i = false := by
  rw [← Bool.not_eq_true, testBit_eq_true_iff]
  rintro ⟨word, hword, hbit⟩
  rw [List.getElem?_replicate] at hword
  split at hword
  · obtain rfl := Option.some.inj hword
    simp at hbit
  · cases hword

theorem lt_of_testBit (h : testBit words i = true) : i / 64 < words.length := by
  obtain ⟨word, hword, -⟩ := testBit_eq_true_iff.mp h
  exact (List.getElem?_eq_some_iff.mp hword).1

theorem testBit_append_left (rest : List UInt64) (hi : i / 64 < words.length) :
    testBit (words ++ rest) i = testBit words i := by
  rw [testBit, List.getElem?_append_left hi, testBit]

theorem testBit_append_right (words rest : List UInt64) (i : ℕ) :
    testBit (words ++ rest) (i + words.length * 64) = testBit rest i := by
  have hindex : (i + words.length * 64) / 64 = words.length + i / 64 := by omega
  have hmask : mask (i + words.length * 64) = mask i := by
    rw [mask, Nat.add_mul_mod_self_right, mask]
  rw [testBit, hindex, List.getElem?_append_right (Nat.le_add_right _ _), Nat.add_sub_cancel_left,
    hmask, testBit]

/-- A copied window keeps its bits, moved by whole words. -/
theorem testBit_copyWords {count offset : ℕ} {source copied : List UInt64}
    (h : copyWords (List.replicate count 0) offset source = some copied) :
    testBit copied i = true ↔ ∃ k, i = k + offset * 64 ∧ testBit source k = true := by
  unfold copyWords at h
  split at h
  case isFalse => cases h
  case isTrue hroom =>
    obtain rfl := Option.some.inj h
    rw [List.length_replicate] at hroom
    rw [List.take_replicate, List.drop_replicate, List.append_assoc,
      Nat.min_eq_left (Nat.le_of_add_right_le hroom)]
    constructor
    · intro hbit
      by_cases hbefore : i / 64 < offset
      · rw [testBit_append_left _ (by rwa [List.length_replicate]), testBit_replicate_zero] at hbit
        cases hbit
      · obtain ⟨k, rfl⟩ : ∃ k, i = k + offset * 64 := ⟨i - offset * 64, by omega⟩
        have hright := testBit_append_right (List.replicate offset 0)
          (source ++ List.replicate (count - (offset + source.length)) 0) k
        rw [List.length_replicate] at hright
        rw [hright] at hbit
        refine ⟨k, rfl, ?_⟩
        by_cases hin : k / 64 < source.length
        · rwa [testBit_append_left _ hin] at hbit
        · obtain ⟨l, rfl⟩ : ∃ l, k = l + source.length * 64 := ⟨k - source.length * 64, by omega⟩
          rw [testBit_append_right, testBit_replicate_zero] at hbit
          cases hbit
    · rintro ⟨k, rfl, hbit⟩
      have hright := testBit_append_right (List.replicate offset 0)
        (source ++ List.replicate (count - (offset + source.length)) 0) k
      rw [List.length_replicate] at hright
      rwa [hright, testBit_append_left _ (lt_of_testBit hbit)]

theorem exists_copyWords {words source : List UInt64} {offset : ℕ}
    (h : offset + source.length ≤ words.length) :
    ∃ copied, copyWords words offset source = some copied :=
  ⟨_, if_pos h⟩

theorem length_copyWords {words source copied : List UInt64} {offset : ℕ}
    (h : copyWords words offset source = some copied) : copied.length = words.length := by
  unfold copyWords at h
  split at h
  case isFalse => cases h
  case isTrue hroom =>
    obtain rfl := Option.some.inj h
    rw [List.length_append, List.length_append, List.length_take, List.length_drop]
    omega

end Bits

/-! ## Places in a window -/

section Offset

variable {first count key offset : ℕ}

theorem offset?_eq_some_iff :
    offset? first count key = some offset ↔
      first ≤ key ∧ (key - first) / 64 < count ∧ offset = key - first := by
  unfold offset?
  split
  · rename_i h
    rw [Option.some.injEq]
    exact ⟨fun heq ↦ ⟨h.1, h.2, heq.symm⟩, fun heq ↦ heq.2.2.symm⟩
  · rename_i h
    exact iff_of_false (fun heq ↦ nomatch heq) fun heq ↦ h ⟨heq.1, heq.2.1⟩

theorem offset?_eq_none_iff : offset? first count key = none ↔ key < first ∨ first + 64 * count ≤ key := by
  unfold offset?
  split
  · rename_i h
    exact iff_of_false (fun heq ↦ nomatch heq) (by omega)
  · rename_i h
    exact iff_of_true rfl (by omega)

theorem lt_of_offset? (h : offset? first count key = some offset) : offset / 64 < count := by
  obtain ⟨-, hlt, rfl⟩ := offset?_eq_some_iff.mp h
  exact hlt

/-- Different numbers have different places. -/
theorem offset?_inj {key' : ℕ} (h : offset? first count key = some offset)
    (h' : offset? first count key' = some offset) : key = key' := by
  obtain ⟨hle, -, rfl⟩ := offset?_eq_some_iff.mp h
  obtain ⟨hle', -, heq⟩ := offset?_eq_some_iff.mp h'
  omega

end Offset

end BitWindow
