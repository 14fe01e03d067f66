import Mathlib.Data.List.Nodup
import Mathlib.Data.List.Perm.Subperm
import Mathlib.Data.List.Range
import Mathlib.Logic.Relation
import Mathlib.Tactic.Common

/-!
# Outlines

Elements are numbered, and each shows some later ones below it. The lines of the outline are
the element, then the lines of the first below it, and so on. A stack gives the same lines.
-/

namespace Outlines

variable (below : ℕ → List ℕ)

/-- The lines from an element on, as many levels as there is fuel. -/
def lines : ℕ → ℕ → List ℕ
  | 0, _ => []
  | fuel + 1, i => i :: (below i).flatMap (lines fuel)

/-- The loop with a stack, the top of it first. -/
def walk : ℕ → List ℕ → List ℕ
  | 0, _ => []
  | _ + 1, [] => []
  | fuel + 1, i :: stack => i :: walk fuel (below i ++ stack)

/-- Every element is below at most one, which has a smaller number. -/
structure Forest (bound : ℕ) : Prop where
  later : ∀ i, ∀ j ∈ below i, i < j ∧ j < bound
  nodup : ∀ i, (below i).Nodup
  apart : ∀ i k, ∀ j ∈ below i, j ∈ below k → i = k

variable {below}

/-- Somewhere below. -/
def Above (below : ℕ → List ℕ) : ℕ → ℕ → Prop := Relation.ReflTransGen fun i j ↦ j ∈ below i

namespace Forest

variable {bound : ℕ} (h : Forest below bound)

include h

theorem lines_succ {fuel i : ℕ} (hi : i < bound) (hfuel : bound ≤ i + fuel) :
    lines below (fuel + 1) i = lines below fuel i := by
  induction fuel generalizing i with
  | zero => omega
  | succ fuel ih =>
      rw [lines, lines]
      refine congrArg _ (List.flatMap_congr fun j hj ↦ ?_)
      obtain ⟨hlater, hbound⟩ := h.later i j hj
      exact ih hbound (by omega)

/-- The lines of an element are itself and the lines of those below it. -/
theorem lines_eq {i : ℕ} (hi : i < bound) :
    lines below bound i = i :: (below i).flatMap (lines below bound) := by
  rw [← h.lines_succ hi (by omega), lines]

theorem le_of_above {i j : ℕ} (hij : Above below i j) : i ≤ j := by
  induction hij with
  | refl => exact le_rfl
  | tail _ hstep ih => exact ih.trans (h.later _ _ hstep).1.le

theorem lt_of_above {i j : ℕ} (hi : i < bound) (hij : Above below i j) : j < bound := by
  induction hij with
  | refl => exact hi
  | tail _ hstep _ => exact (h.later _ _ hstep).2

theorem mem_lines_iff {i j : ℕ} (hi : i < bound) : j ∈ lines below bound i ↔ Above below i j := by
  obtain ⟨rest, hrest⟩ : ∃ rest, rest = bound - i := ⟨_, rfl⟩
  induction rest using Nat.strong_induction_on generalizing i with
  | _ rest ih =>
      rw [h.lines_eq hi, List.mem_cons, List.mem_flatMap]
      constructor
      · rintro (rfl | ⟨k, hk, hj⟩)
        · exact .refl
        · obtain ⟨hlater, hbound⟩ := h.later i k hk
          exact .head hk ((ih (bound - k) (by omega) hbound rfl).mp hj)
      · intro hij
        rcases Relation.ReflTransGen.cases_head hij with rfl | ⟨k, hk, hkj⟩
        · exact Or.inl rfl
        · obtain ⟨hlater, hbound⟩ := h.later i k hk
          exact Or.inr ⟨k, hk, (ih (bound - k) (by omega) hbound rfl).mpr hkj⟩

/-- Of two elements above a third one is above the other. -/
theorem above_or_above {i j k : ℕ} (hi : Above below i k) (hj : Above below j k) :
    Above below i j ∨ Above below j i := by
  induction hi with
  | refl => exact Or.inr hj
  | @tail b c hib hbc ih =>
      rcases Relation.ReflTransGen.cases_tail hj with rfl | ⟨b', hjb', hb'c⟩
      · exact Or.inl (hib.tail hbc)
      · rw [h.apart b' b c hb'c hbc] at hjb'
        exact ih hjb'

/-- The lines below two different elements of one list are different. -/
theorem disjoint_lines {i j k : ℕ} (hj : j ∈ below i) (hk : k ∈ below i) (hne : j ≠ k) :
    (lines below bound j).Disjoint (lines below bound k) := by
  obtain ⟨hij, hjbound⟩ := h.later i j hj
  obtain ⟨hik, hkbound⟩ := h.later i k hk
  -- the last step to the other goes through `i`, which comes before both
  have hnot : ∀ a b, a ∈ below i → b ∈ below i → a ≠ b → ¬Above below a b := by
    intro a b ha hb hab habove
    rcases Relation.ReflTransGen.cases_tail habove with heq | ⟨c, hac, hcb⟩
    · exact hab heq.symm
    · rw [h.apart c i b hcb hb] at hac
      exact absurd (h.le_of_above hac) (not_le.mpr (h.later i a ha).1)
  intro x hx hx'
  rcases h.above_or_above ((h.mem_lines_iff hjbound).mp hx) ((h.mem_lines_iff hkbound).mp hx') with hjk | hkj
  · exact hnot j k hj hk hne hjk
  · exact hnot k j hk hj hne.symm hkj

theorem nodup_lines {i : ℕ} (hi : i < bound) : (lines below bound i).Nodup := by
  obtain ⟨rest, hrest⟩ : ∃ rest, rest = bound - i := ⟨_, rfl⟩
  induction rest using Nat.strong_induction_on generalizing i with
  | _ rest ih =>
      rw [h.lines_eq hi, List.nodup_cons, List.nodup_flatMap]
      refine ⟨fun hmem ↦ ?_, fun j hj ↦ ?_, ?_⟩
      · obtain ⟨j, hj, hij⟩ := List.mem_flatMap.mp hmem
        obtain ⟨hlater, hbound⟩ := h.later i j hj
        exact absurd (h.le_of_above ((h.mem_lines_iff hbound).mp hij)) (by omega)
      · obtain ⟨hlater, hbound⟩ := h.later i j hj
        exact ih (bound - j) (by omega) hbound rfl
      · exact (h.nodup i).imp_of_mem fun hj hk hne ↦ h.disjoint_lines hj hk hne

theorem length_lines_le {i : ℕ} (hi : i < bound) : (lines below bound i).length ≤ bound := by
  have hsub : lines below bound i ⊆ List.range bound := fun j hj ↦
    List.mem_range.mpr (h.lt_of_above hi ((h.mem_lines_iff hi).mp hj))
  have hle := (List.Nodup.subperm (h.nodup_lines hi) hsub).length_le
  rwa [List.length_range] at hle

/-- The stack gives the lines of its elements. -/
theorem walk_eq {fuel : ℕ} {stack : List ℕ} (hstack : ∀ i ∈ stack, i < bound)
    (hfuel : (stack.flatMap (lines below bound)).length ≤ fuel) :
    walk below fuel stack = stack.flatMap (lines below bound) := by
  induction fuel generalizing stack with
  | zero => exact (List.eq_nil_of_length_eq_zero (Nat.le_zero.mp hfuel)).symm
  | succ fuel ih =>
      cases stack with
      | nil => rfl
      | cons i stack =>
          have hi := hstack i List.mem_cons_self
          have hnext : (i :: stack).flatMap (lines below bound) =
              i :: (below i ++ stack).flatMap (lines below bound) := by
            rw [List.flatMap_cons, h.lines_eq hi, List.cons_append, List.flatMap_append]
          rw [hnext, List.length_cons] at hfuel
          rw [hnext, walk, ih _ (by omega)]
          intro j hj
          rcases List.mem_append.mp hj with hbelow | hrest
          · exact (h.later i j hbelow).2
          · exact hstack j (List.mem_cons_of_mem _ hrest)

theorem walk_singleton {i : ℕ} (hi : i < bound) : walk below bound [i] = lines below bound i := by
  have hlines : [i].flatMap (lines below bound) = lines below bound i := by simp
  rw [h.walk_eq (by simpa using hi) (by rw [hlines]; exact h.length_lines_le hi), hlines]

end Forest

end Outlines
