import Mathlib.Data.List.Basic

/-!
# The first place of a part in a list
-/

namespace TextSearch

variable {α : Type*}

/-- `part` stands between `front` and `back`, and nowhere before. -/
def First (part l front back : List α) : Prop :=
  l = front ++ part ++ back ∧ ∀ earlier later, l = earlier ++ part ++ later → front.length ≤ earlier.length

theorem First.drop {part l front back : List α} (h : First part l front back) :
    l.drop (front.length + part.length) = back := by
  rw [h.1, ← List.length_append, List.drop_left]

/-- There is one first place. -/
theorem First.unique {part l front back other rest : List α} (h : First part l front back)
    (hother : First part l other rest) : front = other ∧ back = rest := by
  have hlength : front.length = other.length :=
    Nat.le_antisymm (h.2 other rest hother.1) (hother.2 front back h.1)
  have heq := h.1.symm.trans hother.1
  rw [List.append_assoc, List.append_assoc] at heq
  obtain ⟨hfront, hrest⟩ := List.append_inj heq hlength
  exact ⟨hfront, List.append_cancel_left hrest⟩

variable [DecidableEq α]

/-- The place where `part` first stands in a list. -/
def find (part : List α) : List α → Option ℕ
  | [] => if part = [] then some 0 else none
  | a :: rest => if part.isPrefixOf (a :: rest) then some 0 else (find part rest).map (· + 1)

theorem First.cons {part l front back : List α} {a : α} (h : First part l front back)
    (hnot : part.isPrefixOf (a :: l) = false) : First part (a :: l) (a :: front) back := by
  refine ⟨congrArg (a :: ·) h.1, fun earlier later heq ↦ ?_⟩
  cases earlier with
  | nil =>
      rw [List.nil_append] at heq
      have hprefix := List.isPrefixOf_iff_prefix.mpr (heq ▸ List.prefix_append part later)
      rw [hnot] at hprefix
      cases hprefix
  | cons first rest =>
      have hrest := h.2 rest later (List.cons.inj heq).2
      exact Nat.succ_le_succ hrest

theorem exists_of_find {part l : List α} {place : ℕ} (h : find part l = some place) :
    ∃ front back, First part l front back ∧ front.length = place := by
  induction l generalizing place with
  | nil =>
      rw [find] at h
      split at h
      case isTrue hempty =>
        exact ⟨[], [], ⟨by rw [hempty]; rfl, fun _ _ _ ↦ Nat.zero_le _⟩, Option.some.inj h⟩
      case isFalse => cases h
  | cons a rest ih =>
      rw [find] at h
      split at h
      case isTrue hprefix =>
        obtain ⟨back, hback⟩ := List.isPrefixOf_iff_prefix.mp hprefix
        exact ⟨[], back, ⟨hback.symm, fun _ _ _ ↦ Nat.zero_le _⟩, Option.some.inj h⟩
      case isFalse hnot =>
        obtain ⟨later, hfind, rfl⟩ := Option.map_eq_some_iff.mp h
        obtain ⟨front, back, hfirst, rfl⟩ := ih hfind
        exact ⟨a :: front, back, hfirst.cons (Bool.not_eq_true _ ▸ hnot), rfl⟩

theorem ne_of_find_eq_none {part l : List α} (h : find part l = none) (front back : List α) :
    l ≠ front ++ part ++ back := by
  induction l generalizing front with
  | nil =>
      rw [find] at h
      split at h
      case isTrue => cases h
      case isFalse hne =>
        intro heq
        have hparts := List.append_eq_nil_iff.mp heq.symm
        exact hne (List.append_eq_nil_iff.mp hparts.1).2
  | cons a rest ih =>
      rw [find] at h
      split at h
      case isTrue => cases h
      case isFalse hnot =>
        intro heq
        cases front with
        | nil =>
            rw [List.nil_append] at heq
            exact hnot (List.isPrefixOf_iff_prefix.mpr (heq ▸ List.prefix_append part back))
        | cons first front =>
            exact ih (Option.map_eq_none_iff.mp h) front (List.cons.inj heq).2

theorem find_eq_some_of_first {part l front back : List α} (h : First part l front back) :
    find part l = some front.length := by
  cases hfind : find part l with
  | none => exact (ne_of_find_eq_none hfind front back h.1).elim
  | some place =>
      obtain ⟨other, rest, hother, rfl⟩ := exists_of_find hfind
      exact congrArg some (Nat.le_antisymm (hother.2 front back h.1) (h.2 other rest hother.1))

/-- The place is found exactly where the part first stands. -/
theorem find_eq_some_iff {part l : List α} {place : ℕ} :
    find part l = some place ↔ ∃ front back, First part l front back ∧ front.length = place := by
  constructor
  · exact exists_of_find
  · rintro ⟨front, back, hfirst, rfl⟩
    exact find_eq_some_of_first hfirst

theorem find_eq_none_iff {part l : List α} :
    find part l = none ↔ ∀ front back, l ≠ front ++ part ++ back := by
  constructor
  · exact ne_of_find_eq_none
  · intro h
    cases hfind : find part l with
    | none => rfl
    | some place =>
        obtain ⟨front, back, hfirst, -⟩ := exists_of_find hfind
        exact (h front back hfirst.1).elim

end TextSearch
