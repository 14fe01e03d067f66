import WinBlaze.Core.Model

/-!
# Joined paths determine their parts

A joined path is the directory without its trailing backslash, one backslash
and the name. With names free of backslashes it determines the name, and the
directory up to a trailing backslash.
-/

namespace WinBlaze

/-- A directory path without a trailing backslash. -/
def pathStem (path : String) : List Char :=
  if endsWithBackslash path then path.toList.dropLast else path.toList

theorem toList_joinPath {parent : String} (name : String) (hparent : parent ≠ "") :
    (joinPath parent name).toList = pathStem parent ++ '\\' :: name.toList := by
  have hempty : parent.isEmpty = false := by
    rw [Bool.eq_false_iff]
    exact fun h ↦ hparent (String.isEmpty_iff.mp h)
  unfold joinPath pathStem
  cases hends : endsWithBackslash parent with
  | true =>
      have hlast : parent.toList.getLast? = some '\\' := of_decide_eq_true hends
      obtain ⟨front, hfront⟩ := List.getLast?_eq_some_iff.mp hlast
      simp [hempty, hfront]
  | false => simp [hempty]

theorem joinPath_ne_empty {parent : String} (name : String) (hparent : parent ≠ "") :
    joinPath parent name ≠ "" := by
  intro h
  have hlist := toList_joinPath name hparent
  rw [h] at hlist
  simp at hlist

/-- The last separator splits a list in one way. -/
theorem append_separator_inj {α : Type*} {a : α} {x y n m : List α} (hn : a ∉ n) (hm : a ∉ m)
    (h : x ++ a :: n = y ++ a :: m) : x = y ∧ n = m := by
  rcases List.append_eq_append_iff.mp h with ⟨front, hy, hrest⟩ | ⟨front, hx, hrest⟩
  · cases front with
    | nil => exact ⟨by rw [hy, List.append_nil], (List.cons.inj hrest).2⟩
    | cons b tail =>
        have hmem := (List.cons.inj hrest).2
        exact (hn (hmem ▸ List.mem_append_right _ List.mem_cons_self)).elim
  · cases front with
    | nil => exact ⟨by rw [hx, List.append_nil], (List.cons.inj hrest).2.symm⟩
    | cons b tail =>
        have hmem := (List.cons.inj hrest).2
        exact (hm (hmem ▸ List.mem_append_right _ List.mem_cons_self)).elim

theorem toList_eq_pathStem_append {path : String} (h : endsWithBackslash path = true) :
    path.toList = pathStem path ++ ['\\'] := by
  have hlast : path.toList.getLast? = some '\\' := of_decide_eq_true h
  obtain ⟨front, hfront⟩ := List.getLast?_eq_some_iff.mp hlast
  rw [pathStem, if_pos h, hfront, List.dropLast_concat]

theorem toList_eq_pathStem {path : String} (h : endsWithBackslash path = false) :
    path.toList = pathStem path := by
  simp [pathStem, h]

/-- Paths with one stem differ at most by a trailing backslash. -/
theorem eq_or_trailing_of_pathStem_eq {p q : String} (h : pathStem p = pathStem q) :
    p = q ∨ p = q ++ "\\" ∨ q = p ++ "\\" := by
  cases hp : endsWithBackslash p with
  | true =>
      cases hq : endsWithBackslash q with
      | true =>
          left
          apply String.toList_inj.mp
          rw [toList_eq_pathStem_append hp, toList_eq_pathStem_append hq, h]
      | false =>
          right
          left
          apply String.toList_inj.mp
          rw [toList_eq_pathStem_append hp, String.toList_append, toList_eq_pathStem hq, h]
          rfl
  | false =>
      cases hq : endsWithBackslash q with
      | true =>
          right
          right
          apply String.toList_inj.mp
          rw [toList_eq_pathStem_append hq, String.toList_append, toList_eq_pathStem hp, h]
          rfl
      | false =>
          left
          apply String.toList_inj.mp
          rw [toList_eq_pathStem hp, toList_eq_pathStem hq, h]

theorem joinPath_inj {p q name other : String} (hp : p ≠ "") (hq : q ≠ "")
    (hname : '\\' ∉ name.toList) (hother : '\\' ∉ other.toList) (hpq : p ≠ q ++ "\\")
    (hqp : q ≠ p ++ "\\") (h : joinPath p name = joinPath q other) : p = q ∧ name = other := by
  have hlist : pathStem p ++ '\\' :: name.toList = pathStem q ++ '\\' :: other.toList := by
    rw [← toList_joinPath name hp, ← toList_joinPath other hq, h]
  obtain ⟨hstem, hnames⟩ := append_separator_inj hname hother hlist
  refine ⟨?_, String.toList_inj.mp hnames⟩
  rcases eq_or_trailing_of_pathStem_eq hstem with heq | heq | heq
  · exact heq
  · exact (hpq heq).elim
  · exact (hqp heq).elim

end WinBlaze
