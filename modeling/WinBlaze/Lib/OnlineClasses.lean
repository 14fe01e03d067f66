import Mathlib.Data.List.Basic
import Mathlib.Data.List.Induction

/-!
# Classes built one element at a time

Each element is compared with the first element of every group. It joins the
group whose first element has the same value, and is a new group when there is
none. The groups are then the classes of the elements with the same value.
-/

namespace OnlineClasses

/-- A list that is not empty. -/
structure NonemptyList (α : Type*) where
  first : α
  others : List α

namespace NonemptyList

variable {α : Type*}

def toList (g : NonemptyList α) : List α := g.first :: g.others

def push (g : NonemptyList α) (a : α) : NonemptyList α := { g with others := g.others ++ [a] }

@[simp] theorem first_push (g : NonemptyList α) (a : α) : (g.push a).first = g.first := rfl

@[simp] theorem toList_push (g : NonemptyList α) (a : α) : (g.push a).toList = g.toList ++ [a] := rfl

theorem first_mem_toList (g : NonemptyList α) : g.first ∈ g.toList := List.mem_cons_self

end NonemptyList

variable {α κ : Type*} [DecidableEq κ]

/-- Add an element to the group with this index, or as a new group. -/
def place (groups : List (NonemptyList α)) (a : α) : Option ℕ → List (NonemptyList α)
  | some index => groups.modify index (fun g ↦ g.push a)
  | none => groups ++ [⟨a, []⟩]

/-- The index of the group an element belongs to. -/
def search (f : α → κ) (groups : List (NonemptyList α)) (a : α) : Option ℕ :=
  groups.findIdx? (fun g ↦ f g.first = f a)

def join (f : α → κ) (groups : List (NonemptyList α)) (a : α) : List (NonemptyList α) :=
  place groups a (search f groups a)

def classes (f : α → κ) (l : List α) : List (NonemptyList α) := l.foldl (join f) []

theorem classes_concat (f : α → κ) (l : List α) (a : α) :
    classes f (l ++ [a]) = join f (classes f l) a := by
  simp [classes]

/-- The groups are the classes of the elements of a list. -/
structure IsClasses (f : α → κ) (l : List α) (groups : List (NonemptyList α)) : Prop where
  members : ∀ g ∈ groups, g.toList = l.filter (fun a ↦ f a = f g.first)
  covers : ∀ a ∈ l, ∃ g ∈ groups, f g.first = f a
  apart : groups.Pairwise (fun g h ↦ f g.first ≠ f h.first)

section

variable {f : α → κ} {l : List α} {groups : List (NonemptyList α)} {a : α}

/-- The group that was found, between the other ones. -/
theorem exists_of_search {index : ℕ} (h : search f groups a = some index) :
    ∃ front g back, groups = front ++ g :: back ∧ f g.first = f a ∧
      place groups a (some index) = front ++ g.push a :: back := by
  obtain ⟨hlt, hkey, -⟩ := List.findIdx?_eq_some_iff_getElem.mp h
  refine ⟨groups.take index, groups[index], groups.drop (index + 1), ?_, by simpa using hkey, ?_⟩
  · rw [← List.drop_eq_getElem_cons hlt, List.take_append_drop]
  · simp [place, List.modify_eq_take_cons_drop hlt]

theorem search_cons (f : α → κ) (g : NonemptyList α) (rest : List (NonemptyList α)) (a : α) :
    search f (g :: rest) a = if f g.first = f a then some 0 else (search f rest a).map (· + 1) := by
  simp [search, List.findIdx?_cons]

theorem ne_of_search_eq_none (h : search f groups a = none) :
    ∀ g ∈ groups, f g.first ≠ f a := by
  simpa [search] using h

theorem filter_concat_of_ne {k : κ} (h : k ≠ f a) :
    (l ++ [a]).filter (fun b ↦ f b = k) = l.filter (fun b ↦ f b = k) := by
  simp [Ne.symm h]

theorem filter_concat_of_eq {k : κ} (h : k = f a) :
    (l ++ [a]).filter (fun b ↦ f b = k) = l.filter (fun b ↦ f b = k) ++ [a] := by
  simp [h]

theorem IsClasses.join (h : IsClasses f l groups) (a : α) :
    IsClasses f (l ++ [a]) (join f groups a) := by
  unfold OnlineClasses.join
  cases hsearch : search f groups a with
  | none =>
      have hne := ne_of_search_eq_none hsearch
      have hnew : l.filter (fun b ↦ f b = f a) = [] := by
        simp only [List.filter_eq_nil_iff, decide_eq_true_eq]
        intro b hb hba
        obtain ⟨g, hg, hgb⟩ := h.covers b hb
        exact hne g hg (hgb.trans hba)
      refine ⟨fun g hg ↦ ?_, fun b hb ↦ ?_, ?_⟩
      · rcases List.mem_append.mp hg with hg | hg
        · rw [filter_concat_of_ne (hne g hg)]
          exact h.members g hg
        · obtain rfl := List.mem_singleton.mp hg
          rw [filter_concat_of_eq rfl, hnew]
          rfl
      · rcases List.mem_append.mp hb with hb | hb
        · obtain ⟨g, hg, hgb⟩ := h.covers b hb
          exact ⟨g, List.mem_append_left _ hg, hgb⟩
        · obtain rfl := List.mem_singleton.mp hb
          exact ⟨⟨b, []⟩, List.mem_append_right _ List.mem_cons_self, rfl⟩
      · refine List.pairwise_append.mpr ⟨h.apart, List.pairwise_singleton _ _, fun g hg other hother ↦ ?_⟩
        obtain rfl := List.mem_singleton.mp hother
        exact hne g hg
  | some index =>
      obtain ⟨front, g, back, rfl, hkey, hplace⟩ := exists_of_search hsearch
      rw [hplace]
      obtain ⟨hfront, hback, hcross⟩ := List.pairwise_append.mp h.apart
      obtain ⟨hlater, hback⟩ := List.pairwise_cons.mp hback
      have hne : ∀ other, other ∈ front ∨ other ∈ back → f other.first ≠ f a := by
        rintro other (hother | hother)
        · exact hkey ▸ hcross other hother g List.mem_cons_self
        · exact hkey ▸ (hlater other hother).symm
      refine ⟨fun other hother ↦ ?_, fun b hb ↦ ?_, ?_⟩
      · have hcases : other = g.push a ∨ other ∈ front ∨ other ∈ back := by
          simpa [or_left_comm] using hother
        rcases hcases with rfl | hother
        · rw [NonemptyList.first_push, filter_concat_of_eq hkey, NonemptyList.toList_push,
            h.members g (List.mem_append_right _ List.mem_cons_self)]
        · rw [filter_concat_of_ne (hne other hother)]
          exact h.members other (by simpa using hother.imp_right Or.inr)
      · have hsame : ∀ other ∈ front ++ g :: back,
            ∃ found ∈ front ++ g.push a :: back, f found.first = f other.first := by
          intro other hother
          have hcases : other = g ∨ other ∈ front ∨ other ∈ back := by
            simpa [or_left_comm] using hother
          rcases hcases with rfl | hother
          · exact ⟨other.push a, by simp, rfl⟩
          · exact ⟨other, by simpa using hother.imp_right Or.inr, rfl⟩
        rcases List.mem_append.mp hb with hb | hb
        · obtain ⟨other, hother, hkeyb⟩ := h.covers b hb
          obtain ⟨found, hfound, hkeyfound⟩ := hsame other hother
          exact ⟨found, hfound, hkeyfound.trans hkeyb⟩
        · obtain rfl := List.mem_singleton.mp hb
          exact ⟨g.push b, by simp, hkey⟩
      · exact List.pairwise_append.mpr ⟨hfront, List.pairwise_cons.mpr ⟨hlater, hback⟩,
          fun other hother found hfound ↦ (List.mem_cons.mp hfound).elim
            (fun heq ↦ heq ▸ hcross other hother g List.mem_cons_self)
            fun hin ↦ hcross other hother found (List.mem_cons_of_mem _ hin)⟩

theorem isClasses_classes (f : α → κ) (l : List α) : IsClasses f l (classes f l) := by
  induction l using List.reverseRecOn with
  | nil => exact ⟨fun _ h ↦ (nomatch h), fun _ h ↦ (nomatch h), List.Pairwise.nil⟩
  | append_singleton l a ih =>
      rw [classes_concat]
      exact ih.join a

end

/-- The first element of a class is an element. -/
theorem IsClasses.first_mem {f : α → κ} {l : List α} {groups : List (NonemptyList α)}
    (h : IsClasses f l groups) {g : NonemptyList α} (hg : g ∈ groups) : g.first ∈ l := by
  have hmem := g.first_mem_toList
  rw [h.members g hg] at hmem
  exact List.mem_of_mem_filter hmem

end OnlineClasses
