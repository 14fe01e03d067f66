import Mathlib.Data.List.Infix
import WinBlaze.Lib.TreeSweep

/-!
# Keys that spell the way from the root

The key of a node is the key of its parent, a separator and a name. Where no two
nodes have one key, a node is beneath another exactly when its key goes on behind
the key of the other and a separator.
-/

namespace SeparatedKeys

open ParentChain TreeSweep

variable {β : Type*} {sep : β}

theorem prefix_separator {x y name : List β} (hname : sep ∉ name)
    (h : x ++ [sep] <+: y ++ sep :: name) : x = y ∨ x ++ [sep] <+: y := by
  obtain ⟨rest, hrest⟩ := h
  rw [List.append_assoc, List.singleton_append] at hrest
  rcases List.append_eq_append_iff.mp hrest with ⟨front, rfl, hfront⟩ | ⟨front, rfl, hfront⟩
  · cases front with
    | nil => exact .inl (List.append_nil x).symm
    | cons first tail =>
        obtain ⟨rfl, -⟩ := List.cons.inj hfront
        exact .inr ⟨tail, by simp⟩
  · cases front with
    | nil => exact .inl (List.append_nil y)
    | cons first tail =>
        obtain ⟨-, rfl⟩ := List.cons.inj hfront
        exact absurd (List.mem_append_right tail List.mem_cons_self) hname

/-- The nodes below a number are spelled out by their keys. -/
structure Spells (sep : β) (count : ℕ) (parent : ℕ → Option ℕ) (key : ℕ → List β) : Prop where
  ends : ∀ node, Ends parent node
  bound : ∀ node above, parent node = some above → above < count
  step : ∀ node < count, ∀ above, parent node = some above →
    ∃ name, sep ∉ name ∧ key node = key above ++ sep :: name
  injective : ∀ a < count, ∀ b < count, key a = key b → a = b
  root : ∃ root < count, ∀ node < count, Beneath parent root node

namespace Spells

variable {count : ℕ} {parent : ℕ → Option ℕ} {key : ℕ → List β}

theorem prefix_of_beneath (h : Spells sep count parent key) {top node : ℕ} (hnode : node < count)
    (hbeneath : Beneath parent top node) : key top ++ [sep] <+: key node ++ [sep] := by
  obtain ⟨k, hk⟩ := hbeneath
  induction k generalizing node with
  | zero =>
      obtain rfl := Option.some.inj hk
      exact List.prefix_rfl
  | succ k ih =>
      obtain ⟨above, habove, hrest⟩ := Option.bind_eq_some_iff.mp hk
      obtain ⟨name, -, hkey⟩ := h.step node hnode above habove
      refine (ih (h.bound node above habove) hrest).trans ?_
      rw [hkey]
      exact ⟨name ++ [sep], by simp⟩

theorem beneath_of_prefix (h : Spells sep count parent key) {top node : ℕ} (htop : top < count)
    (hnode : node < count) (hbeneath : key top ++ [sep] <+: key node ++ [sep]) :
    Beneath parent top node := by
  have hself : ∀ other < count, key top = key other → Beneath parent top other := by
    intro other hother hsame
    obtain rfl := h.injective top htop other hother hsame
    exact ⟨0, rfl⟩
  suffices hall : node < count → key top ++ [sep] <+: key node ++ [sep] → Beneath parent top node from
    hall hnode hbeneath
  clear hnode hbeneath
  refine Ends.induction (P := fun node ↦ node < count → key top ++ [sep] <+: key node ++ [sep] →
    Beneath parent top node) (fun node ih hnode hbeneath ↦ ?_) (h.ends node)
  rcases prefix_separator List.not_mem_nil hbeneath with hsame | hlonger
  · exact hself node hnode hsame
  · cases hparent : parent node with
    | none =>
        -- The node is the root, whose key begins every key.
        obtain ⟨root, -, hall⟩ := h.root
        obtain ⟨k, hk⟩ := hall node hnode
        cases k with
        | zero =>
            obtain rfl := Option.some.inj hk
            have hlength := (h.prefix_of_beneath htop (hall top htop)).length_le
            have hless := hlonger.length_le
            simp only [List.length_append, List.length_singleton] at hlength hless
            omega
        | succ k =>
            rw [ancestor_succ_of_none hparent] at hk
            cases hk
    | some above =>
        obtain ⟨name, hname, hkey⟩ := h.step node hnode above hparent
        have habove := h.bound node above hparent
        have hstep : key top ++ [sep] <+: key above ++ [sep] := by
          rcases prefix_separator hname (hkey ▸ hlonger) with hsame | hmore
          · rw [hsame]
          · exact hmore.trans (List.prefix_append _ _)
        obtain ⟨k, hk⟩ := ih above hparent habove hstep
        exact ⟨k + 1, by rw [ancestor_succ_of_some hparent, hk]⟩

theorem beneath_iff (h : Spells sep count parent key) {top node : ℕ} (htop : top < count)
    (hnode : node < count) {name : List β} (hname : sep ∉ name) :
    Beneath parent top node ↔ key top ++ [sep] <+: key node ++ sep :: name := by
  constructor
  · intro hbeneath
    exact (h.prefix_of_beneath hnode hbeneath).trans ⟨name, by simp⟩
  · intro hbeneath
    refine h.beneath_of_prefix htop hnode ?_
    rcases prefix_separator hname hbeneath with hsame | hlonger
    · rw [hsame]
    · exact hlonger.trans (List.prefix_append _ _)

end Spells

end SeparatedKeys
