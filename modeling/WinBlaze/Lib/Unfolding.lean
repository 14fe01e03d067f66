import Mathlib.Algebra.BigOperators.Group.List.Basic
import Mathlib.Algebra.GroupWithZero.Nat
import Mathlib.Data.Set.Finite.Lattice
import Mathlib.Logic.Relation

/-!
# What a tree brings in all

A node gives items, and an item may lead to a further node. Below a node from
which no path is longer than a bound, the items add up to a sum that does not
depend on the order in which they are found.
-/

/-- The items of each node, and the node an item leads to. -/
structure Unfolding (V O : Type*) where
  items : V → List O
  next : O → Option V

namespace Unfolding

variable {V O M : Type*} (tree : Unfolding V O)

/-- No path from the node has more than this number of nodes. -/
def DepthAtMost : ℕ → V → Prop
  | 0, _ => False
  | depth + 1, node =>
      ∀ item ∈ tree.items node, ∀ child ∈ tree.next item, DepthAtMost depth child

variable [AddCommMonoid M] (own : V → O → M)

/-- The sum over all items below a node, to a depth. -/
def gather : ℕ → V → M
  | 0, _ => 0
  | depth + 1, node =>
      ((tree.items node).map
        (fun item ↦ own node item + (tree.next item).elim 0 (gather depth))).sum

/-- An item of a node with all that is below it. -/
def below (depth : ℕ) (node : V) (item : O) : M :=
  own node item + (tree.next item).elim 0 (tree.gather own depth)

variable {tree own} {node child : V} {item : O} {depth : ℕ}

theorem DepthAtMost.succ (h : tree.DepthAtMost depth node) : tree.DepthAtMost (depth + 1) node := by
  induction depth generalizing node with
  | zero => exact h.elim
  | succ depth ih => exact fun item hitem child hchild ↦ ih (h item hitem child hchild)

/-- A node below is at the same bound. -/
theorem DepthAtMost.of_next (h : tree.DepthAtMost depth node) (hitem : item ∈ tree.items node)
    (hchild : child ∈ tree.next item) : tree.DepthAtMost depth child := by
  cases depth with
  | zero => exact h.elim
  | succ depth => exact DepthAtMost.succ (h item hitem child hchild)

/-- A deeper search finds the same. -/
theorem gather_succ (h : tree.DepthAtMost depth node) :
    tree.gather own (depth + 1) node = tree.gather own depth node := by
  induction depth generalizing node with
  | zero => exact h.elim
  | succ depth ih =>
      unfold gather
      congr 1
      refine List.map_congr_left fun item hitem ↦ ?_
      cases hnext : tree.next item with
      | none => rfl
      | some child =>
          have hchild := ih (h item hitem child hnext)
          simp only [Option.elim_some, hchild]

/-- What is below a node is what its items bring. -/
theorem gather_eq_sum (h : tree.DepthAtMost depth node) :
    tree.gather own depth node = ((tree.items node).map (tree.below own depth node)).sum := by
  rw [← gather_succ h]
  rfl

theorem DepthAtMost.mono {deeper : ℕ} (h : tree.DepthAtMost depth node) (hle : depth ≤ deeper) :
    tree.DepthAtMost deeper node := by
  induction hle with
  | refl => exact h
  | step _ ih => exact ih.succ

/-- A number that becomes less along every item bounds the depth. -/
theorem depthAtMost_of_measure (measure : V → ℕ)
    (h : ∀ {node child item}, item ∈ tree.items node → child ∈ tree.next item →
      measure child < measure node) (hlt : measure node < depth) : tree.DepthAtMost depth node := by
  induction depth generalizing node with
  | zero => exact absurd hlt (Nat.not_lt_zero _)
  | succ depth ih =>
      exact fun item hitem child hchild ↦
        ih ((h hitem hchild).trans_le (Nat.le_of_lt_succ hlt))

/-! ## The nodes below a node -/

variable (tree) in
/-- A node leads to those its items lead to. -/
def Leads (node child : V) : Prop := ∃ item ∈ tree.items node, child ∈ tree.next item

variable (tree) in
/-- The number of nodes below a node, itself included, to a depth. -/
def size (depth : ℕ) (node : V) : ℕ :=
  1 + tree.gather (fun _ item ↦ if (tree.next item).isSome then 1 else 0) depth node

theorem size_pos (depth : ℕ) (node : V) : 0 < tree.size depth node := by
  unfold size
  omega

theorem size_eq (h : tree.DepthAtMost depth node) :
    tree.size depth node =
      1 + ((tree.items node).map (fun item ↦ (tree.next item).elim 0 (tree.size depth))).sum := by
  unfold size
  rw [gather_eq_sum h]
  congr 3
  funext item
  unfold below
  cases hnext : tree.next item with
  | none => simp [hnext]
  | some child => simp [hnext]

/-- Finitely many nodes are below a node of a bounded depth. -/
theorem DepthAtMost.finite (h : tree.DepthAtMost depth node) :
    {child | Relation.ReflTransGen tree.Leads node child}.Finite := by
  induction depth generalizing node with
  | zero => exact h.elim
  | succ depth ih =>
      have hbelow : (⋃ item ∈ {item | item ∈ tree.items node}, ⋃ child ∈ {child | child ∈ tree.next item},
          {below | Relation.ReflTransGen tree.Leads child below}).Finite := by
        refine (List.finite_toSet (tree.items node)).biUnion fun item hitem ↦ ?_
        have hnext : {child | child ∈ tree.next item}.Finite := by
          cases tree.next item <;> simp
        exact hnext.biUnion fun child hchild ↦ ih (h item hitem child hchild)
      refine (hbelow.insert node).subset fun below hleads ↦ ?_
      rcases Relation.ReflTransGen.cases_head hleads with rfl | ⟨child, ⟨item, hitem, hchild⟩, hrest⟩
      · exact Set.mem_insert _ _
      · refine Set.mem_insert_of_mem _ ?_
        simp only [Set.mem_iUnion]
        exact ⟨item, hitem, child, hchild, hrest⟩

end Unfolding
