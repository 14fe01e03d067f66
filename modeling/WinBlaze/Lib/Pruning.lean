import WinBlaze.Lib.Unfolding

/-!
# Trees without some of their branches

Branches that bring only what a test rejects can be cut off: the tree that is left brings what the
test accepts of the whole tree.
-/

namespace Unfolding

variable {V O α : Type*} {tree : Unfolding V O} {own : V → O → Multiset α}

theorem exists_of_mem_sum {parts : List (Multiset α)} {a : α} (h : a ∈ parts.sum) :
    ∃ part ∈ parts, a ∈ part := by
  induction parts with
  | nil => exact absurd h (Multiset.notMem_zero a)
  | cons part rest ih =>
      rw [List.sum_cons, Multiset.mem_add] at h
      rcases h with hpart | hrest
      · exact ⟨part, List.mem_cons_self, hpart⟩
      · obtain ⟨other, hother, ha⟩ := ih hrest
        exact ⟨other, List.mem_cons_of_mem _ hother, ha⟩

/-- What is found below a node is that of an item of a node it leads to. -/
theorem exists_of_mem_gather {depth : ℕ} {node : V} {a : α} (h : a ∈ tree.gather own depth node) :
    ∃ below, Relation.ReflTransGen tree.Leads node below ∧ ∃ item ∈ tree.items below,
      a ∈ own below item := by
  induction depth generalizing node with
  | zero => exact absurd h (Multiset.notMem_zero a)
  | succ depth ih =>
      obtain ⟨found, hfound, ha⟩ := exists_of_mem_sum h
      obtain ⟨item, hitem, rfl⟩ := List.mem_map.mp hfound
      rcases Multiset.mem_add.mp ha with hown | hbelow
      · exact ⟨node, .refl, item, hitem, hown⟩
      · cases hnext : tree.next item with
        | none =>
            rw [hnext] at hbelow
            exact absurd hbelow (Multiset.notMem_zero a)
        | some child =>
            rw [hnext] at hbelow
            obtain ⟨below, hleads, hitems⟩ := ih hbelow
            exact ⟨below, .head ⟨item, hitem, hnext⟩ hleads, hitems⟩

theorem gather_mono [AddCommMonoid α] {sum : V → O → α} {depth deeper : ℕ} {node : V}
    (h : tree.DepthAtMost depth node) (hle : depth ≤ deeper) :
    tree.gather sum deeper node = tree.gather sum depth node := by
  induction hle with
  | refl => rfl
  | step hmore ih => exact (gather_succ (h.mono hmore)).trans ih

/-- The tree with `cut` in place of each item. -/
structure Prunes (tree pruned : Unfolding V O) (own : V → O → Multiset α) (accepted : α → Prop)
    (cut : V → O → O) : Prop where
  items : ∀ node, pruned.items node = (tree.items node).map (cut node)
  /-- An item is left as it is, or brings nothing any more, and brought nothing that is accepted. -/
  cases : ∀ node, ∀ item ∈ tree.items node,
    (cut node item = item ∧ pruned.next item = tree.next item ∧ ∀ a ∈ own node item, accepted a) ∨
    (own node (cut node item) = 0 ∧ pruned.next (cut node item) = none ∧
      ∀ depth, ∀ a ∈ tree.below own depth node item, ¬ accepted a)

theorem Prunes.gather_eq {pruned : Unfolding V O} {accepted : α → Prop} [DecidablePred accepted]
    {cut : V → O → O} (h : Prunes tree pruned own accepted cut) (depth : ℕ) (node : V) :
    pruned.gather own depth node = (tree.gather own depth node).filter accepted := by
  have hsum : ∀ parts : List (Multiset α), parts.sum.filter accepted =
      (parts.map (Multiset.filter accepted)).sum := by
    intro parts
    induction parts with
    | nil => rfl
    | cons part rest ih => rw [List.sum_cons, Multiset.filter_add, ih, List.map_cons, List.sum_cons]
  induction depth generalizing node with
  | zero => rfl
  | succ depth ih =>
      unfold gather
      rw [h.items, hsum, List.map_map, List.map_map]
      refine congrArg List.sum (List.map_congr_left fun item hitem ↦ ?_)
      simp only [Function.comp_apply]
      rcases h.cases node item hitem with ⟨hcut, hnext, hown⟩ | ⟨hown, hnext, hbelow⟩
      · rw [hcut, hnext, Multiset.filter_add, Multiset.filter_eq_self.mpr hown]
        cases tree.next item with
        | none => rfl
        | some child => rw [Option.elim_some, Option.elim_some, ih]
      · rw [hown, hnext]
        exact (Multiset.filter_eq_nil.mpr (hbelow depth)).symm

end Unfolding
