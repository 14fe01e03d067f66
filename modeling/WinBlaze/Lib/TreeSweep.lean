import Mathlib.Algebra.BigOperators.Group.Finset.Basic
import Mathlib.Algebra.BigOperators.Group.Finset.Piecewise
import Mathlib.Algebra.BigOperators.Group.Finset.Sigma
import Mathlib.Data.List.Induction
import WinBlaze.Lib.ParentChain

/-!
# Totals of a tree by a reverse sweep

Nodes are numbers below a bound, each with at most one parent. A breadth-first
search from the root meets every node behind its parent, so going through its
order backwards and adding every node's value to its parent's gives each node
the sum over everything beneath it.
-/

namespace TreeSweep

open ParentChain

/-- The children of a node are the nodes with this parent. -/
structure Forest (n : ℕ) (parent : ℕ → Option ℕ) (children : ℕ → List ℕ) : Prop where
  mem_iff : ∀ p c, c ∈ children p ↔ c < n ∧ parent c = some p
  nodup : ∀ p, (children p).Nodup
  bound : ∀ c p, parent c = some p → p < n

/-! ## The search -/

structure Search where
  order : List ℕ
  /-- The parent of every node met so far. -/
  parentOf : List ℕ

def Search.push (current : ℕ) (search : Search) (child : ℕ) : Search where
  order := search.order ++ [child]
  parentOf := search.parentOf.set child current

def Search.visit (children : ℕ → List ℕ) (search : Search) (current : ℕ) : Search :=
  (children current).foldl (Search.push current) search

/-- Visits the nodes of the order from `cursor` on; `none` when there are more
than `fuel`. -/
def Search.run (children : ℕ → List ℕ) (fuel cursor : ℕ) (search : Search) : Option Search :=
  match search.order[cursor]? with
  | none => some search
  | some current =>
      match fuel with
      | 0 => none
      | fuel + 1 => Search.run children fuel (cursor + 1) (search.visit children current)

/-- Up to `cursor` the nodes of the order have been visited. -/
structure Explored (n : ℕ) (children : ℕ → List ℕ) (root sentinel cursor : ℕ) (search : Search) :
    Prop where
  order : search.order = root :: (search.order.take cursor).flatMap children
  bound : ∀ node ∈ search.order, node < n
  nodup : search.order.Nodup
  /-- No node comes before one of its parents. -/
  behind : search.order.Pairwise (fun a b ↦ a ∉ children b)
  length : search.parentOf.length = n
  parents : ∀ p c, p ∈ search.order.take cursor → c ∈ children p → search.parentOf[c]? = some p
  untouched : search.parentOf[root]? = some sentinel

theorem order_visit (children : ℕ → List ℕ) (search : Search) (current : ℕ) :
    (search.visit children current).order = search.order ++ children current := by
  rw [Search.visit]
  generalize children current = met
  induction met generalizing search with
  | nil => exact (List.append_nil _).symm
  | cons child rest ih =>
      rw [List.foldl_cons, ih, Search.push, List.append_assoc]
      rfl

theorem getElem?_set_map (l : List ℕ) (i value k : ℕ) :
    (l.set i value)[k]? = l[k]?.map (fun old ↦ if i = k then value else old) := by
  by_cases h : i = k
  · subst h
    by_cases hi : i < l.length <;> simp [hi]
  · simp [List.getElem?_set_ne h, h]

theorem parentOf_visit (children : ℕ → List ℕ) (search : Search) (current node : ℕ) :
    (search.visit children current).parentOf[node]? =
      search.parentOf[node]?.map (fun old ↦ if node ∈ children current then current else old) := by
  rw [Search.visit]
  generalize children current = met
  induction met generalizing search with
  | nil => simp
  | cons child rest ih =>
      rw [List.foldl_cons, ih, Search.push, getElem?_set_map, Option.map_map]
      refine congrFun (congrArg _ (funext fun old ↦ ?_)) _
      by_cases hrest : node ∈ rest
      · simp [hrest]
      · by_cases hchild : child = node
        · simp [hchild]
        · simp [hrest, hchild, Ne.symm hchild]

theorem length_parentOf_visit (children : ℕ → List ℕ) (search : Search) (current : ℕ) :
    (search.visit children current).parentOf.length = search.parentOf.length := by
  rw [Search.visit]
  generalize children current = met
  induction met generalizing search with
  | nil => rfl
  | cons child rest ih =>
      rw [List.foldl_cons, ih, Search.push]
      exact List.length_set

section Explore

variable {n : ℕ} {parent : ℕ → Option ℕ} {children : ℕ → List ℕ} {root sentinel cursor : ℕ}
  {search : Search}

/-- A node of the order other than the root is a child of a visited node. -/
theorem Explored.exists_parent (h : Explored n children root sentinel cursor search) {node : ℕ}
    (hnode : node ∈ search.order) (hne : node ≠ root) :
    ∃ p ∈ search.order.take cursor, node ∈ children p := by
  rw [h.order] at hnode
  rcases List.mem_cons.mp hnode with hroot | hchild
  · exact (hne hroot).elim
  · exact List.mem_flatMap.mp hchild

/-- Children of the next node are new. -/
theorem Explored.fresh (h : Explored n children root sentinel cursor search)
    (hforest : Forest n parent children) (hroot : parent root = none) {current child : ℕ}
    (hcurrent : search.order[cursor]? = some current) (hchild : child ∈ children current) :
    child ∉ search.order := by
  intro hmem
  have hparent := ((hforest.mem_iff current child).mp hchild).2
  have hne : child ≠ root := by
    rintro rfl
    rw [hroot] at hparent
    cases hparent
  obtain ⟨p, hp, hchildOf⟩ := h.exists_parent hmem hne
  have hsame : p = current := by
    have hother := ((hforest.mem_iff p child).mp hchildOf).2
    exact Option.some.inj (hother.symm.trans hparent)
  obtain ⟨i, hi, heq⟩ := List.mem_take_iff_getElem.mp hp
  obtain ⟨hcursor, hat⟩ := List.getElem?_eq_some_iff.mp hcurrent
  have hindex : i = cursor := by
    apply (List.Nodup.getElem_inj_iff h.nodup).mp
    rw [heq, hsame, hat]
  omega

/-- Visiting the next node. -/
theorem Explored.visit (h : Explored n children root sentinel cursor search)
    (hforest : Forest n parent children) (hroot : parent root = none) {current : ℕ}
    (hcurrent : search.order[cursor]? = some current) :
    Explored n children root sentinel (cursor + 1) (search.visit children current) := by
  obtain ⟨hcursor, hat⟩ := List.getElem?_eq_some_iff.mp hcurrent
  have hfresh : ∀ child ∈ children current, child ∉ search.order := fun child hchild ↦
    h.fresh hforest hroot hcurrent hchild
  have htake : (search.visit children current).order.take (cursor + 1) =
      search.order.take cursor ++ [current] := by
    rw [order_visit, List.take_append_of_le_length hcursor, List.take_succ_eq_append_getElem hcursor,
      hat]
  refine ⟨?_, ?_, ?_, ?_, ?_, ?_, ?_⟩
  · rw [htake, List.flatMap_append, List.flatMap_singleton, ← List.cons_append, ← h.order, order_visit]
  · intro node hnode
    rw [order_visit] at hnode
    rcases List.mem_append.mp hnode with hold | hnew
    · exact h.bound node hold
    · exact ((hforest.mem_iff current node).mp hnew).1
  · rw [order_visit, List.nodup_append]
    refine ⟨h.nodup, hforest.nodup current, ?_⟩
    rintro node hold child hnew rfl
    exact hfresh node hnew hold
  · rw [order_visit, List.pairwise_append]
    have hsame : ∀ a b, a ∈ children b → ∀ p, a ∈ children p → p = b := by
      intro a b hb p hp
      exact Option.some.inj (((hforest.mem_iff p a).mp hp).2.symm.trans ((hforest.mem_iff b a).mp hb).2)
    refine ⟨h.behind, ?_, ?_⟩
    · refine (hforest.nodup current).imp_of_mem fun {a b} ha hb _ hchild ↦ ?_
      apply hfresh b hb
      rw [← hsame a b hchild current ha, ← hat]
      exact List.getElem_mem hcursor
    · intro a ha b hb hchild
      have hne : a ≠ root := by
        rintro rfl
        have hparent := ((hforest.mem_iff b a).mp hchild).2
        rw [hroot] at hparent
        cases hparent
      obtain ⟨p, hp, hchildOf⟩ := h.exists_parent ha hne
      apply hfresh b hb
      rw [← hsame a b hchild p hchildOf]
      exact List.mem_of_mem_take hp
  · rw [length_parentOf_visit, h.length]
  · intro p c hp hc
    rw [htake] at hp
    obtain ⟨hbound, hparent⟩ := (hforest.mem_iff p c).mp hc
    have hlt : c < search.parentOf.length := h.length.symm ▸ hbound
    obtain ⟨old, hold⟩ : ∃ old, search.parentOf[c]? = some old := ⟨_, List.getElem?_eq_getElem hlt⟩
    rw [parentOf_visit, hold, Option.map_some]
    by_cases hnew : c ∈ children current
    · have hcurrentParent := ((hforest.mem_iff current c).mp hnew).2
      rw [if_pos hnew, ← hparent, hcurrentParent]
    · rw [if_neg hnew, ← hold]
      rcases List.mem_append.mp hp with hvisited | hlast
      · exact h.parents p c hvisited hc
      · rw [List.mem_singleton.mp hlast] at hc
        exact (hnew hc).elim
  · rw [parentOf_visit, h.untouched, Option.map_some, if_neg]
    intro hmem
    have hparent := ((hforest.mem_iff current root).mp hmem).2
    rw [hroot] at hparent
    cases hparent

/-- The order holds every node at most once, so the search ends. -/
theorem Explored.run (h : Explored n children root sentinel cursor search)
    (hforest : Forest n parent children) (hroot : parent root = none) {fuel : ℕ}
    (hfuel : n ≤ fuel + cursor) :
    ∃ result, search.run children fuel cursor = some result ∧
      Explored n children root sentinel result.order.length result := by
  induction fuel generalizing cursor search with
  | zero =>
      have hlength : search.order.length ≤ n := by
        have hsubset : search.order ⊆ List.range n := fun node hnode ↦
          List.mem_range.mpr (h.bound node hnode)
        have hle := (List.subperm_of_subset h.nodup hsubset).length_le
        rwa [List.length_range] at hle
      have hend : search.order[cursor]? = none := List.getElem?_eq_none (by omega)
      have htake : search.order.take cursor = search.order.take search.order.length := by
        rw [List.take_length, List.take_of_length_le (by omega)]
      refine ⟨search, by rw [Search.run, hend], ?_⟩
      exact ⟨htake ▸ h.order, h.bound, h.nodup, h.behind, h.length, htake ▸ h.parents, h.untouched⟩
  | succ fuel ih =>
      rw [Search.run]
      cases hcurrent : search.order[cursor]? with
      | some current => exact ih (h.visit hforest hroot hcurrent) (by omega)
      | none =>
          have hlength := List.getElem?_eq_none_iff.mp hcurrent
          have htake : search.order.take cursor = search.order.take search.order.length := by
            rw [List.take_length, List.take_of_length_le hlength]
          exact ⟨search, rfl, htake ▸ h.order, h.bound, h.nodup, h.behind, h.length, htake ▸ h.parents,
            h.untouched⟩

theorem explored_start (hroot : root < n) :
    Explored n children root sentinel 0 ⟨[root], List.replicate n sentinel⟩ := by
  refine ⟨rfl, ?_, List.nodup_singleton root, List.pairwise_singleton _ root,
    List.length_replicate, ?_, ?_⟩
  · intro node hnode
    rw [List.mem_singleton.mp hnode]
    exact hroot
  · intro p c hp
    cases hp
  · rw [List.getElem?_replicate, if_pos hroot]

/-- A node whose chain of parents leads to the root is met. -/
theorem Explored.mem_of_ancestor (h : Explored n children root sentinel search.order.length search)
    (hforest : Forest n parent children) {node : ℕ} (hnode : node < n) {k : ℕ}
    (hancestor : ancestor parent k node = some root) : node ∈ search.order := by
  have horder := h.order
  rw [List.take_length] at horder
  induction k generalizing node with
  | zero =>
      rw [ancestor_zero] at hancestor
      rw [Option.some.inj hancestor, horder]
      exact List.mem_cons_self
  | succ k ih =>
      cases hparent : parent node with
      | none =>
          rw [ancestor_succ_of_none hparent] at hancestor
          cases hancestor
      | some p =>
          rw [ancestor_succ_of_some hparent] at hancestor
          have hmet := ih (hforest.bound node p hparent) hancestor
          rw [horder]
          apply List.mem_cons_of_mem
          exact List.mem_flatMap.mpr ⟨p, hmet, (hforest.mem_iff p node).mpr ⟨hnode, hparent⟩⟩

end Explore

/-! ## What is beneath a node -/

section Beneath

variable {n : ℕ} {parent : ℕ → Option ℕ} {children : ℕ → List ℕ}

/-- Following parents from `node` leads to `top`, at once or later. -/
def Beneath (parent : ℕ → Option ℕ) (top node : ℕ) : Prop := ∃ k, ancestor parent k node = some top

/-- Following parents from `node` leads to `top`, but not at once. -/
def StrictlyBeneath (parent : ℕ → Option ℕ) (top node : ℕ) : Prop :=
  ∃ k, ancestor parent (k + 1) node = some top

open Classical in
/-- The nodes beneath a node, itself included. -/
noncomputable def subtree (n : ℕ) (parent : ℕ → Option ℕ) (top : ℕ) : Finset ℕ :=
  (Finset.range n).filter (Beneath parent top)

open Classical in
noncomputable def descendants (n : ℕ) (parent : ℕ → Option ℕ) (top : ℕ) : Finset ℕ :=
  (Finset.range n).filter (StrictlyBeneath parent top)

theorem mem_subtree_iff {top node : ℕ} :
    node ∈ subtree n parent top ↔ node < n ∧ Beneath parent top node := by
  simp [subtree]

theorem mem_descendants_iff {top node : ℕ} :
    node ∈ descendants n parent top ↔ node < n ∧ StrictlyBeneath parent top node := by
  simp [descendants]

/-- What is strictly beneath a node is beneath one of its children. -/
theorem strictlyBeneath_iff {top node : ℕ} :
    StrictlyBeneath parent top node ↔
      ∃ child, parent child = some top ∧ Beneath parent child node := by
  constructor
  · rintro ⟨k, hk⟩
    rw [ancestor_succ] at hk
    obtain ⟨child, hchild, htop⟩ := Option.bind_eq_some_iff.mp hk
    exact ⟨child, htop, k, hchild⟩
  · rintro ⟨child, htop, k, hk⟩
    exact ⟨k, by rw [ancestor_succ, hk, Option.bind_some, htop]⟩

theorem beneath_iff {top node : ℕ} :
    Beneath parent top node ↔ node = top ∨ StrictlyBeneath parent top node := by
  constructor
  · rintro ⟨k, hk⟩
    cases k with
    | zero => exact Or.inl (Option.some.inj hk)
    | succ k => exact Or.inr ⟨k, hk⟩
  · rintro (rfl | ⟨k, hk⟩)
    · exact ⟨0, rfl⟩
    · exact ⟨k + 1, hk⟩

/-- Where chains end, a node is beneath at most one of two siblings. -/
theorem eq_of_beneath_siblings (hends : ∀ node, Ends parent node) {top first second node : ℕ}
    (hfirst : parent first = some top) (hsecond : parent second = some top)
    (hbeneath : Beneath parent first node) (hother : Beneath parent second node) :
    first = second := by
  have hle : ∀ {a b k l : ℕ}, parent a = some top → parent b = some top →
      ancestor parent k node = some a → ancestor parent l node = some b → k ≤ l → a = b := by
    intro a b k l ha hb hk hl hkl
    obtain ⟨m, rfl⟩ := Nat.exists_eq_add_of_le hkl
    rw [ancestor_add, hk, Option.bind_some] at hl
    cases m with
    | zero => exact Option.some.inj hl
    | succ m =>
        -- From `a` through `top` to `b` and back to `top` is a cycle.
        rw [ancestor_succ_of_some ha] at hl
        have hcycle : OnCycle parent top :=
          ⟨m, by rw [ancestor_succ, hl, Option.bind_some, hb]⟩
        exact (hcycle.not_ends (hends top)).elim
  obtain ⟨k, hk⟩ := hbeneath
  obtain ⟨l, hl⟩ := hother
  rcases Nat.le_total k l with hkl | hlk
  · exact hle hfirst hsecond hk hl hkl
  · exact (hle hsecond hfirst hl hk hlk).symm

theorem descendants_eq (hforest : Forest n parent children) (top : ℕ) :
    descendants n parent top = (children top).toFinset.biUnion (subtree n parent) := by
  ext node
  rw [mem_descendants_iff, strictlyBeneath_iff]
  simp only [Finset.mem_biUnion, List.mem_toFinset, hforest.mem_iff, mem_subtree_iff]
  constructor
  · rintro ⟨hnode, child, htop, hbeneath⟩
    refine ⟨child, ⟨?_, htop⟩, hnode, hbeneath⟩
    obtain ⟨k, hk⟩ := hbeneath
    cases k with
    | zero => exact Option.some.inj hk ▸ hnode
    | succ k =>
        rw [ancestor_succ] at hk
        obtain ⟨below, -, hchild⟩ := Option.bind_eq_some_iff.mp hk
        exact hforest.bound below child hchild
  · rintro ⟨child, ⟨-, htop⟩, hnode, hbeneath⟩
    exact ⟨hnode, child, htop, hbeneath⟩

theorem subtree_eq {top : ℕ} (htop : top < n) :
    subtree n parent top = insert top (descendants n parent top) := by
  ext node
  rw [mem_subtree_iff, beneath_iff, Finset.mem_insert, mem_descendants_iff]
  constructor
  · rintro ⟨hnode, rfl | hstrict⟩
    · exact Or.inl rfl
    · exact Or.inr ⟨hnode, hstrict⟩
  · rintro (rfl | ⟨hnode, hstrict⟩)
    · exact ⟨htop, Or.inl rfl⟩
    · exact ⟨hnode, Or.inr hstrict⟩

theorem card_descendants_le (top : ℕ) : (descendants n parent top).card ≤ n := by
  classical
  exact (Finset.card_filter_le _ _).trans (Finset.card_range n).le

theorem notMem_descendants_self (hends : ∀ node, Ends parent node) (top : ℕ) :
    top ∉ descendants n parent top := by
  rw [mem_descendants_iff]
  rintro ⟨-, hcycle⟩
  exact OnCycle.not_ends hcycle (hends top)

end Beneath

/-! ## The sweep -/

section Sweep

variable {M : Type*} [AddCommMonoid M] {n : ℕ} {parent : ℕ → Option ℕ} {children : ℕ → List ℕ}
  {root sentinel : ℕ} {search : Search} {direct : ℕ → M} {mark : M}

/-- Adds a node's value and `mark` to the value of its parent, if it has one. -/
def sweepStep (mark : M) (sentinel : ℕ) (parentOf : List ℕ) (values : List M) (node : ℕ) : List M :=
  match parentOf[node]? with
  | some p => if p = sentinel then values else values.modify p (· + (values.getD node 0 + mark))
  | none => values

def sweep (mark : M) (sentinel : ℕ) (search : Search) (values : List M) : List M :=
  search.order.reverse.foldl (sweepStep mark sentinel search.parentOf) values

/-- The node's own value, and the values and marks of all descendants. -/
noncomputable def total (n : ℕ) (parent : ℕ → Option ℕ) (direct : ℕ → M) (mark : M) (top : ℕ) : M :=
  direct top + ∑ node ∈ descendants n parent top, (direct node + mark)

theorem total_eq (hforest : Forest n parent children) (hends : ∀ node, Ends parent node) (top : ℕ) :
    total n parent direct mark top =
      direct top + ((children top).map (fun child ↦ total n parent direct mark child + mark)).sum := by
  have hdisjoint : ((children top).toFinset : Set ℕ).PairwiseDisjoint (subtree n parent) := by
    intro first hfirst second hsecond hne
    refine Finset.disjoint_left.mpr fun node hnode hother ↦ hne ?_
    have hparent : ∀ child ∈ (children top).toFinset, parent child = some top := fun child hchild ↦
      ((hforest.mem_iff top child).mp (List.mem_toFinset.mp hchild)).2
    exact eq_of_beneath_siblings hends (hparent first hfirst) (hparent second hsecond)
      (mem_subtree_iff.mp hnode).2 (mem_subtree_iff.mp hother).2
  have hchild : ∀ child ∈ (children top).toFinset, ∑ node ∈ subtree n parent child,
      (direct node + mark) = total n parent direct mark child + mark := by
    intro child hmem
    have hlt := ((hforest.mem_iff top child).mp (List.mem_toFinset.mp hmem)).1
    rw [subtree_eq hlt, Finset.sum_insert (notMem_descendants_self hends child), total]
    exact add_right_comm _ _ _
  rw [total, descendants_eq hforest, Finset.sum_biUnion hdisjoint, Finset.sum_congr rfl hchild,
    List.sum_toFinset _ (hforest.nodup top)]

theorem total_eq_sum_subtree (hends : ∀ node, Ends parent node) {top : ℕ} (htop : top < n) :
    total n parent direct mark top =
      ∑ node ∈ subtree n parent top, direct node + (descendants n parent top).card • mark := by
  rw [total, Finset.sum_add_distrib, Finset.sum_const, ← add_assoc, subtree_eq htop,
    Finset.sum_insert (notMem_descendants_self hends top)]

open Classical in
/-- Summing the elements of each of some buckets sums the elements of all of them. -/
theorem sum_buckets {α : Type*} (key : α → Option ℕ) (value : α → M) (elements : List α)
    (buckets : Finset ℕ) :
    ∑ bucket ∈ buckets, ((elements.filter (fun element ↦ key element = some bucket)).map value).sum =
      ((elements.filter (fun element ↦ ∃ bucket ∈ buckets, key element = some bucket)).map value).sum := by
  induction elements with
  | nil => simp
  | cons element rest ih =>
      have hcons : ∀ p : α → Bool, (((element :: rest).filter p).map value).sum =
          (if p element then value element else 0) + ((rest.filter p).map value).sum := by
        intro p
        by_cases h : p element <;> simp [h]
      simp only [hcons, Finset.sum_add_distrib, ih]
      refine congrArg (· + _) ?_
      cases hkey : key element with
      | none => simp
      | some own =>
          simp

/-- The nodes of `swept` have been added to their parents. -/
def SweptFrom (n : ℕ) (parent : ℕ → Option ℕ) (direct : ℕ → M) (mark : M) (swept : List ℕ)
    (values : List M) : Prop :=
  ∀ i < n, values[i]? = some (direct i +
    ((swept.filter (fun node ↦ parent node = some i)).map
      (fun node ↦ total n parent direct mark node + mark)).sum)

/-- Once all children of a node have been added, its value is its total. -/
theorem SweptFrom.total_of_children (hforest : Forest n parent children)
    (hends : ∀ node, Ends parent node) {swept : List ℕ} {values : List M}
    (h : SweptFrom n parent direct mark swept values) (hnodup : swept.Nodup)
    (hbound : ∀ node ∈ swept, node < n) {i : ℕ} (hi : i < n) (hchildren : ∀ c ∈ children i, c ∈ swept) :
    values[i]? = some (total n parent direct mark i) := by
  have hperm : (swept.filter (fun node ↦ parent node = some i)).Perm (children i) := by
    apply (List.perm_ext_iff_of_nodup (hnodup.filter _) (hforest.nodup i)).mpr
    intro node
    rw [List.mem_filter, hforest.mem_iff]
    constructor
    · rintro ⟨hmem, hparent⟩
      exact ⟨hbound node hmem, of_decide_eq_true hparent⟩
    · rintro ⟨hlt, hparent⟩
      exact ⟨hchildren node ((hforest.mem_iff i node).mpr ⟨hlt, hparent⟩), decide_eq_true hparent⟩
  rw [h i hi, total_eq hforest hends, (hperm.map _).sum_eq]

theorem SweptFrom.sweepStep (hforest : Forest n parent children) (hends : ∀ node, Ends parent node)
    (hroot : parent root = none) (hsentinel : n ≤ sentinel)
    (hexplored : Explored n children root sentinel search.order.length search) {front swept : List ℕ}
    {node : ℕ} (horder : search.order = front ++ node :: swept) {values : List M}
    (h : SweptFrom n parent direct mark swept values) :
    SweptFrom n parent direct mark (node :: swept)
      (sweepStep mark sentinel search.parentOf values node) := by
  have hmem : ∀ other ∈ node :: swept, other ∈ search.order := fun other hother ↦ by
    rw [horder]
    exact List.mem_append_right _ hother
  have hnodup : (node :: swept).Nodup := by
    have hall := hexplored.nodup
    rw [horder] at hall
    exact (List.nodup_append.mp hall).2.1
  have hlt : ∀ other ∈ node :: swept, other < n := fun other hother ↦
    hexplored.bound other (hmem other hother)
  have hall := hexplored.order
  rw [List.take_length] at hall
  have hchildren : ∀ c ∈ children node, c ∈ swept := by
    intro c hc
    have hmet : c ∈ search.order := by
      rw [hall]
      apply List.mem_cons_of_mem
      exact List.mem_flatMap.mpr ⟨node, hmem node List.mem_cons_self, hc⟩
    rw [horder] at hmet
    rcases List.mem_append.mp hmet with hfront | hrest
    · have hbehind := hexplored.behind
      rw [horder, List.pairwise_append] at hbehind
      exact (hbehind.2.2 c hfront node List.mem_cons_self hc).elim
    · rcases List.mem_cons.mp hrest with rfl | hswept
      · have hcycle : OnCycle parent c :=
          ⟨0, by rw [ancestor_succ_of_some ((hforest.mem_iff c c).mp hc).2, ancestor_zero]⟩
        exact (hcycle.not_ends (hends c)).elim
      · exact hswept
  have htotal := h.total_of_children hforest hends (List.nodup_cons.mp hnodup).2
    (fun other hother ↦ hlt other (List.mem_cons_of_mem node hother)) (hlt node List.mem_cons_self)
    hchildren
  rw [TreeSweep.sweepStep]
  by_cases hisRoot : node = root
  · rw [hisRoot, hexplored.untouched]
    dsimp only
    rw [if_pos rfl]
    intro i hi
    rw [h i hi, List.filter_cons_of_neg]
    simp [hroot]
  · obtain ⟨p, hp, hchild⟩ := hexplored.exists_parent (hmem node List.mem_cons_self) hisRoot
    have hparent := ((hforest.mem_iff p node).mp hchild).2
    have hpLt := hforest.bound node p hparent
    rw [hexplored.parents p node hp hchild]
    dsimp only
    rw [if_neg (by omega), List.getD_eq_getElem?_getD, htotal, Option.getD_some]
    intro i hi
    rw [List.getElem?_modify, h i hi, Option.map_eq_map, Option.map_some]
    by_cases hip : p = i
    · rw [if_pos hip, List.filter_cons_of_pos (by simp [hparent, hip]), List.map_cons, List.sum_cons,
        add_assoc, add_comm (List.sum _)]
    · have hne : ¬ (parent node = some i) := by
        rw [hparent]
        exact fun heq ↦ hip (Option.some.inj heq)
      rw [if_neg hip, List.filter_cons_of_neg (by simp [hne])]

/-- The sweep gives every node it meets its total, and leaves the others alone. -/
theorem sweep_eq_total (hforest : Forest n parent children) (hends : ∀ node, Ends parent node)
    (hroot : parent root = none) (hsentinel : n ≤ sentinel)
    (hexplored : Explored n children root sentinel search.order.length search) {values : List M}
    (hvalues : ∀ i < n, values[i]? = some (direct i)) {i : ℕ} (hi : i ∈ search.order) :
    (sweep mark sentinel search values)[i]? = some (total n parent direct mark i) := by
  have hswept : ∀ front swept, search.order = front ++ swept →
      SweptFrom n parent direct mark swept
        (swept.foldr (fun node values ↦ sweepStep mark sentinel search.parentOf values node) values) := by
    intro front swept
    induction swept generalizing front with
    | nil =>
        intro _ j hj
        rw [List.foldr_nil, hvalues j hj]
        simp
    | cons node swept ih =>
        intro horder
        rw [List.foldr_cons]
        refine SweptFrom.sweepStep hforest hends hroot hsentinel hexplored horder ?_
        apply ih (front ++ [node])
        rw [horder, List.append_assoc]
        rfl
  have hall := hexplored.order
  rw [List.take_length] at hall
  rw [sweep, List.foldl_reverse]
  refine (hswept [] search.order rfl).total_of_children hforest hends hexplored.nodup
    hexplored.bound (hexplored.bound i hi) fun c hc ↦ ?_
  rw [hall]
  apply List.mem_cons_of_mem
  exact List.mem_flatMap.mpr ⟨i, hi, hc⟩

end Sweep

/-! ## A tree inside another -/

section Embed

variable {M : Type*} [AddCommMonoid M] {m n : ℕ} {parent other : ℕ → Option ℕ} {f : ℕ → ℕ}

/-- The children of the images of nodes below `m` are the images of their children. -/
structure Embeds (m : ℕ) (parent other : ℕ → Option ℕ) (f : ℕ → ℕ) : Prop where
  bound : ∀ child node, parent child = some node → child < m
  children : ∀ node < m, ∀ place,
    other place = some (f node) ↔ ∃ child, place = f child ∧ parent child = some node

theorem Embeds.ancestor_iff (h : Embeds m parent other f) (k : ℕ) {top : ℕ} (htop : top < m)
    (place : ℕ) : ancestor other k place = some (f top) ↔
      ∃ node, place = f node ∧ ancestor parent k node = some top := by
  induction k generalizing top with
  | zero =>
      constructor
      · exact fun hplace ↦ ⟨top, Option.some.inj hplace, rfl⟩
      · rintro ⟨node, rfl, hnode⟩
        rw [Option.some.inj hnode, ancestor_zero]
  | succ k ih =>
      simp only [ancestor_succ, Option.bind_eq_some_iff]
      constructor
      · rintro ⟨above, habove, htopOf⟩
        obtain ⟨child, rfl, hchild⟩ := (h.children top htop above).mp htopOf
        obtain ⟨node, hplace, hnode⟩ := (ih (h.bound child top hchild)).mp habove
        exact ⟨node, hplace, child, hnode, hchild⟩
      · rintro ⟨node, hplace, child, hnode, hchild⟩
        refine ⟨f child, (ih (h.bound child top hchild)).mpr ⟨node, hplace, hnode⟩, ?_⟩
        exact (h.children top htop _).mpr ⟨child, rfl, hchild⟩

theorem Embeds.descendants_eq (h : Embeds m parent other f) (hf : ∀ node < m, f node < n) {top : ℕ}
    (htop : top < m) : descendants n other (f top) = (descendants m parent top).image f := by
  ext place
  simp only [Finset.mem_image, mem_descendants_iff]
  constructor
  · rintro ⟨-, k, hk⟩
    obtain ⟨node, hplace, hnode⟩ := (h.ancestor_iff (k + 1) htop place).mp hk
    obtain ⟨above, habove, -⟩ := Option.bind_eq_some_iff.mp hnode
    exact ⟨node, ⟨h.bound node above habove, k, hnode⟩, hplace.symm⟩
  · rintro ⟨node, ⟨hlt, k, hk⟩, rfl⟩
    exact ⟨hf node hlt, k, (h.ancestor_iff (k + 1) htop _).mpr ⟨node, rfl, hk⟩⟩

/-- A node's total is that of its image when what they have themselves is the same. -/
theorem Embeds.total_eq (h : Embeds m parent other f) (hf : ∀ node < m, f node < n)
    (hinj : Function.Injective f) {direct directOther : ℕ → M}
    (hdirect : ∀ node < m, directOther (f node) = direct node) (mark : M) {top : ℕ} (htop : top < m) :
    total n other directOther mark (f top) = total m parent direct mark top := by
  rw [total, total, h.descendants_eq hf htop, hdirect top htop,
    Finset.sum_image fun a _ b _ heq ↦ hinj heq]
  refine congrArg _ (Finset.sum_congr rfl fun node hnode ↦ ?_)
  rw [hdirect node (mem_descendants_iff.mp hnode).1]

end Embed

end TreeSweep
