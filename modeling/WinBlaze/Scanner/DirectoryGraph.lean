import Mathlib.Data.Fintype.Card
import Mathlib.Order.Interval.Finset.Nat
import Mathlib.Order.Lattice.Nat
import WinBlaze.Scanner.DirectoryTree

/-!
# Directories with links between them

The directories of a disk are finitely many, but a link may lead anywhere, and
so the paths through them are not. A walk follows a link only to a target that
is not among the ancestors, and with its target among them from then on; between
two links it goes down.
-/

namespace WinBlaze

/-- A static graph of the directories `D` as the walk reads it. A directory in
another one that is no link is on a deeper level, and a link that can be
resolved resolves to the canonical path of its target. -/
structure DirectoryGraph {P N : Type*} (source : WalkSource P N) (D : Type*) where
  /-- The directory a path leads to, through links or not. -/
  locate : P → Option D
  contents : D → Option (List (Option (FindEntry N)))
  canonicalPath : D → P
  level : D → ℕ
  readDir_eq : ∀ path, source.readDir path = (locate path).bind contents
  nested : ∀ path directory entries (entry : FindEntry N) child, locate path = some directory →
    contents directory = some entries → some entry ∈ entries → entry.attributes.isDirectory = true →
      entry.attributes.isReparsePoint = false → locate (source.join path entry.name) = some child →
        level directory < level child
  linked : ∀ path directory entries (entry : FindEntry N) resolved, locate path = some directory →
    contents directory = some entries → some entry ∈ entries → entry.attributes.isDirectory = true →
      entry.attributes.isReparsePoint = true →
        source.canonicalize (source.join path entry.name) = some resolved →
          ∃ target, locate (source.join path entry.name) = some target ∧
            source.stripVerbatimPrefix resolved = canonicalPath target

section Descent

variable {P N : Type*} [DecidableEq P] {source : WalkSource P N}

/-- What a descent adds to the chain: a path below a plain directory when the
chain is in use, and below a link its target, which was not there. -/
theorem evaluateReparseDescent_follow {directory path : P} {name : N} {attributes : FileAttributes}
    {ancestors chain : AncestorChain P}
    (h : evaluateReparseDescent source directory path name attributes ancestors = .follow chain) :
    attributes.isReparsePoint = false ∧
        (chain = ancestors ∨ ∃ canonical, chain = canonical :: ancestors) ∨
      ∃ resolved, attributes.isReparsePoint = true ∧ source.canonicalize path = some resolved ∧
        source.stripVerbatimPrefix resolved ∉ ancestors ∧
          chain = source.stripVerbatimPrefix resolved :: ancestors := by
  unfold evaluateReparseDescent at h
  cases hreparse : attributes.isReparsePoint with
  | false =>
      simp only [hreparse, Bool.not_false, if_true] at h
      refine Or.inl ⟨rfl, ?_⟩
      split at h
      case isTrue hempty =>
        simp only [ReparseDecision.follow.injEq] at h
        exact Or.inl (h.symm.trans (List.isEmpty_iff.mp hempty).symm)
      case isFalse =>
        simp only [ReparseDecision.follow.injEq] at h
        exact Or.inr ⟨_, h.symm⟩
  | true =>
      simp only [hreparse, Bool.not_true, Bool.false_eq_true, if_false] at h
      split at h
      case isTrue => cases h
      case isFalse =>
        cases hresolved : source.canonicalize path with
        | none =>
            rw [hresolved] at h
            cases h
        | some resolved =>
            simp only [hresolved] at h
            split at h
            case isTrue => cases h
            case isFalse hnew =>
              simp only [ReparseDecision.follow.injEq] at h
              exact Or.inr ⟨resolved, rfl, rfl, hnew, h.symm⟩

/-- A visit below a directory is that of an entry that is a directory. -/
theorem visit_entryOutcome {directory : P} {ancestors : AncestorChain P}
    {slot : Option (FindEntry N)} {child : Visit P}
    (h : child ∈ (entryOutcome source directory ancestors slot).visit) :
    ∃ entry, slot = some entry ∧ entry.attributes.isDirectory = true ∧
      child.path = source.join directory entry.name ∧
      evaluateReparseDescent source directory (source.join directory entry.name) entry.name
        entry.attributes ancestors = .follow child.ancestors := by
  cases slot with
  | none => cases h
  | some entry =>
      simp only [entryOutcome] at h
      split at h
      case isTrue => cases h
      case isFalse =>
        split at h
        case isFalse => cases h
        case isTrue hdirectory =>
          refine ⟨entry, rfl, hdirectory, ?_⟩
          cases hdecision : evaluateReparseDescent source directory
              (source.join directory entry.name) entry.name entry.attributes ancestors with
          | follow chain =>
              rw [hdecision] at h
              obtain rfl := Option.some.inj h
              exact ⟨rfl, rfl⟩
          | skippedByPolicy =>
              rw [hdecision] at h
              cases h
          | skippedCycle =>
              rw [hdecision] at h
              cases h
          | skippedUnresolvable =>
              rw [hdecision] at h
              cases h

end Descent

namespace DirectoryGraph

variable {P N D : Type*} [DecidableEq P] [Fintype D] {source : WalkSource P N}
  (graph : DirectoryGraph source D)

/-- The directories that a link can still be followed to. -/
def unfollowed (ancestors : AncestorChain P) : Finset D :=
  Finset.univ.filter (fun directory ↦ graph.canonicalPath directory ∉ ancestors)

/-- The deepest level. -/
def deepest : ℕ := Finset.univ.sup graph.level

/-- The links to be followed and the levels below, the first counting most. -/
def remaining (visit : Visit P) : ℕ :=
  match graph.locate visit.path with
  | some directory =>
      (graph.unfollowed visit.ancestors).card * (graph.deepest + 1) +
        (graph.deepest - graph.level directory) + 1
  | none => 0

variable {graph} {visit child : Visit P} {directory below : D}

omit [DecidableEq P] in
theorem level_le_deepest (directory : D) : graph.level directory ≤ graph.deepest :=
  Finset.le_sup (Finset.mem_univ directory)

theorem unfollowed_cons_subset (path : P) (ancestors : AncestorChain P) :
    graph.unfollowed (path :: ancestors) ⊆ graph.unfollowed ancestors := by
  intro directory hdirectory
  simp only [unfollowed, Finset.mem_filter, Finset.mem_univ, true_and, List.mem_cons,
    not_or] at hdirectory ⊢
  exact hdirectory.2

/-- A link to a directory is followed once on a path. -/
theorem card_unfollowed_lt {ancestors : AncestorChain P}
    (h : graph.canonicalPath directory ∉ ancestors) :
    (graph.unfollowed (graph.canonicalPath directory :: ancestors)).card <
      (graph.unfollowed ancestors).card := by
  refine Finset.card_lt_card ⟨unfollowed_cons_subset _ _, fun hsubset ↦ ?_⟩
  have hmem : directory ∈ graph.unfollowed ancestors := by
    simp [unfollowed, h]
  have hnot : directory ∉ graph.unfollowed (graph.canonicalPath directory :: ancestors) := by
    simp [unfollowed]
  exact hnot (hsubset hmem)

/-- Down a level, with no more links to be followed. -/
theorem remaining_lt_of_level (hvisit : graph.locate visit.path = some directory)
    (hchild : graph.locate child.path = some below)
    (hsubset : graph.unfollowed child.ancestors ⊆ graph.unfollowed visit.ancestors)
    (hlevel : graph.level directory < graph.level below) :
    graph.remaining child < graph.remaining visit := by
  have hcard := Nat.mul_le_mul_right (graph.deepest + 1) (Finset.card_le_card hsubset)
  have hdeepest : graph.level below ≤ graph.deepest := level_le_deepest below
  simp only [remaining, hvisit, hchild]
  omega

/-- Anywhere, with fewer links to be followed. -/
theorem remaining_lt_of_card (hvisit : graph.locate visit.path = some directory)
    (hchild : graph.locate child.path = some below)
    (hcard : (graph.unfollowed child.ancestors).card < (graph.unfollowed visit.ancestors).card) :
    graph.remaining child < graph.remaining visit := by
  have hmul := Nat.mul_le_mul_right (graph.deepest + 1) hcard
  simp only [Nat.succ_mul] at hmul
  simp only [remaining, hvisit, hchild]
  omega

/-- Every step of a walk leaves less. -/
theorem remaining_lt {outcome : EntryOutcome P N} (houtcome : outcome ∈ source.outcomes visit)
    (hchild : child ∈ outcome.visit) : graph.remaining child < graph.remaining visit := by
  unfold WalkSource.outcomes at houtcome
  rw [graph.readDir_eq] at houtcome
  cases hvisit : graph.locate visit.path with
  | none =>
      rw [hvisit] at houtcome
      simp at houtcome
  | some directory =>
      rw [hvisit] at houtcome
      simp only [Option.bind_some, List.mem_map] at houtcome
      obtain ⟨slot, hslot, rfl⟩ := houtcome
      obtain ⟨entry, rfl, hdirectory, hpath, hdescent⟩ := visit_entryOutcome hchild
      obtain ⟨entries, hcontents, hentry⟩ :
          ∃ entries, graph.contents directory = some entries ∧ some entry ∈ entries := by
        cases hcontents : graph.contents directory with
        | none =>
            rw [hcontents] at hslot
            cases hslot
        | some entries => exact ⟨entries, rfl, by rwa [hcontents] at hslot⟩
      rcases evaluateReparseDescent_follow hdescent with
        ⟨hplain, hchain⟩ | ⟨resolved, hlink, hresolved, hnew, hchain⟩
      · -- a plain directory, which may be among the ancestors already
        cases hbelow : graph.locate child.path with
        | none => simp [remaining, hvisit, hbelow]
        | some below =>
            have hlevel := graph.nested visit.path directory entries entry below hvisit hcontents
              hentry hdirectory hplain (hpath ▸ hbelow)
            refine remaining_lt_of_level hvisit hbelow ?_ hlevel
            rcases hchain with hsame | ⟨canonical, hcons⟩
            · rw [hsame]
            · rw [hcons]
              exact unfollowed_cons_subset _ _
      · obtain ⟨target, htarget, hcanonical⟩ := graph.linked visit.path directory entries entry
          resolved hvisit hcontents hentry hdirectory hlink hresolved
        rw [← hpath] at htarget
        refine remaining_lt_of_card hvisit htarget ?_
        rw [hchain, hcanonical]
        exact card_unfollowed_lt (hcanonical ▸ hnew)

variable (graph)

/-- No path of a walk is longer than this. -/
def depth : ℕ := Fintype.card D * (graph.deepest + 1) + graph.deepest + 2

theorem remaining_lt_depth (visit : Visit P) : graph.remaining visit < graph.depth := by
  unfold remaining depth
  split
  · have hcard := Nat.mul_le_mul_right (graph.deepest + 1)
      (Finset.card_le_univ (graph.unfollowed visit.ancestors))
    omega
  · omega

/-- Whatever the links and the policy, a walk does not go deeper. -/
theorem depthAtMost (visit : Visit P) : source.tree.DepthAtMost graph.depth visit :=
  Unfolding.depthAtMost_of_measure graph.remaining (fun hitem hchild ↦ remaining_lt hitem hchild)
    (graph.remaining_lt_depth visit)

end DirectoryGraph

end WinBlaze
