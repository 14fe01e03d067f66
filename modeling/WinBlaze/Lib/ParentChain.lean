import Mathlib.Data.Fintype.Pigeonhole
import Mathlib.Data.Set.Finite.List

/-!
# Chains of parents

Following a partial map from an element to its parent either ends or runs for
ever. Where only finitely many elements have a parent it ends from everywhere
exactly when no element lies on a cycle.
-/

namespace ParentChain

variable {α : Type*} {next : α → Option α}

/-- The element `n` links above another. -/
def ancestor (next : α → Option α) : ℕ → α → Option α
  | 0, a => some a
  | n + 1, a => (next a).bind (ancestor next n)

/-- The chain from `a` ends. -/
def Ends (next : α → Option α) (a : α) : Prop := ∃ n, ancestor next n a = none

def OnCycle (next : α → Option α) (a : α) : Prop := ∃ n, ancestor next (n + 1) a = some a

@[simp] theorem ancestor_zero (a : α) : ancestor next 0 a = some a := rfl

theorem ancestor_succ_of_some {a b : α} (h : next a = some b) (n : ℕ) :
    ancestor next (n + 1) a = ancestor next n b := by
  rw [ancestor, h, Option.bind_some]

theorem ancestor_succ_of_none {a : α} (h : next a = none) (n : ℕ) :
    ancestor next (n + 1) a = none := by
  rw [ancestor, h, Option.bind_none]

theorem ancestor_add (m n : ℕ) (a : α) :
    ancestor next (m + n) a = (ancestor next m a).bind (ancestor next n) := by
  induction m generalizing a with
  | zero => rw [Nat.zero_add, ancestor_zero, Option.bind_some]
  | succ m ih =>
      rw [Nat.succ_add]
      cases h : next a with
      | none => rw [ancestor_succ_of_none h, ancestor_succ_of_none h, Option.bind_none]
      | some b => rw [ancestor_succ_of_some h, ancestor_succ_of_some h, ih]

theorem ancestor_succ (n : ℕ) (a : α) :
    ancestor next (n + 1) a = (ancestor next n a).bind next := by
  rw [ancestor_add]
  refine congrArg _ (funext fun b ↦ ?_)
  cases h : next b with
  | none => rw [ancestor_succ_of_none h]
  | some c => rw [ancestor_succ_of_some h, ancestor_zero]

theorem ancestor_mono {m n : ℕ} (hmn : m ≤ n) {a : α} (h : ancestor next m a = none) :
    ancestor next n a = none := by
  obtain ⟨k, rfl⟩ := Nat.exists_eq_add_of_le hmn
  rw [ancestor_add, h, Option.bind_none]

theorem ends_of_none {a : α} (h : next a = none) : Ends next a :=
  ⟨1, ancestor_succ_of_none h 0⟩

theorem ends_iff_of_some {a b : α} (h : next a = some b) : Ends next a ↔ Ends next b := by
  constructor
  · rintro ⟨n, hn⟩
    cases n with
    | zero => cases hn
    | succ n => exact ⟨n, by rwa [ancestor_succ_of_some h] at hn⟩
  · rintro ⟨n, hn⟩
    exact ⟨n + 1, by rwa [ancestor_succ_of_some h]⟩

/-- What holds of an element once it holds of its parent holds wherever the
chain ends. -/
theorem Ends.induction {P : α → Prop} (step : ∀ a, (∀ b, next a = some b → P b) → P a) {a : α}
    (h : Ends next a) : P a := by
  obtain ⟨n, hn⟩ := h
  induction n generalizing a with
  | zero => cases hn
  | succ n ih =>
      apply step
      intro b hb
      apply ih
      rwa [ancestor_succ_of_some hb] at hn

/-- With fewer links a chain still ends. -/
theorem Ends.of_links {other : α → Option α} {a : α} (h : Ends next a)
    (hlink : ∀ a b, other a = some b → next a = some b) : Ends other a := by
  refine Ends.induction (fun a ih ↦ ?_) h
  cases hother : other a with
  | none => exact ends_of_none hother
  | some b => exact (ends_iff_of_some hother).mpr (ih b (hlink a b hother))

theorem OnCycle.exists_next {a : α} (h : OnCycle next a) : ∃ b, next a = some b := by
  obtain ⟨n, hn⟩ := h
  cases hnext : next a with
  | none =>
      rw [ancestor_succ_of_none hnext] at hn
      cases hn
  | some b => exact ⟨b, rfl⟩

theorem OnCycle.of_next {a b : α} (h : OnCycle next a) (hb : next a = some b) : OnCycle next b := by
  obtain ⟨n, hn⟩ := h
  refine ⟨n, ?_⟩
  rw [ancestor_succ_of_some hb] at hn
  rw [ancestor_succ, hn, Option.bind_some, hb]

/-- Where every link goes down in a rank there is no cycle. -/
theorem not_onCycle_of_rank (rank : α → ℕ) (h : ∀ a b, next a = some b → rank b < rank a) (a : α) :
    ¬ OnCycle next a := by
  have hdown : ∀ n a b, ancestor next (n + 1) a = some b → rank b < rank a := by
    intro n
    induction n with
    | zero =>
        intro a b hb
        obtain ⟨c, hc, hlast⟩ := Option.bind_eq_some_iff.mp hb
        obtain rfl := Option.some.inj hlast
        exact h a c hc
    | succ n ih =>
        intro a b hb
        obtain ⟨c, hc, hrest⟩ := Option.bind_eq_some_iff.mp hb
        exact (ih c b hrest).trans (h a c hc)
  rintro ⟨n, hn⟩
  exact (hdown n a a hn).false

/-- A map that keeps the links of a cycle keeps the cycle. -/
theorem OnCycle.map {β : Type*} {other : β → Option β} {f : α → β} {a : α} (h : OnCycle next a)
    (hlink : ∀ b c, OnCycle next b → next b = some c → other (f b) = some (f c)) :
    OnCycle other (f a) := by
  have hancestor : ∀ n b, OnCycle next b → ancestor other n (f b) = (ancestor next n b).map f := by
    intro n
    induction n with
    | zero => exact fun b _ ↦ rfl
    | succ n ih =>
        intro b hb
        obtain ⟨c, hc⟩ := hb.exists_next
        rw [ancestor_succ_of_some (hlink b c hb hc), ancestor_succ_of_some hc, ih c (hb.of_next hc)]
  obtain ⟨n, hn⟩ := h
  exact ⟨n, by rw [hancestor (n + 1) a ⟨n, hn⟩, hn, Option.map_some]⟩

/-- A cycle depends only on the parents of the elements on it. -/
theorem OnCycle.congr {other : α → Option α} {a : α} (h : OnCycle next a)
    (hsame : ∀ b, OnCycle next b → other b = next b) : OnCycle other a :=
  OnCycle.map (f := id) h fun b _ hb hc ↦ (hsame b hb).trans hc

theorem OnCycle.not_ends {a : α} (h : OnCycle next a) : ¬ Ends next a := by
  obtain ⟨n, hn⟩ := h
  -- Going round the cycle `k` times comes back to `a`.
  have hround : ∀ k, ancestor next (k * (n + 1)) a = some a := by
    intro k
    induction k with
    | zero => rw [Nat.zero_mul, ancestor_zero]
    | succ k ih => rw [Nat.succ_mul, ancestor_add, ih, Option.bind_some, hn]
  rintro ⟨m, hm⟩
  have hle : m ≤ m * (n + 1) := Nat.le_mul_of_pos_right m (Nat.succ_pos n)
  have hnone := ancestor_mono hle hm
  rw [hround] at hnone
  cases hnone

/-- A chain through finitely many elements that does not end runs into a cycle. -/
theorem exists_onCycle {support : List α} (hsupport : ∀ a b, next a = some b → a ∈ support) {a : α}
    (h : ¬ Ends next a) : ∃ n b, ancestor next n a = some b ∧ OnCycle next b := by
  have hsome : ∀ n, ∃ b, ancestor next n a = some b := fun n ↦
    Option.ne_none_iff_exists'.mp fun hnone ↦ h ⟨n, hnone⟩
  choose above habove using hsome
  have hmem : ∀ n, above n ∈ support := by
    intro n
    have hnext : next (above n) = some (above (n + 1)) := by
      have hsucc : ancestor next (n + 1) a = (ancestor next n a).bind next := ancestor_succ n a
      rwa [habove, habove, Option.bind_some, eq_comm] at hsucc
    exact hsupport _ _ hnext
  have hrepeat : ∃ m n, m < n ∧ above m = above n := by
    have hfinite : Finite {b // b ∈ support} := (List.finite_toSet support).to_subtype
    obtain ⟨m, n, hne, heq⟩ := Finite.exists_ne_map_eq_of_infinite
      (fun n ↦ (⟨above n, hmem n⟩ : {b // b ∈ support}))
    have heq' : above m = above n := congrArg Subtype.val heq
    rcases Nat.lt_or_gt_of_ne hne with hlt | hlt
    · exact ⟨m, n, hlt, heq'⟩
    · exact ⟨n, m, hlt, heq'.symm⟩
  obtain ⟨m, n, hlt, heq⟩ := hrepeat
  obtain ⟨k, rfl⟩ := Nat.exists_eq_add_of_lt hlt
  refine ⟨m, above m, habove m, k, ?_⟩
  have hadd : ancestor next (m + (k + 1)) a = (ancestor next m a).bind (ancestor next (k + 1)) :=
    ancestor_add m (k + 1) a
  rw [habove m, Option.bind_some, ← Nat.add_assoc, habove] at hadd
  rw [← hadd, heq]

theorem forall_ends_iff {support : List α} (hsupport : ∀ a b, next a = some b → a ∈ support) :
    (∀ a, Ends next a) ↔ ∀ a, ¬ OnCycle next a := by
  constructor
  · intro h a hcycle
    exact hcycle.not_ends (h a)
  · intro h a
    by_contra hends
    obtain ⟨-, b, -, hcycle⟩ := exists_onCycle hsupport hends
    exact h b hcycle

/-- Renaming the elements of a set that chains do not leave renames the chains. -/
theorem ancestor_map_on {β : Type*} {other : β → Option β} {f : α → β} {P : α → Prop}
    (hclosed : ∀ a b, P a → next a = some b → P b)
    (h : ∀ a, P a → other (f a) = (next a).map f) (n : ℕ) {a : α} (ha : P a) :
    ancestor other n (f a) = (ancestor next n a).map f := by
  induction n generalizing a with
  | zero => rfl
  | succ n ih =>
      cases hnext : next a with
      | none =>
          have hother : other (f a) = none := by rw [h a ha, hnext, Option.map_none]
          rw [ancestor_succ_of_none hnext, ancestor_succ_of_none hother, Option.map_none]
      | some b =>
          have hother : other (f a) = some (f b) := by rw [h a ha, hnext, Option.map_some]
          rw [ancestor_succ_of_some hnext, ancestor_succ_of_some hother, ih (hclosed a b ha hnext)]

/-- Renaming the elements renames the chains. -/
theorem ancestor_map {β : Type*} {other : β → Option β} {f : α → β}
    (h : ∀ a, other (f a) = (next a).map f) (n : ℕ) (a : α) :
    ancestor other n (f a) = (ancestor next n a).map f :=
  ancestor_map_on (P := fun _ ↦ True) (fun _ _ _ _ ↦ trivial) (fun a _ ↦ h a) n trivial

theorem ancestor_closed {P : α → Prop} (hclosed : ∀ a b, P a → next a = some b → P b) {n : ℕ}
    {a b : α} (ha : P a) (h : ancestor next n a = some b) : P b := by
  induction n generalizing a with
  | zero => exact Option.some.inj h ▸ ha
  | succ n ih =>
      cases hnext : next a with
      | none => simp [ancestor_succ_of_none hnext] at h
      | some c =>
          rw [ancestor_succ_of_some hnext] at h
          exact ih (hclosed a c ha hnext) h

/-! ## Above -/

/-- Following parents from `a` leads to `top`. -/
def Above (next : α → Option α) (top a : α) : Prop := ∃ n, ancestor next n a = some top

theorem above_self (next : α → Option α) (a : α) : Above next a a := ⟨0, rfl⟩

theorem above_iff_of_some {top a b : α} (h : next a = some b) (hne : a ≠ top) :
    Above next top a ↔ Above next top b := by
  constructor
  · rintro ⟨n, hn⟩
    cases n with
    | zero => exact absurd (Option.some.inj hn) hne
    | succ n => exact ⟨n, by rwa [ancestor_succ_of_some h] at hn⟩
  · rintro ⟨n, hn⟩
    exact ⟨n + 1, by rwa [ancestor_succ_of_some h]⟩

theorem above_iff_of_none {top a : α} (h : next a = none) : Above next top a ↔ a = top := by
  constructor
  · rintro ⟨n, hn⟩
    cases n with
    | zero => exact Option.some.inj hn
    | succ n => simp [ancestor_succ_of_none h] at hn
  · rintro rfl
    exact above_self next a

/-- Above an element whose chain ends there is no cycle. -/
theorem Above.not_onCycle {top a : α} (h : Above next top a) (hends : Ends next a) :
    ¬ OnCycle next top := by
  obtain ⟨n, hn⟩ := h
  obtain ⟨m, hm⟩ := hends
  intro hcycle
  apply hcycle.not_ends
  refine ⟨m, ?_⟩
  have hadd : ancestor next (n + m) a = (ancestor next n a).bind (ancestor next m) := ancestor_add n m a
  rwa [ancestor_mono (Nat.le_add_left m n) hm, hn, Option.bind_some, eq_comm] at hadd

/-- Off all cycles no element is above its own parent. -/
theorem not_above_parent {a b : α} (hcycle : ¬ OnCycle next a) (h : next a = some b) :
    ¬ Above next a b := by
  rintro ⟨n, hn⟩
  exact hcycle ⟨n, by rwa [ancestor_succ_of_some h]⟩

/-- Different names keep what is above what. -/
theorem above_map_iff_on {β : Type*} {other : β → Option β} {f : α → β} {P : α → Prop}
    (hclosed : ∀ a b, P a → next a = some b → P b)
    (h : ∀ a, P a → other (f a) = (next a).map f)
    (hinj : ∀ a b, P a → P b → f a = f b → a = b) {top a : α} (htop : P top) (ha : P a) :
    Above other (f top) (f a) ↔ Above next top a := by
  unfold Above
  simp only [ancestor_map_on hclosed h _ ha, Option.map_eq_some_iff]
  constructor
  · rintro ⟨n, b, hn, heq⟩
    exact ⟨n, hinj b top (ancestor_closed hclosed ha hn) htop heq ▸ hn⟩
  · rintro ⟨n, hn⟩
    exact ⟨n, top, hn, rfl⟩

theorem onCycle_map_iff {β : Type*} {other : β → Option β} {f : α → β} (hf : Function.Injective f)
    (h : ∀ a, other (f a) = (next a).map f) (a : α) : OnCycle other (f a) ↔ OnCycle next a := by
  unfold OnCycle
  simp only [ancestor_map h]
  exact exists_congr fun n ↦ (Option.map_injective hf).eq_iff' rfl

/-- Finitely many chains that end do so within one number of links. -/
theorem exists_bound (starts : List α) (h : ∀ a ∈ starts, Ends next a) :
    ∃ n, ∀ a ∈ starts, ancestor next n a = none := by
  induction starts with
  | nil => exact ⟨0, by simp⟩
  | cons a rest ih =>
      obtain ⟨m, hm⟩ := h a List.mem_cons_self
      obtain ⟨n, hn⟩ := ih fun b hb ↦ h b (List.mem_cons_of_mem a hb)
      refine ⟨max m n, fun b hb ↦ ?_⟩
      rcases List.mem_cons.mp hb with rfl | hrest
      · exact ancestor_mono (le_max_left m n) hm
      · exact ancestor_mono (le_max_right m n) (hn b hrest)

end ParentChain
