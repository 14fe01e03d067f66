import WinBlaze.Lib.ParentChain

/-!
# Climbing up to a repetition

A climb from an element follows parents through elements that are all different.
It may come back to one it has passed; the elements it can reach from there are
then all among those it has passed, and the last of them lies on a cycle.
-/

namespace ParentChain

variable {α : Type*} {next : α → Option α} {start : α}

/-- From `start` to an element, through these; the last comes first. -/
inductive Climbs (next : α → Option α) (start : α) : List α → α → Prop
  | start : Climbs next start [] start
  | step {passed : List α} {a b : α} : Climbs next start passed a → a ∉ passed → next a = some b →
      Climbs next start (a :: passed) b

/-- From `start` the climb comes back behind `a` to an element it has passed. -/
def ComesBack (next : α → Option α) (start a : α) : Prop :=
  ∃ passed b, Climbs next start (a :: passed) b ∧ b ∈ a :: passed

/-- What follows each element is further up or where the climb is. -/
theorem Climbs.next_mem {passed : List α} {a : α} (h : Climbs next start passed a) :
    ∀ b ∈ passed, ∃ c, next b = some c ∧ (c ∈ passed ∨ c = a) := by
  induction h with
  | start => exact fun b hb ↦ absurd hb List.not_mem_nil
  | @step passed a c _ _ hnext ih =>
      intro b hb
      rcases List.mem_cons.mp hb with rfl | hpassed
      · exact ⟨c, hnext, Or.inr rfl⟩
      · obtain ⟨d, hd, hup⟩ := ih b hpassed
        refine ⟨d, hd, Or.inl ?_⟩
        rcases hup with hup | rfl
        · exact List.mem_cons_of_mem a hup
        · exact List.mem_cons_self

theorem Climbs.above {passed : List α} {a : α} (h : Climbs next start passed a) :
    Above next a start := by
  induction h with
  | start => exact above_self next start
  | step _ _ hnext ih =>
      obtain ⟨n, hn⟩ := ih
      refine ⟨n + 1, ?_⟩
      rw [ancestor_succ, hn, Option.bind_some, hnext]

/-- From each element that was passed the climb goes up. -/
theorem Climbs.above_of_mem {passed : List α} {a b : α} (h : Climbs next start passed a)
    (hb : b ∈ passed) : ∃ n, ancestor next (n + 1) b = some a := by
  induction h with
  | start => exact absurd hb List.not_mem_nil
  | @step passed a c _ _ hnext ih =>
      rcases List.mem_cons.mp hb with rfl | hpassed
      · exact ⟨0, by rw [ancestor_succ_of_some hnext, ancestor_zero]⟩
      · obtain ⟨n, hn⟩ := ih hpassed
        refine ⟨n + 1, ?_⟩
        rw [ancestor_succ, hn, Option.bind_some, hnext]

/-- Behind a repetition nothing is new. -/
theorem Climbs.mem_of_above {passed : List α} {a top : α} (h : Climbs next start passed a)
    (ha : a ∈ passed) (htop : Above next top a) : top ∈ passed := by
  obtain ⟨n, hn⟩ := htop
  refine ancestor_closed (P := fun b ↦ b ∈ passed) (fun b c hb hnext ↦ ?_) ha hn
  obtain ⟨d, hd, hup⟩ := h.next_mem b hb
  obtain rfl := Option.some.inj (hd.symm.trans hnext)
  rcases hup with hup | rfl
  · exact hup
  · exact ha

/-- Climbs of one length are the same. -/
theorem Climbs.unique {passed others : List α} {a b : α} (h : Climbs next start passed a)
    (h' : Climbs next start others b) (hlength : passed.length = others.length) :
    passed = others ∧ a = b := by
  induction h generalizing others b with
  | start =>
      cases h' with
      | start => exact ⟨rfl, rfl⟩
      | step => cases hlength
  | step _ _ hnext ih =>
      cases h' with
      | start => cases hlength
      | step hother _ hnext' =>
          obtain ⟨rfl, rfl⟩ := ih hother (Nat.succ.inj hlength)
          exact ⟨rfl, Option.some.inj (hnext.symm.trans hnext')⟩

/-- A climb passes through all shorter ones. -/
theorem Climbs.mem_of_length_lt {passed others : List α} {a b : α} (h : Climbs next start passed a)
    (h' : Climbs next start others b) (hlength : passed.length < others.length) : a ∈ others := by
  induction h' with
  | start => exact absurd hlength (Nat.not_lt_zero _)
  | @step others c _ hother _ _ ih =>
      rcases Nat.lt_succ_iff_lt_or_eq.mp hlength with hless | hsame
      · exact List.mem_cons_of_mem c (ih hless)
      · obtain ⟨-, rfl⟩ := h.unique hother hsame
        exact List.mem_cons_self

/-- A climb comes to each element in one way before it has passed it. -/
theorem Climbs.eq_of_notMem {passed others : List α} {a : α} (h : Climbs next start passed a)
    (h' : Climbs next start others a) (ha : a ∉ passed) (ha' : a ∉ others) : passed = others := by
  rcases Nat.lt_trichotomy passed.length others.length with hless | hsame | hless
  · exact absurd (h.mem_of_length_lt h' hless) ha'
  · exact (h.unique h' hsame).1
  · exact absurd (h'.mem_of_length_lt h hless) ha

theorem Climbs.pred {passed : List α} {a b : α} (h : Climbs next start (a :: passed) b) :
    Climbs next start passed a ∧ a ∉ passed ∧ next a = some b := by
  cases h with
  | step hclimb hnew hnext => exact ⟨hclimb, hnew, hnext⟩

theorem ComesBack.onCycle {a : α} (h : ComesBack next start a) : OnCycle next a := by
  obtain ⟨passed, b, hclimb, hb⟩ := h
  obtain ⟨hto, -, hnext⟩ := hclimb.pred
  rcases List.mem_cons.mp hb with rfl | hpassed
  · exact ⟨0, by rw [ancestor_succ_of_some hnext, ancestor_zero]⟩
  · obtain ⟨n, hn⟩ := hto.above_of_mem hpassed
    exact ⟨n + 1, by rw [ancestor_succ_of_some hnext, hn]⟩

theorem ComesBack.above {a : α} (h : ComesBack next start a) : Above next a start := by
  obtain ⟨passed, b, hclimb, -⟩ := h
  exact hclimb.pred.1.above

/-- Where the climb comes back behind `a`, every climb to `a` does. -/
theorem ComesBack.mem {a b : α} {passed : List α} (h : ComesBack next start a)
    (hclimb : Climbs next start passed a) (ha : a ∉ passed) (hnext : next a = some b) :
    b ∈ a :: passed := by
  obtain ⟨others, c, hother, hc⟩ := h
  obtain ⟨hto, hnew, hnext'⟩ := hother.pred
  obtain rfl := hclimb.eq_of_notMem hto ha hnew
  obtain rfl := Option.some.inj (hnext.symm.trans hnext')
  exact hc

end ParentChain
