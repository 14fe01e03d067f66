import Mathlib.Algebra.BigOperators.Group.Finset.Basic
import Mathlib.Algebra.Order.BigOperators.Group.Finset
import Mathlib.Logic.Function.Basic

/-!
# Messages sent in private batches

Several senders collect messages in batches of their own, and a batch is sent
as a whole. A message announces a key or needs one. When every message is
collected after the key it needs was announced somewhere, what arrives is in
order as long as no batch overtakes the announcement of a key it needs.
-/

namespace PrivateBatches

variable {ι κ α : Type*}

/-- What arrived, and what every sender still keeps. -/
structure Batches (ι α : Type*) where
  delivered : List α
  batch : ι → List α

section Order

variable (announce need : α → Option κ)

def Announced (messages : List α) (k : κ) : Prop := ∃ a ∈ messages, announce a = some k

/-- Every message stands behind an announcement of the key it needs. -/
def InOrder (messages : List α) : Prop :=
  ∀ before a after, messages = before ++ a :: after → ∀ k, need a = some k →
    Announced announce before k

/-- The number of announcements of a key. -/
def announcements [DecidableEq κ] (messages : List α) (k : κ) : ℕ :=
  messages.countP (fun a ↦ announce a = some k)

variable {announce need}

theorem Announced.append_left {messages : List α} {k : κ} (h : Announced announce messages k)
    (more : List α) : Announced announce (messages ++ more) k := by
  obtain ⟨a, ha, hk⟩ := h
  exact ⟨a, List.mem_append_left _ ha, hk⟩

theorem announced_append {first second : List α} {k : κ} :
    Announced announce (first ++ second) k ↔
      Announced announce first k ∨ Announced announce second k := by
  unfold Announced
  constructor
  · rintro ⟨a, ha, hk⟩
    rcases List.mem_append.mp ha with ha | ha
    · exact Or.inl ⟨a, ha, hk⟩
    · exact Or.inr ⟨a, ha, hk⟩
  · rintro (⟨a, ha, hk⟩ | ⟨a, ha, hk⟩)
    · exact ⟨a, List.mem_append_left _ ha, hk⟩
    · exact ⟨a, List.mem_append_right _ ha, hk⟩

theorem announcements_pos_iff [DecidableEq κ] {messages : List α} {k : κ} :
    0 < announcements announce messages k ↔ Announced announce messages k := by
  simp [announcements, List.countP_pos_iff, Announced]

/-- A position in an appended list lies in one of its parts. -/
theorem append_eq_append_cons_cases {first second before after : List α} {a : α}
    (h : first ++ second = before ++ a :: after) :
    (∃ rest, first = before ++ a :: rest) ∨
      ∃ front, before = first ++ front ∧ second = front ++ a :: after := by
  rcases List.append_eq_append_iff.mp h with ⟨front, rfl, hsecond⟩ | ⟨front, hfirst, hrest⟩
  · exact Or.inr ⟨front, rfl, hsecond⟩
  · cases front with
    | nil =>
        right
        refine ⟨[], ?_, ?_⟩
        · rw [hfirst, List.append_nil, List.append_nil]
        · exact hrest.symm
    | cons b front =>
        obtain ⟨rfl, -⟩ := List.cons.inj hrest
        exact Or.inl ⟨front, hfirst⟩

theorem inOrder_nil : InOrder announce need [] := by
  intro before a after h
  cases before <;> cases h

theorem InOrder.of_append {first second : List α} (h : InOrder announce need (first ++ second)) :
    InOrder announce need first := by
  intro before a after heq
  refine h before a (after ++ second) ?_
  rw [heq, List.append_assoc, List.cons_append]

theorem inOrder_append_iff {first second : List α} :
    InOrder announce need (first ++ second) ↔ InOrder announce need first ∧
      ∀ before a after, second = before ++ a :: after → ∀ k, need a = some k →
        Announced announce (first ++ before) k := by
  constructor
  · intro h
    refine ⟨h.of_append, fun before a after heq ↦ h (first ++ before) a after ?_⟩
    rw [heq, List.append_assoc]
  · rintro ⟨hfirst, hsecond⟩ before a after heq
    rcases append_eq_append_cons_cases heq with ⟨rest, hrest⟩ | ⟨front, rfl, hfront⟩
    · exact hfirst before a rest hrest
    · exact hsecond front a after hfront

theorem inOrder_concat_iff {messages : List α} {a : α} :
    InOrder announce need (messages ++ [a]) ↔
      InOrder announce need messages ∧ ∀ k, need a = some k → Announced announce messages k := by
  rw [inOrder_append_iff]
  refine and_congr_right fun _ ↦ ⟨fun h k hk ↦ ?_, fun h before b after heq ↦ ?_⟩
  · have hlast := h [] a [] rfl k hk
    rwa [List.append_nil] at hlast
  · cases before with
    | nil =>
        obtain ⟨rfl, -⟩ := List.cons.inj heq
        rw [List.append_nil]
        exact h
    | cons c before => cases before <;> cases heq

end Order

variable [DecidableEq ι] {announce need : α → Option κ}

namespace Batches

/-- A sender collects a message. -/
def push (i : ι) (a : α) (s : Batches ι α) : Batches ι α :=
  { s with batch := Function.update s.batch i (s.batch i ++ [a]) }

/-- A sender sends its batch. -/
def send (i : ι) (s : Batches ι α) : Batches ι α where
  delivered := s.delivered ++ s.batch i
  batch := Function.update s.batch i []

@[simp] theorem delivered_push (i : ι) (a : α) (s : Batches ι α) :
    (s.push i a).delivered = s.delivered := rfl

@[simp] theorem delivered_send (i : ι) (s : Batches ι α) :
    (s.send i).delivered = s.delivered ++ s.batch i := rfl

@[simp] theorem batch_push_self (i : ι) (a : α) (s : Batches ι α) :
    (s.push i a).batch i = s.batch i ++ [a] := Function.update_self _ _ _

theorem batch_push_of_ne {i j : ι} (h : j ≠ i) (a : α) (s : Batches ι α) :
    (s.push i a).batch j = s.batch j := Function.update_of_ne h _ _

@[simp] theorem batch_send_self (i : ι) (s : Batches ι α) : (s.send i).batch i = [] :=
  Function.update_self _ _ _

theorem batch_send_of_ne {i j : ι} (h : j ≠ i) (s : Batches ι α) :
    (s.send i).batch j = s.batch j := Function.update_of_ne h _ _

variable (announce need) in
/-- Every message of `history` arrived or is in a batch, and every message in a
batch needs a key that is announced in what arrived, before it in its batch, or
in another batch. -/
structure Sound (history : List α) (s : Batches ι α) : Prop where
  placed : ∀ a ∈ history, a ∈ s.delivered ∨ ∃ i, a ∈ s.batch i
  covered : ∀ i before a after, s.batch i = before ++ a :: after → ∀ k, need a = some k →
    Announced announce s.delivered k ∨ Announced announce before k ∨
      ∃ j, j ≠ i ∧ Announced announce (s.batch j) k

variable (announce need) in
/-- No other sender keeps an announcement of a key that the batch needs. -/
def SendsAnnounced (i : ι) (s : Batches ι α) : Prop :=
  ∀ a ∈ s.batch i, ∀ k, need a = some k → ∀ j, j ≠ i → ¬ Announced announce (s.batch j) k

variable {history : List α} {s : Batches ι α}

omit [DecidableEq ι] in
theorem Sound.mono (h : Sound announce need history s) {fewer : List α}
    (hfewer : ∀ a ∈ fewer, a ∈ history) : Sound announce need fewer s :=
  ⟨fun a ha ↦ h.placed a (hfewer a ha), h.covered⟩

/-- A message is collected after the key it needs was announced. -/
theorem Sound.push (h : Sound announce need history s) (i : ι) {a : α}
    (hneed : ∀ k, need a = some k → Announced announce history k) :
    Sound announce need (history ++ [a]) (s.push i a) := by
  have hbatch : ∀ j, ∀ b ∈ s.batch j, b ∈ (s.push i a).batch j := by
    intro j b hb
    by_cases hj : j = i
    · subst hj
      rw [batch_push_self]
      exact List.mem_append_left _ hb
    · rwa [batch_push_of_ne hj]
  constructor
  · intro b hb
    rcases List.mem_append.mp hb with hb | hb
    · exact (h.placed b hb).imp_right fun ⟨j, hj⟩ ↦ ⟨j, hbatch j b hj⟩
    · refine Or.inr ⟨i, ?_⟩
      rw [batch_push_self]
      exact List.mem_append_right _ hb
  · intro j before b after heq k hk
    have hothers : (∃ l, l ≠ j ∧ Announced announce (s.batch l) k) →
        ∃ l, l ≠ j ∧ Announced announce ((s.push i a).batch l) k := by
      rintro ⟨l, hl, c, hc, hck⟩
      exact ⟨l, hl, c, hbatch l c hc, hck⟩
    by_cases hj : j = i
    · subst hj
      rw [batch_push_self] at heq
      rcases append_eq_append_cons_cases heq with ⟨rest, hrest⟩ | ⟨front, rfl, hfront⟩
      · exact (h.covered j before b rest hrest k hk).imp_right (Or.imp_right hothers)
      · have hlast : front = [] ∧ b = a := by
          cases front with
          | nil => exact ⟨rfl, (List.cons.inj hfront).1.symm⟩
          | cons c front => cases front <;> cases hfront
        obtain ⟨rfl, rfl⟩ := hlast
        obtain ⟨c, hc, hck⟩ := hneed k hk
        rw [List.append_nil]
        rcases h.placed c hc with hdelivered | ⟨l, hl⟩
        · exact Or.inl ⟨c, hdelivered, hck⟩
        · by_cases hlj : l = j
          · exact Or.inr (Or.inl ⟨c, hlj ▸ hl, hck⟩)
          · exact Or.inr (Or.inr (hothers ⟨l, hlj, c, hl, hck⟩))
    · rw [batch_push_of_ne hj] at heq
      exact (h.covered j before b after heq k hk).imp_right (Or.imp_right hothers)

theorem Sound.send (h : Sound announce need history s) (i : ι) :
    Sound announce need history (s.send i) := by
  have hmoved : ∀ j, ∀ b ∈ s.batch j, b ∈ (s.send i).delivered ∨ j ≠ i ∧ b ∈ (s.send i).batch j := by
    intro j b hb
    by_cases hj : j = i
    · exact Or.inl (List.mem_append_right _ (hj ▸ hb))
    · right
      rw [batch_send_of_ne hj]
      exact ⟨hj, hb⟩
  constructor
  · intro b hb
    rcases h.placed b hb with hdelivered | ⟨j, hj⟩
    · exact Or.inl (List.mem_append_left _ hdelivered)
    · exact (hmoved j b hj).imp_right fun hrest ↦ ⟨j, hrest.2⟩
  · intro j before b after heq k hk
    have hj : j ≠ i := by
      rintro rfl
      rw [batch_send_self] at heq
      cases before <;> cases heq
    rw [batch_send_of_ne hj] at heq
    rcases h.covered j before b after heq k hk with hdelivered | hown | ⟨l, hl, c, hc, hck⟩
    · exact Or.inl (hdelivered.append_left _)
    · exact Or.inr (Or.inl hown)
    · rcases hmoved l c hc with hdelivered | ⟨-, hkept⟩
      · exact Or.inl ⟨c, hdelivered, hck⟩
      · exact Or.inr (Or.inr ⟨l, hl, c, hkept, hck⟩)

/-- Sending a batch keeps the order when no other sender holds back what it needs. -/
theorem Sound.inOrder_send (h : Sound announce need history s) {i : ι}
    (horder : InOrder announce need s.delivered) (hsends : SendsAnnounced announce need i s) :
    InOrder announce need (s.send i).delivered := by
  rw [delivered_send, inOrder_append_iff]
  refine ⟨horder, fun before a after heq k hk ↦ announced_append.mpr ?_⟩
  rcases h.covered i before a after heq k hk with hdelivered | hown | ⟨j, hj, hother⟩
  · exact Or.inl hdelivered
  · exact Or.inr hown
  · have hmem : a ∈ s.batch i := heq ▸ List.mem_append_right _ List.mem_cons_self
    exact (hsends a hmem k hk j hj hother).elim

/-! ## Keys that are announced once -/

variable [DecidableEq κ]

variable (announce) in
/-- What arrived and what is in batches announces no key more often than `history`. -/
def Counted (history : List α) (s : Batches ι α) : Prop :=
  ∀ k (senders : Finset ι), announcements announce s.delivered k +
    ∑ i ∈ senders, announcements announce (s.batch i) k ≤ announcements announce history k

variable (announce) in
theorem sum_update_le (f : ι → List α) (i : ι) (l : List α) (k : κ) (senders : Finset ι) :
    ∑ j ∈ senders, announcements announce (Function.update f i l j) k ≤
      announcements announce l k + ∑ j ∈ senders.erase i, announcements announce (f j) k := by
  have hothers : ∑ j ∈ senders.erase i, announcements announce (Function.update f i l j) k =
      ∑ j ∈ senders.erase i, announcements announce (f j) k := by
    refine Finset.sum_congr rfl fun j hj ↦ ?_
    rw [Function.update_of_ne (Finset.ne_of_mem_erase hj)]
  by_cases hi : i ∈ senders
  · rw [← Finset.add_sum_erase senders _ hi, Function.update_self, hothers]
  · rw [← Finset.erase_eq_of_notMem hi, Finset.erase_idem, hothers]
    exact Nat.le_add_left _ _

theorem Counted.push (h : Counted announce history s) (i : ι) (a : α) :
    Counted announce (history ++ [a]) (s.push i a) := by
  intro k senders
  have hsum := sum_update_le announce s.batch i (s.batch i ++ [a]) k senders
  have hall := h k (insert i (senders.erase i))
  rw [Finset.sum_insert (Finset.notMem_erase i senders)] at hall
  have happend : ∀ l : List α, announcements announce (l ++ [a]) k =
      announcements announce l k + announcements announce [a] k := fun l ↦ List.countP_append
  rw [happend] at hsum
  rw [delivered_push, happend]
  refine (Nat.add_le_add_left hsum _).trans ?_
  omega

theorem Counted.send (h : Counted announce history s) (i : ι) :
    Counted announce history (s.send i) := by
  intro k senders
  have hsum := sum_update_le announce s.batch i [] k senders
  have hall := h k (insert i (senders.erase i))
  rw [Finset.sum_insert (Finset.notMem_erase i senders)] at hall
  have happend : announcements announce (s.delivered ++ s.batch i) k =
      announcements announce s.delivered k + announcements announce (s.batch i) k :=
    List.countP_append
  have hnil : announcements announce ([] : List α) k = 0 := rfl
  rw [hnil, Nat.zero_add] at hsum
  rw [delivered_send, happend]
  refine (Nat.add_le_add_left hsum _).trans ?_
  omega

/-- Where no key is announced twice, a batch that arrives in order overtakes
no announcement. -/
theorem Counted.sendsAnnounced (h : Counted announce history s)
    (honce : ∀ k, announcements announce history k ≤ 1) {i : ι}
    (horder : InOrder announce need (s.send i).delivered) : SendsAnnounced announce need i s := by
  intro a ha k hk j hj hother
  obtain ⟨before, after, heq⟩ := List.append_of_mem ha
  have hannounced : Announced announce (s.send i).delivered k := by
    have hbefore := horder (s.delivered ++ before) a after (by
      rw [delivered_send, heq, List.append_assoc]) k hk
    have happend := hbefore.append_left (a :: after)
    rwa [List.append_assoc, ← heq] at happend
  have hcount := (h.send i) k {j}
  rw [Finset.sum_singleton, batch_send_of_ne hj] at hcount
  have hone := announcements_pos_iff.mpr hannounced
  have htwo := announcements_pos_iff.mpr hother
  have hle := honce k
  omega

end Batches

end PrivateBatches
