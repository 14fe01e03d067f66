import Mathlib.Data.List.Induction
import Mathlib.Data.Set.Insert
import Mathlib.Logic.Function.Basic
import Mathlib.Logic.Relation

/-!
# The first claim of each key

Claims ask for an amount under a key. The first claim of a key with an amount
other than zero is granted, every other claim gets zero. A tracker that
represents the set of keys claimed so far grants claims in this way one after
the other; trackers behind locks, each for some of the keys, do so in whatever
order the locks are taken.
-/

namespace FirstClaims

variable {ι κ M σ : Type*} [Zero M]

/-- The kinds of data a claim has. -/
structure Claims (ι κ M : Type*) where
  key : ι → κ
  amount : ι → M

/-- Some claim of the key asked for an amount. -/
def Claimed (claims : Claims ι κ M) (earlier : List ι) (k : κ) : Prop :=
  ∃ c ∈ earlier, claims.amount c ≠ 0 ∧ claims.key c = k

/-- The answers are those to the claims in this order: the first claim of a
key is granted. -/
def InOrder (claims : Claims ι κ M) (answered : List (ι × M)) : Prop :=
  ∀ front c back, answered = front ++ c :: back →
    (claims.amount c.1 ≠ 0 ∧ ¬Claimed claims (front.map Prod.fst) (claims.key c.1) →
      c.2 = claims.amount c.1) ∧
    (claims.amount c.1 = 0 ∨ Claimed claims (front.map Prod.fst) (claims.key c.1) → c.2 = 0)

/-- The tracker's state stands for the set of claimed keys, and a claim is
answered and added to it. -/
structure TracksFirst (claims : Claims ι κ M) (claim : σ → ι → Option (M × σ))
    (Represents : σ → Set κ → Prop) : Prop where
  step : ∀ s S c, Represents s S → ∃ answer s', claim s c = some (answer, s') ∧
    (claims.amount c = 0 → answer = 0 ∧ Represents s' S) ∧
    (claims.amount c ≠ 0 → Represents s' (insert (claims.key c) S) ∧
      (claims.key c ∈ S → answer = 0) ∧ (claims.key c ∉ S → answer = claims.amount c))

/-- The claims of a list, one after the other. -/
def runClaims (claim : σ → ι → Option (M × σ)) : σ → List ι → Option (List (ι × M) × σ)
  | s, [] => some ([], s)
  | s, c :: rest =>
      match claim s c with
      | none => none
      | some result =>
          (runClaims claim result.2 rest).map (fun later ↦ ((c, result.1) :: later.1, later.2))

section Order

variable {claims : Claims ι κ M} {answered : List (ι × M)}

theorem claimed_append {front rest : List ι} {k : κ} :
    Claimed claims (front ++ rest) k ↔ Claimed claims front k ∨ Claimed claims rest k := by
  simp only [Claimed, List.mem_append, or_and_right, exists_or]

theorem claimed_singleton {c : ι} {k : κ} :
    Claimed claims [c] k ↔ claims.amount c ≠ 0 ∧ claims.key c = k := by
  simp [Claimed]

theorem inOrder_nil (claims : Claims ι κ M) : InOrder claims [] := by
  intro front c back h
  simp at h

/-- One more answer, to a claim that comes last. -/
theorem InOrder.concat (h : InOrder claims answered) {c : ι} {answer : M}
    (hgrant : claims.amount c ≠ 0 → ¬Claimed claims (answered.map Prod.fst) (claims.key c) →
      answer = claims.amount c)
    (hzero : claims.amount c = 0 ∨ Claimed claims (answered.map Prod.fst) (claims.key c) →
      answer = 0) :
    InOrder claims (answered ++ [(c, answer)]) := by
  intro front other back heq
  rcases List.eq_nil_or_concat back with rfl | ⟨before, last, rfl⟩
  · obtain ⟨rfl, hlast⟩ := List.append_inj' heq rfl
    obtain rfl : (c, answer) = other := by simpa using hlast
    exact ⟨fun hfirst ↦ hgrant hfirst.1 hfirst.2, hzero⟩
  · rw [List.concat_eq_append, ← List.cons_append, ← List.append_assoc] at heq
    exact h front other before (List.append_inj' heq rfl).1

theorem InOrder.front {c : ι × M} (h : InOrder claims (answered ++ [c])) :
    InOrder claims answered := by
  intro front other back heq
  exact h front other (back ++ [c]) (by rw [heq, List.append_assoc, List.cons_append])

variable [DecidableEq κ] [DecidableEq M]

/-- The answers other than zero to claims of a key. -/
def granted (claims : Claims ι κ M) (answered : List (ι × M)) (k : κ) : List (ι × M) :=
  answered.filter (fun c ↦ claims.key c.1 = k ∧ c.2 ≠ 0)

/-- A claimed key is granted exactly once, another one never. -/
theorem InOrder.length_granted (h : InOrder claims answered) (k : κ) :
    (Claimed claims (answered.map Prod.fst) k → (granted claims answered k).length = 1) ∧
      (¬Claimed claims (answered.map Prod.fst) k → granted claims answered k = []) := by
  induction answered using List.reverseRecOn with
  | nil => exact ⟨fun ⟨c, hc, _⟩ ↦ by simp at hc, fun _ ↦ rfl⟩
  | append_singleton front c ih =>
      obtain ⟨hone, hnone⟩ := ih h.front
      obtain ⟨hgrant, hzero⟩ := h front c [] rfl
      have hsplit : granted claims (front ++ [c]) k =
          granted claims front k ++ [c].filter (fun c ↦ claims.key c.1 = k ∧ c.2 ≠ 0) :=
        List.filter_append _ _
      rw [List.map_append, List.map_singleton, claimed_append, claimed_singleton, hsplit]
      by_cases hkey : claims.key c.1 = k
      · subst hkey
        by_cases hclaimed : Claimed claims (front.map Prod.fst) (claims.key c.1)
        · have hskip : [c].filter (fun other ↦ claims.key other.1 = claims.key c.1 ∧ other.2 ≠ 0) =
              [] := by
            simp [hzero (Or.inr hclaimed)]
          rw [hskip, List.append_nil]
          exact ⟨fun _ ↦ hone hclaimed, fun hnot ↦ absurd (Or.inl hclaimed) hnot⟩
        · rw [hnone hclaimed, List.nil_append]
          by_cases hamount : claims.amount c.1 = 0
          · have hskip :
                [c].filter (fun other ↦ claims.key other.1 = claims.key c.1 ∧ other.2 ≠ 0) = [] := by
              simp [hzero (Or.inl hamount)]
            rw [hskip]
            refine ⟨fun hor ↦ ?_, fun _ ↦ rfl⟩
            exact hor.elim (fun h ↦ absurd h hclaimed) fun h ↦ absurd hamount h.1
          · have hkeep :
                [c].filter (fun other ↦ claims.key other.1 = claims.key c.1 ∧ other.2 ≠ 0) = [c] := by
              simp [hgrant ⟨hamount, hclaimed⟩, hamount]
            rw [hkeep]
            exact ⟨fun _ ↦ rfl, fun hnot ↦ absurd (Or.inr ⟨hamount, rfl⟩) hnot⟩
      · have hskip : [c].filter (fun other ↦ claims.key other.1 = k ∧ other.2 ≠ 0) = [] := by
          simp [hkey]
        simpa [hskip, hkey] using And.intro hone hnone

end Order

/-! ## One tracker -/

/-- The keys claimed so far. -/
def claimedKeys (claims : Claims ι κ M) (answered : List (ι × M)) : Set κ :=
  {k | Claimed claims (answered.map Prod.fst) k}

section Run

variable {claims : Claims ι κ M} {claim : σ → ι → Option (M × σ)} {Represents : σ → Set κ → Prop}
  {answered : List (ι × M)}

theorem claimedKeys_concat_of_zero {c : ι} (hc : claims.amount c = 0) (answer : M) :
    claimedKeys claims (answered ++ [(c, answer)]) = claimedKeys claims answered := by
  ext k
  simp [claimedKeys, claimed_append, claimed_singleton, hc]

theorem claimedKeys_concat {c : ι} (hc : claims.amount c ≠ 0) (answer : M) :
    claimedKeys claims (answered ++ [(c, answer)]) =
      insert (claims.key c) (claimedKeys claims answered) := by
  ext k
  simp [claimedKeys, claimed_append, claimed_singleton, hc, or_comm, eq_comm]

/-- The answer to one more claim, when the state stands for the claims so far. -/
theorem TracksFirst.concat (h : TracksFirst claims claim Represents) {s : σ} {c : ι}
    (hs : Represents s (claimedKeys claims answered)) (horder : InOrder claims answered) :
    ∃ answer s', claim s c = some (answer, s') ∧
      Represents s' (claimedKeys claims (answered ++ [(c, answer)])) ∧
      InOrder claims (answered ++ [(c, answer)]) := by
  obtain ⟨answer, s', hclaim, hzero, hpos⟩ := h.step s _ c hs
  refine ⟨answer, s', hclaim, ?_, ?_⟩
  · by_cases hc : claims.amount c = 0
    · rw [claimedKeys_concat_of_zero hc]
      exact (hzero hc).2
    · rw [claimedKeys_concat hc]
      exact (hpos hc).1
  · refine horder.concat (fun hc hnew ↦ (hpos hc).2.2 hnew) fun hor ↦ ?_
    by_cases hc : claims.amount c = 0
    · exact (hzero hc).1
    · exact (hpos hc).2.1 (hor.resolve_left hc)

/-- A tracker answers all claims, in order. -/
theorem TracksFirst.runClaims (h : TracksFirst claims claim Represents) {s : σ}
    (hs : Represents s (claimedKeys claims answered)) (horder : InOrder claims answered)
    (calls : List ι) :
    ∃ answers s', runClaims claim s calls = some (answers, s') ∧ answers.map Prod.fst = calls ∧
      InOrder claims (answered ++ answers) := by
  induction calls generalizing s answered with
  | nil => exact ⟨[], s, rfl, rfl, by rwa [List.append_nil]⟩
  | cons c rest ih =>
      obtain ⟨answer, s', hclaim, hs', horder'⟩ := h.concat (c := c) hs horder
      obtain ⟨answers, s'', hrun, hcalls, hall⟩ := ih hs' horder'
      refine ⟨(c, answer) :: answers, s'', ?_, ?_, ?_⟩
      · simp only [FirstClaims.runClaims, hclaim, hrun, Option.map_some]
      · rw [List.map_cons, hcalls]
      · rwa [List.append_assoc, List.singleton_append] at hall

end Run

/-! ## Trackers behind locks -/

/-- Trackers for parts of the keys, each behind a lock; the claims each worker
has yet to make; and the claims answered so far, with their workers. -/
structure Sharded (I W ι M σ : Type*) where
  holder : I → Option W
  shard : I → σ
  pending : W → List ι
  log : List (W × ι × M)

variable {I W : Type*} [DecidableEq I] [DecidableEq W]

/-- A claim of nothing is answered at once. Any other takes the lock of its
shard, and gives it back with the answer. -/
inductive ShardedStep (claims : Claims ι κ M) (index : ι → I) (claim : σ → ι → Option (M × σ)) :
    Sharded I W ι M σ → Sharded I W ι M σ → Prop
  | nothing {state : Sharded I W ι M σ} {w : W} {c : ι} {rest : List ι}
      (hpending : state.pending w = c :: rest) (hzero : claims.amount c = 0) :
      ShardedStep claims index claim state
        { state with
          pending := Function.update state.pending w rest
          log := state.log ++ [(w, c, 0)] }
  | lock {state : Sharded I W ι M σ} {w : W} {c : ι} {rest : List ι}
      (hpending : state.pending w = c :: rest) (hne : claims.amount c ≠ 0)
      (hfree : state.holder (index c) = none) :
      ShardedStep claims index claim state
        { state with holder := Function.update state.holder (index c) (some w) }
  | answer {state : Sharded I W ι M σ} {w : W} {c : ι} {rest : List ι} {answer : M} {s' : σ}
      (hpending : state.pending w = c :: rest) (hne : claims.amount c ≠ 0)
      (hheld : state.holder (index c) = some w)
      (hclaim : claim (state.shard (index c)) c = some (answer, s')) :
      ShardedStep claims index claim state
        { holder := Function.update state.holder (index c) none
          shard := Function.update state.shard (index c) s'
          pending := Function.update state.pending w rest
          log := state.log ++ [(w, c, answer)] }

namespace Sharded

/-- The claims a worker has made so far. -/
def made (state : Sharded I W ι M σ) (w : W) : List ι :=
  (state.log.filter (fun entry ↦ entry.1 = w)).map (fun entry ↦ entry.2.1)

/-- The answered claims of one shard. -/
def answeredIn (index : ι → I) (state : Sharded I W ι M σ) (i : I) : List (ι × M) :=
  (state.log.map Prod.snd).filter (fun entry ↦ index entry.1 = i)

/-- No claim is lost, the answers are in order, every shard stands for its own
claims, and a lock is held for the next claim of its holder. -/
structure Consistent (claims : Claims ι κ M) (index : ι → I) (Represents : σ → Set κ → Prop)
    (programs : W → List ι) (state : Sharded I W ι M σ) : Prop where
  programs : ∀ w, state.made w ++ state.pending w = programs w
  order : InOrder claims (state.log.map Prod.snd)
  represents : ∀ i, Represents (state.shard i) (claimedKeys claims (state.answeredIn index i))
  holders : ∀ i w, state.holder i = some w →
    ∃ c rest, state.pending w = c :: rest ∧ claims.amount c ≠ 0 ∧ index c = i

/-- Nothing claimed yet. -/
def initial (s : σ) (programs : W → List ι) : Sharded I W ι M σ where
  holder := fun _ ↦ none
  shard := fun _ ↦ s
  pending := programs
  log := []

end Sharded

section Shards

open Sharded

variable {claims : Claims ι κ M} {index : ι → I} {claim : σ → ι → Option (M × σ)}
  {Represents : σ → Set κ → Prop} {programs : W → List ι} {state state' : Sharded I W ι M σ}

theorem consistent_initial {s : σ} (hs : Represents s ∅) :
    Consistent claims index Represents programs (initial s programs) where
  programs := fun w ↦ rfl
  order := inOrder_nil claims
  represents := by
    intro i
    have hempty : claimedKeys claims (answeredIn index (initial s programs : Sharded I W ι M σ) i) =
        ∅ := by
      ext k
      simp [claimedKeys, answeredIn, initial, Claimed]
    rwa [hempty]
  holders := fun i w h ↦ nomatch h

omit [Zero M] [DecidableEq I] in
theorem made_concat (pending : W → List ι) (w other : W) (c : ι) (answer : M) :
    made { state with pending := pending, log := state.log ++ [(w, c, answer)] } other =
      if w = other then made state other ++ [c] else made state other := by
  by_cases h : w = other <;> simp [made, h]

omit [Zero M] [DecidableEq I] in
/-- The claims of a worker after it made the next one. -/
theorem programs_step (h : ∀ w, state.made w ++ state.pending w = programs w) {w : W} {c : ι}
    {rest : List ι} (hpending : state.pending w = c :: rest) (answer : M) (other : W) :
    made { state with
        pending := Function.update state.pending w rest
        log := state.log ++ [(w, c, answer)] } other ++
      Function.update state.pending w rest other = programs other := by
  rw [made_concat]
  by_cases hother : w = other
  · subst hother
    rw [if_pos rfl, Function.update_self, List.append_assoc, List.singleton_append, ← hpending]
    exact h w
  · rw [if_neg hother, Function.update_of_ne (Ne.symm hother)]
    exact h other

omit [DecidableEq W] in
/-- A key is claimed in its shard when it is claimed at all. -/
theorem mem_claimedKeys_answeredIn (hindex : ∀ c c', claims.key c = claims.key c' → index c = index c')
    (c : ι) :
    claims.key c ∈ claimedKeys claims (state.answeredIn index (index c)) ↔
      Claimed claims ((state.log.map Prod.snd).map Prod.fst) (claims.key c) := by
  constructor
  · rintro ⟨other, hmem, hother⟩
    obtain ⟨entry, hentry, rfl⟩ := List.mem_map.mp hmem
    exact ⟨entry.1, List.mem_map_of_mem ((List.mem_filter.mp hentry).1), hother⟩
  · rintro ⟨other, hmem, hne, hkey⟩
    obtain ⟨entry, hentry, rfl⟩ := List.mem_map.mp hmem
    refine ⟨entry.1, List.mem_map_of_mem (List.mem_filter.mpr ⟨hentry, ?_⟩), hne, hkey⟩
    exact decide_eq_true (hindex _ _ hkey)

omit [Zero M] [DecidableEq W] in
theorem answeredIn_concat (holder : I → Option W) (shard : I → σ) (pending : W → List ι) (w : W)
    (c : ι) (answer : M) (i : I) :
    answeredIn index ⟨holder, shard, pending, state.log ++ [(w, c, answer)]⟩ i =
      if index c = i then state.answeredIn index i ++ [(c, answer)]
      else state.answeredIn index i := by
  by_cases h : index c = i <;> simp [answeredIn, h]

theorem Sharded.Consistent.step (htracks : TracksFirst claims claim Represents)
    (hindex : ∀ c c', claims.key c = claims.key c' → index c = index c')
    (h : Consistent claims index Represents programs state)
    (hstep : ShardedStep claims index claim state state') :
    Consistent claims index Represents programs state' := by
  cases hstep with
  | @nothing w c rest hpending hzero =>
      refine ⟨programs_step h.programs hpending 0, ?_, fun i ↦ ?_, fun i other hheld ↦ ?_⟩
      · simp only [List.map_append, List.map_singleton]
        exact h.order.concat (fun hne ↦ absurd hzero hne) fun _ ↦ rfl
      · rw [answeredIn_concat]
        split
        · rw [claimedKeys_concat_of_zero hzero]
          exact h.represents i
        · exact h.represents i
      · obtain ⟨c', rest', hpending', hne, hi⟩ := h.holders i other hheld
        have hother : other ≠ w := by
          rintro rfl
          rw [hpending] at hpending'
          obtain ⟨rfl, -⟩ := List.cons.inj hpending'
          exact hne hzero
        exact ⟨c', rest', (Function.update_of_ne hother _ _).trans hpending', hne, hi⟩
  | @lock w c rest hpending hne hfree =>
      refine ⟨h.programs, h.order, h.represents, fun i other hheld ↦ ?_⟩
      dsimp only at hheld
      by_cases hi : i = index c
      · subst hi
        rw [Function.update_self] at hheld
        obtain rfl := Option.some.inj hheld
        exact ⟨c, rest, hpending, hne, rfl⟩
      · rw [Function.update_of_ne hi] at hheld
        exact h.holders i other hheld
  | @answer w c rest answer s' hpending hne hheld hclaim =>
      obtain ⟨answer', s'', hclaim', -, hpos⟩ := htracks.step _ _ c (h.represents (index c))
      rw [hclaim] at hclaim'
      obtain ⟨rfl, rfl⟩ := Prod.mk.inj (Option.some.inj hclaim')
      obtain ⟨hrepresents, hold, hnew⟩ := hpos hne
      rw [mem_claimedKeys_answeredIn hindex] at hold hnew
      refine ⟨programs_step h.programs hpending answer, ?_, fun i ↦ ?_, fun i other hother ↦ ?_⟩
      · simp only [List.map_append, List.map_singleton]
        exact h.order.concat (fun _ ↦ hnew) fun hor ↦ hold (hor.resolve_left hne)
      · rw [answeredIn_concat]
        by_cases hi : index c = i
        · subst hi
          rw [if_pos rfl, claimedKeys_concat hne]
          simpa only [Function.update_self] using hrepresents
        · rw [if_neg hi]
          simpa only [Function.update_of_ne (Ne.symm hi)] using h.represents i
      · dsimp only at hother
        by_cases hi : i = index c
        · subst hi
          rw [Function.update_self] at hother
          cases hother
        · rw [Function.update_of_ne hi] at hother
          obtain ⟨c', rest', hpending', hne', hi'⟩ := h.holders i other hother
          have hworker : other ≠ w := by
            rintro rfl
            rw [hpending] at hpending'
            obtain ⟨rfl, -⟩ := List.cons.inj hpending'
            exact hi hi'.symm
          exact ⟨c', rest', (Function.update_of_ne hworker _ _).trans hpending', hne', hi'⟩

theorem consistent_of_reachable (htracks : TracksFirst claims claim Represents)
    (hindex : ∀ c c', claims.key c = claims.key c' → index c = index c') {s : σ}
    (hs : Represents s ∅)
    (hreach : Relation.ReflTransGen (ShardedStep claims index claim) (initial s programs) state) :
    Consistent claims index Represents programs state := by
  induction hreach with
  | refl => exact consistent_initial hs
  | tail _ hstep ih => exact ih.step htracks hindex hstep

/-- As long as a worker has claims to make, some worker can go on. -/
theorem Sharded.Consistent.exists_step (htracks : TracksFirst claims claim Represents)
    (h : Consistent claims index Represents programs state) {w : W} {c : ι} {rest : List ι}
    (hpending : state.pending w = c :: rest) :
    ∃ next, ShardedStep claims index claim state next := by
  by_cases hzero : claims.amount c = 0
  · exact ⟨_, .nothing hpending hzero⟩
  · cases hholder : state.holder (index c) with
    | none => exact ⟨_, .lock hpending hzero hholder⟩
    | some other =>
        obtain ⟨c', rest', hpending', hne, hi⟩ := h.holders _ _ hholder
        obtain ⟨answer, s', hclaim, -⟩ := htracks.step _ _ c' (h.represents (index c'))
        exact ⟨_, .answer hpending' hne (hi ▸ hholder) hclaim⟩

end Shards

end FirstClaims
