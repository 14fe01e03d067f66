import Mathlib.Data.List.Forall2

/-!
# Computations that may fail

A successful sequence of steps is taken apart into its steps, and the failures of
a sequence are those of its steps.
-/

namespace Attempts

variable {ε α β σ : Type}

/-! ## Successes -/

theorem bind_eq_ok_iff {x : Except ε α} {f : α → Except ε β} {b : β} :
    (x >>= f) = .ok b ↔ ∃ a, x = .ok a ∧ f a = .ok b := by
  cases x with
  | error e => exact iff_of_false (fun h ↦ by cases h) fun ⟨_, h, _⟩ ↦ by cases h
  | ok a => exact ⟨fun h ↦ ⟨a, rfl, h⟩, fun ⟨_, ha, hb⟩ ↦ Except.ok.inj ha ▸ hb⟩

theorem map_eq_ok_iff {x : Except ε α} {f : α → β} {b : β} :
    (f <$> x) = .ok b ↔ ∃ a, x = .ok a ∧ f a = b := by
  cases x with
  | error e => exact iff_of_false (fun h ↦ by cases h) fun ⟨_, h, _⟩ ↦ by cases h
  | ok a => exact ⟨fun h ↦ ⟨a, rfl, Except.ok.inj h⟩, fun ⟨_, ha, hb⟩ ↦
      congrArg Except.ok (Except.ok.inj ha ▸ hb)⟩

theorem pure_eq_ok_iff {a b : α} : (pure a : Except ε α) = .ok b ↔ a = b :=
  ⟨Except.ok.inj, congrArg Except.ok⟩

/-- Every element gives a result. -/
theorem forall₂_of_mapM {f : α → Except ε β} {l : List α} {results : List β}
    (h : l.mapM f = .ok results) : List.Forall₂ (fun a b ↦ f a = .ok b) l results := by
  induction l generalizing results with
  | nil => exact Except.ok.inj h ▸ List.Forall₂.nil
  | cons a rest ih =>
      rw [List.mapM_cons, bind_eq_ok_iff] at h
      obtain ⟨b, hb, h⟩ := h
      obtain ⟨others, hothers, h⟩ := bind_eq_ok_iff.mp h
      exact Except.ok.inj h ▸ List.Forall₂.cons hb (ih hothers)

theorem mapM_of_forall₂ {f : α → Except ε β} {l : List α} {results : List β}
    (h : List.Forall₂ (fun a b ↦ f a = .ok b) l results) : l.mapM f = .ok results := by
  induction h with
  | nil => rfl
  | cons hfirst _ ih =>
      rw [List.mapM_cons, bind_eq_ok_iff]
      exact ⟨_, hfirst, bind_eq_ok_iff.mpr ⟨_, ih, rfl⟩⟩

theorem mapM_eq_map {f : α → Except ε β} {k : α → β} {l : List α} (h : ∀ a ∈ l, f a = .ok (k a)) :
    l.mapM f = .ok (l.map k) :=
  mapM_of_forall₂ (List.forall₂_map_right_iff.mpr (List.forall₂_same.mpr h))

theorem exists_of_mem_mapM {f : α → Except ε β} {l : List α} {results : List β}
    (h : l.mapM f = .ok results) {b : β} (hb : b ∈ results) : ∃ a ∈ l, f a = .ok b := by
  obtain ⟨i, hi, rfl⟩ := List.getElem_of_mem hb
  have hall := List.forall₂_iff_get.mp (forall₂_of_mapM h)
  have hlt : i < l.length := hall.1.symm ▸ hi
  exact ⟨l[i], List.getElem_mem hlt, hall.2 i hlt hi⟩

theorem exists_mem_of_mapM {f : α → Except ε β} {l : List α} {results : List β}
    (h : l.mapM f = .ok results) {a : α} (ha : a ∈ l) : ∃ b ∈ results, f a = .ok b := by
  obtain ⟨i, hi, rfl⟩ := List.getElem_of_mem ha
  have hall := List.forall₂_iff_get.mp (forall₂_of_mapM h)
  have hlt : i < results.length := hall.1 ▸ hi
  exact ⟨results[i], List.getElem_mem hlt, hall.2 i hi hlt⟩

theorem map_eq_of_mapM {γ : Type} {f : α → Except ε β} {l : List α} {results : List β}
    (h : l.mapM f = .ok results) {g : β → γ} {k : α → γ}
    (hstep : ∀ a ∈ l, ∀ b, f a = .ok b → g b = k a) : results.map g = l.map k := by
  have hall := List.forall₂_iff_get.mp (forall₂_of_mapM h)
  refine List.ext_getElem (by simp [hall.1]) fun i hi hj ↦ ?_
  rw [List.length_map] at hi hj
  rw [List.getElem_map, List.getElem_map]
  exact hstep _ (List.getElem_mem hj) _ (hall.2 i hj hi)

/-- A loop that keeps a state takes a value for every element. -/
theorem exists_of_mapM_state {γ : Type} {g : α → StateT σ (Except ε) γ} (k : α → γ → β) {l : List α}
    {s t : σ} {results : List β}
    (h : (l.mapM fun a ↦ g a >>= fun c ↦ pure (k a c)).run s = .ok (results, t)) :
    ∃ values, List.Forall₂ (fun a c ↦ ∃ before after, (g a).run before = .ok (c, after)) l values ∧
      results = List.zipWith k l values := by
  induction l generalizing s t results with
  | nil =>
      obtain ⟨rfl, -⟩ := Prod.mk.inj (Except.ok.inj h)
      exact ⟨[], .nil, rfl⟩
  | cons a rest ih =>
      rw [List.mapM_cons] at h
      simp only [StateT.run_bind, StateT.run_pure, bind_assoc, pure_bind] at h
      obtain ⟨⟨c, next⟩, hfirst, h⟩ := bind_eq_ok_iff.mp h
      obtain ⟨⟨others, last⟩, hrest, h⟩ := bind_eq_ok_iff.mp h
      obtain ⟨rfl, -⟩ := Prod.mk.inj (Except.ok.inj h)
      obtain ⟨values, hvalues, rfl⟩ := ih hrest
      exact ⟨c :: values, .cons ⟨s, next, hfirst⟩ hvalues, rfl⟩

theorem forM_cons (f : α → Except ε Unit) (a : α) (rest : List α) :
    (a :: rest).forM f = f a >>= fun _ ↦ rest.forM f := rfl

theorem forall_of_forM {f : α → Except ε Unit} {l : List α} (h : l.forM f = .ok ()) :
    ∀ a ∈ l, f a = .ok () := by
  induction l with
  | nil => exact fun a ha ↦ by cases ha
  | cons a rest ih =>
      obtain ⟨_, hfirst, hrest⟩ := bind_eq_ok_iff.mp ((forM_cons f a rest).symm.trans h)
      exact List.forall_mem_cons.mpr ⟨hfirst, ih hrest⟩

/-- What holds first, and is kept by every step that succeeds, holds in the end. -/
theorem foldlM_induction {f : σ → α → Except ε σ} {l : List α} {s t : σ}
    (h : l.foldlM f s = .ok t) (motive : List α → σ → Prop) (hnil : motive [] s)
    (hstep : ∀ done a s t, motive done s → f s a = .ok t → motive (done ++ [a]) t) : motive l t := by
  suffices hall : ∀ done s, motive done s → l.foldlM f s = .ok t → motive (done ++ l) t from
    hall [] s hnil h
  clear h hnil s
  induction l with
  | nil =>
      intro done s hdone h
      rw [List.append_nil]
      exact Except.ok.inj h ▸ hdone
  | cons a rest ih =>
      intro done s hdone h
      rw [List.foldlM_cons, bind_eq_ok_iff] at h
      obtain ⟨next, hnext, h⟩ := h
      have hrest := ih (done ++ [a]) next (hstep done a s next hdone hnext) h
      rwa [List.append_assoc, List.singleton_append] at hrest

theorem foldlM_eq_foldl {f : σ → α → Except ε σ} {g : σ → α → σ} {l : List α} {s : σ}
    (h : ∀ s, ∀ a ∈ l, f s a = .ok (g s a)) : l.foldlM f s = .ok (l.foldl g s) := by
  induction l generalizing s with
  | nil => rfl
  | cons a rest ih =>
      rw [List.foldlM_cons]
      exact bind_eq_ok_iff.mpr ⟨g s a, h s a List.mem_cons_self, ih fun s b hb ↦
        h s b (List.mem_cons_of_mem a hb)⟩

theorem foldlM_eq_self {f : σ → α → Except ε σ} {l : List α} {s : σ} (h : ∀ a ∈ l, f s a = .ok s) :
    l.foldlM f s = .ok s := by
  induction l with
  | nil => rfl
  | cons a rest ih =>
      obtain ⟨hfirst, hrest⟩ := List.forall_mem_cons.mp h
      rw [List.foldlM_cons]
      exact bind_eq_ok_iff.mpr ⟨s, hfirst, ih hrest⟩

/-- Every element is taken by a step that succeeds. -/
theorem exists_of_foldlM {f : σ → α → Except ε σ} {l : List α} {s t : σ}
    (h : l.foldlM f s = .ok t) : ∀ a ∈ l, ∃ before after, f before a = .ok after := by
  refine foldlM_induction h (fun done _ ↦ ∀ a ∈ done, ∃ before after, f before a = .ok after)
    (fun a ha ↦ by cases ha) fun done a before after hdone hstep ↦ ?_
  exact List.forall_mem_append.mpr ⟨hdone, List.forall_mem_singleton.mpr ⟨before, after, hstep⟩⟩

/-! ## Failures -/

/-- It fails with what is allowed only. -/
def FailsOnly (allowed : ε → Prop) (x : Except ε α) : Prop := ∀ e, x = .error e → allowed e

variable {allowed : ε → Prop}

theorem failsOnly_ok (a : α) : FailsOnly allowed (.ok a : Except ε α) := fun e h ↦ by cases h

theorem failsOnly_pure (a : α) : FailsOnly allowed (pure a : Except ε α) := failsOnly_ok a

theorem failsOnly_error {e : ε} (h : allowed e) : FailsOnly allowed (.error e : Except ε α) :=
  fun _ heq ↦ Except.error.inj heq ▸ h

theorem failsOnly_of_eq_ok {x : Except ε α} {a : α} (h : x = .ok a) : FailsOnly allowed x :=
  h ▸ failsOnly_ok a

theorem FailsOnly.bind {x : Except ε α} {f : α → Except ε β} (hx : FailsOnly allowed x)
    (hf : ∀ a, x = .ok a → FailsOnly allowed (f a)) : FailsOnly allowed (x >>= f) := by
  cases x with
  | error e => exact failsOnly_error (hx e rfl)
  | ok a => exact hf a rfl

theorem failsOnly_bind_of_eq_ok {x : Except ε α} {a : α} (hx : x = .ok a) {f : α → Except ε β}
    (hf : FailsOnly allowed (f a)) : FailsOnly allowed (x >>= f) := hx ▸ hf

/-- A sequence fails with what is allowed exactly when both of its steps do. -/
theorem failsOnly_bind_iff {x : Except ε α} {f : α → Except ε β} :
    FailsOnly allowed (x >>= f) ↔
      FailsOnly allowed x ∧ ∀ a, x = .ok a → FailsOnly allowed (f a) := by
  refine ⟨fun h ↦ ?_, fun h ↦ h.1.bind h.2⟩
  cases x with
  | error e => exact ⟨failsOnly_error (h e rfl), fun a ha ↦ by cases ha⟩
  | ok a => exact ⟨failsOnly_ok a, fun b hb ↦ Except.ok.inj hb ▸ h⟩

theorem failsOnly_error_iff {e : ε} : FailsOnly allowed (.error e : Except ε α) ↔ allowed e :=
  ⟨fun h ↦ h e rfl, failsOnly_error⟩

theorem FailsOnly.map {x : Except ε α} (hx : FailsOnly allowed x) (f : α → β) :
    FailsOnly allowed (f <$> x) := by
  cases x with
  | error e => exact failsOnly_error (hx e rfl)
  | ok a => exact failsOnly_ok (f a)

/-- Nothing keeps it from a result. -/
abbrev Succeeds (x : Except ε α) : Prop := FailsOnly (fun _ ↦ False) x

theorem Succeeds.exists_ok {x : Except ε α} (h : Succeeds x) : ∃ a, x = .ok a := by
  cases x with
  | error e => exact (h e rfl).elim
  | ok a => exact ⟨a, rfl⟩

theorem FailsOnly.mapM {f : α → Except ε β} {l : List α} (h : ∀ a ∈ l, FailsOnly allowed (f a)) :
    FailsOnly allowed (l.mapM f) := by
  induction l with
  | nil => exact failsOnly_ok []
  | cons a rest ih =>
      obtain ⟨hfirst, hrest⟩ := List.forall_mem_cons.mp h
      rw [List.mapM_cons]
      exact hfirst.bind fun b _ ↦ (ih hrest).bind fun others _ ↦ failsOnly_ok _

theorem FailsOnly.forM {f : α → Except ε Unit} {l : List α} (h : ∀ a ∈ l, FailsOnly allowed (f a)) :
    FailsOnly allowed (l.forM f) := by
  induction l with
  | nil => exact failsOnly_ok _
  | cons a rest ih =>
      obtain ⟨hfirst, hrest⟩ := List.forall_mem_cons.mp h
      exact forM_cons f a rest ▸ hfirst.bind fun _ _ ↦ ih hrest

theorem FailsOnly.foldlM {f : σ → α → Except ε σ} {l : List α} {s : σ}
    (h : ∀ s, ∀ a ∈ l, FailsOnly allowed (f s a)) : FailsOnly allowed (l.foldlM f s) := by
  induction l generalizing s with
  | nil => exact failsOnly_ok s
  | cons a rest ih =>
      rw [List.foldlM_cons]
      exact (h s a List.mem_cons_self).bind fun next _ ↦
        ih fun s b hb ↦ h s b (List.mem_cons_of_mem a hb)

end Attempts
