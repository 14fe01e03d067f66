import WinBlaze.Lib.Saturating
import Mathlib.Data.List.Nodup

/-!
# Renumbering by known numbers and a counter

Each item of a list receives the number it is already known by, or the next
number of a counter that starts above all known numbers. Unless the counter
saturates, different items receive different numbers.
-/

namespace Renumber

open Saturating

variable {α : Type*}

/-- The numbers of the items, and the counter behind them. -/
def assignIds (known : α → Option UInt64) : UInt64 → List α → List UInt64 × UInt64
  | next, [] => ([], next)
  | next, a :: rest =>
      match known a with
      | some id =>
          let assigned := assignIds known next rest
          (id :: assigned.1, assigned.2)
      | none =>
          let assigned := assignIds known (satAdd next 1) rest
          (next :: assigned.1, assigned.2)

variable {known : α → Option UInt64}

theorem assignIds_cons_some {a : α} {id : UInt64} (h : known a = some id) (next : UInt64)
    (rest : List α) :
    (assignIds known next (a :: rest)).1 = id :: (assignIds known next rest).1 := by
  simp [assignIds, h]

theorem assignIds_cons_none {a : α} (h : known a = none) (next : UInt64) (rest : List α) :
    (assignIds known next (a :: rest)).1 = next :: (assignIds known (satAdd next 1) rest).1 := by
  simp [assignIds, h]

@[simp] theorem length_assignIds (known : α → Option UInt64) (next : UInt64) (l : List α) :
    (assignIds known next l).1.length = l.length := by
  induction l generalizing next with
  | nil => rfl
  | cons a rest ih =>
      cases h : known a with
      | some id => rw [assignIds_cons_some h, List.length_cons, ih, List.length_cons]
      | none => rw [assignIds_cons_none h, List.length_cons, ih, List.length_cons]

theorem le_satAdd_one (next : UInt64) :
    next.toNat ≤ (satAdd next 1).toNat ∧ (satAdd next 1).toNat ≤ next.toNat + 1 := by
  have hle := toNat_le_maxValue next
  rw [toNat_satAdd, UInt64.toNat_one]
  omega

/-- An item keeps its known number; any other item gets one from the counter. -/
theorem mem_zip_assignIds {next : UInt64} {l : List α} {a : α} {id : UInt64}
    (hmem : (a, id) ∈ l.zip (assignIds known next l).1) :
    known a = some id ∨
      (known a = none ∧ next.toNat ≤ id.toNat ∧ id.toNat < next.toNat + l.length) := by
  induction l generalizing next with
  | nil => cases hmem
  | cons b rest ih =>
      rw [List.length_cons]
      cases h : known b with
      | some known_id =>
          rw [assignIds_cons_some h, List.zip_cons_cons, List.mem_cons] at hmem
          rcases hmem with heq | hmem
          · obtain ⟨rfl, rfl⟩ := Prod.mk.inj heq
            exact Or.inl h
          · rcases ih hmem with hknown | ⟨hnone, hle, hlt⟩
            · exact Or.inl hknown
            · exact Or.inr ⟨hnone, hle, by omega⟩
      | none =>
          rw [assignIds_cons_none h, List.zip_cons_cons, List.mem_cons] at hmem
          rcases hmem with heq | hmem
          · obtain ⟨rfl, rfl⟩ := Prod.mk.inj heq
            exact Or.inr ⟨h, Nat.le_refl _, by omega⟩
          · obtain ⟨hnext, hnext'⟩ := le_satAdd_one next
            rcases ih hmem with hknown | ⟨hnone, hle, hlt⟩
            · exact Or.inl hknown
            · exact Or.inr ⟨hnone, by omega, by omega⟩

theorem exists_mem_zip_assignIds (known : α → Option UInt64) (next : UInt64) {l : List α} {a : α}
    (ha : a ∈ l) : ∃ id, (a, id) ∈ l.zip (assignIds known next l).1 := by
  obtain ⟨i, hi, rfl⟩ := List.mem_iff_getElem.mp ha
  have hi' : i < (assignIds known next l).1.length := by simpa using hi
  refine ⟨(assignIds known next l).1[i], ?_⟩
  rw [List.mem_iff_getElem]
  exact ⟨i, by simpa using hi, by simp⟩

theorem mem_assignIds {next : UInt64} {l : List α} {id : UInt64}
    (hmem : id ∈ (assignIds known next l).1) :
    id ∈ l.filterMap known ∨ (next.toNat ≤ id.toNat ∧ id.toNat < next.toNat + l.length) := by
  obtain ⟨i, hi, rfl⟩ := List.mem_iff_getElem.mp hmem
  have hi' : i < l.length := by simpa using hi
  have hzip : (l[i], (assignIds known next l).1[i]) ∈ l.zip (assignIds known next l).1 := by
    rw [List.mem_iff_getElem]
    exact ⟨i, by simpa using hi', by simp⟩
  rcases mem_zip_assignIds hzip with h | ⟨_, h⟩
  · exact Or.inl (List.mem_filterMap.mpr ⟨l[i], List.getElem_mem hi', h⟩)
  · exact Or.inr h

theorem le_snd_assignIds (known : α → Option UInt64) (next : UInt64) (l : List α) :
    next.toNat ≤ (assignIds known next l).2.toNat := by
  induction l generalizing next with
  | nil => exact le_rfl
  | cons a rest ih =>
      cases h : known a with
      | some id => simpa [assignIds, h] using ih next
      | none => simpa [assignIds, h] using (le_satAdd_one next).1.trans (ih (satAdd next 1))

/-- The counter ends above all assigned numbers. -/
theorem lt_snd_assignIds {next : UInt64} {l : List α} {id : UInt64}
    (hroom : next.toNat + l.length ≤ maxValue)
    (hbelow : ∀ id ∈ l.filterMap known, id.toNat < next.toNat)
    (hmem : id ∈ (assignIds known next l).1) : id.toNat < (assignIds known next l).2.toNat := by
  induction l generalizing next with
  | nil => cases hmem
  | cons a rest ih =>
      rw [List.length_cons] at hroom
      cases h : known a with
      | some known_id =>
          rw [List.filterMap_cons_some h] at hbelow
          simp only [assignIds, h, List.mem_cons] at hmem ⊢
          rcases hmem with rfl | hmem
          · exact (hbelow id List.mem_cons_self).trans_le (le_snd_assignIds known next rest)
          · exact ih (by omega) (fun j hj ↦ hbelow j (List.mem_cons_of_mem _ hj)) hmem
      | none =>
          rw [List.filterMap_cons_none h] at hbelow
          have hnext : (satAdd next 1).toNat = next.toNat + 1 :=
            toNat_satAdd_of_le (by rw [UInt64.toNat_one]; omega)
          have hcounter := le_snd_assignIds known (satAdd next 1) rest
          simp only [assignIds, h, List.mem_cons] at hmem ⊢
          rcases hmem with rfl | hmem
          · omega
          · exact ih (by omega) (fun j hj ↦ (hbelow j hj).trans (by omega)) hmem

/-- Known numbers below the counter and different from each other make all
assigned numbers different. -/
theorem nodup_assignIds {next : UInt64} {l : List α} (hroom : next.toNat + l.length ≤ maxValue)
    (hbelow : ∀ id ∈ l.filterMap known, id.toNat < next.toNat)
    (hknown : (l.filterMap known).Nodup) : (assignIds known next l).1.Nodup := by
  induction l generalizing next with
  | nil => exact List.nodup_nil
  | cons a rest ih =>
      rw [List.length_cons] at hroom
      cases h : known a with
      | some id =>
          rw [List.filterMap_cons_some h] at hbelow hknown
          rw [List.nodup_cons] at hknown
          rw [assignIds_cons_some h, List.nodup_cons]
          refine ⟨?_, ih (by omega) (fun j hj ↦ hbelow j (List.mem_cons_of_mem _ hj)) hknown.2⟩
          intro hmem
          rcases mem_assignIds hmem with hid | ⟨hle, _⟩
          · exact hknown.1 hid
          · have := hbelow id List.mem_cons_self
            omega
      | none =>
          rw [List.filterMap_cons_none h] at hbelow hknown
          have hnext : (satAdd next 1).toNat = next.toNat + 1 :=
            toNat_satAdd_of_le (b := 1) (by rw [UInt64.toNat_one]; omega)
          rw [assignIds_cons_none h, List.nodup_cons]
          refine ⟨?_, ih (by omega) (fun j hj ↦ by have := hbelow j hj; omega) hknown⟩
          intro hmem
          rcases mem_assignIds hmem with hid | ⟨hle, _⟩
          · have := hbelow next hid
            omega
          · omega

/-- Numbers known by a key that determines the item are different. -/
theorem nodup_filterMap_known {β : Type*} {key : α → β} {l : List α} (hkeys : (l.map key).Nodup)
    (hknown : ∀ a b id, known a = some id → known b = some id → key a = key b) :
    (l.filterMap known).Nodup := by
  induction l with
  | nil => exact List.nodup_nil
  | cons a rest ih =>
      rw [List.map_cons, List.nodup_cons] at hkeys
      cases h : known a with
      | none =>
          rw [List.filterMap_cons_none h]
          exact ih hkeys.2
      | some id =>
          rw [List.filterMap_cons_some h, List.nodup_cons]
          refine ⟨?_, ih hkeys.2⟩
          intro hmem
          obtain ⟨b, hb, hid⟩ := List.mem_filterMap.mp hmem
          exact hkeys.1 (hknown a b id h hid ▸ List.mem_map_of_mem hb)

theorem map_zipWith_right {β γ δ : Type*} {f : α → β → γ} {g : γ → δ} {k : β → δ} {l : List α}
    {m : List β} (hlength : l.length = m.length) (h : ∀ a b, g (f a b) = k b) :
    (l.zipWith f m).map g = m.map k := by
  induction l generalizing m with
  | nil =>
      cases m with
      | nil => rfl
      | cons b tail => cases hlength
  | cons a rest ih =>
      cases m with
      | nil => cases hlength
      | cons b tail =>
          rw [List.zipWith_cons_cons, List.map_cons, List.map_cons, h, ih (Nat.succ.inj hlength)]

theorem map_zipWith_left {β γ δ : Type*} {f : α → β → γ} {g : γ → δ} {k : α → δ} {l : List α}
    {m : List β} (hlength : l.length = m.length) (h : ∀ a b, g (f a b) = k a) :
    (l.zipWith f m).map g = l.map k := by
  rw [List.zipWith_comm]
  exact map_zipWith_right hlength.symm fun b a ↦ h a b

theorem map_eq_map_of_zip {β γ : Type*} {f : α → γ} {g : β → γ} {l : List α} {m : List β}
    (hlength : l.length = m.length) (h : ∀ a b, (a, b) ∈ l.zip m → f a = g b) :
    l.map f = m.map g := by
  induction l generalizing m with
  | nil =>
      cases m with
      | nil => rfl
      | cons b rest => cases hlength
  | cons a rest ih =>
      cases m with
      | nil => cases hlength
      | cons b tail =>
          have hhead := h a b List.mem_cons_self
          have htail := ih (Nat.succ.inj hlength) fun c d hmem ↦
            h c d (List.mem_cons_of_mem _ hmem)
          rw [List.map_cons, List.map_cons, hhead, htail]

end Renumber
