import Mathlib.Algebra.BigOperators.Group.List.Basic
import WinBlaze.Lib.IdMap

/-!
# Totals by key

A tally adds up a value for every record under the key of the record. A key
that no record has, has no total. Tallying parts and merging them is tallying
the whole, and the order of the records does not matter.
-/

namespace Tally

variable {κ M ρ : Type*} [DecidableEq κ] [AddCommMonoid M]

/-- Add to the total of a key; a key without a total starts at zero. -/
def add (totals : IdMap κ M) (k : κ) (a : M) : IdMap κ M :=
  totals.set k ((totals.find? k).getD 0 + a)

/-- Add the value of every record under its key. -/
def addAll (key : ρ → κ) (value : ρ → M) (totals : IdMap κ M) (l : List ρ) : IdMap κ M :=
  l.foldl (fun totals r ↦ add totals (key r) (value r)) totals

def ofList (key : ρ → κ) (value : ρ → M) (l : List ρ) : IdMap κ M := addAll key value .empty l

/-- Add the totals of `more`. -/
def merge (totals more : IdMap κ M) : IdMap κ M := addAll Prod.fst Prod.snd totals more.records

/-- What the records with a key add up to; `none` where there is no such record. -/
def total (key : ρ → κ) (value : ρ → M) (l : List ρ) (k : κ) : Option M :=
  if k ∈ l.map key then some ((l.filter (fun r ↦ key r = k)).map value).sum else none

variable (key : ρ → κ) (value : ρ → M)

theorem find?_add (totals : IdMap κ M) (k l : κ) (a : M) :
    (add totals k a).find? l = Option.merge (· + ·) (totals.find? l) (if l = k then some a else none) := by
  rw [add, IdMap.find?_set]
  split
  case isTrue h =>
    subst h
    cases totals.find? l <;> simp
  case isFalse => simp

theorem total_nil (k : κ) : total key value [] k = none := if_neg List.not_mem_nil

theorem total_append (l m : List ρ) (k : κ) :
    total key value (l ++ m) k = Option.merge (· + ·) (total key value l k) (total key value m k) := by
  have hnone : ∀ n : List ρ, k ∉ n.map key → n.filter (fun r ↦ key r = k) = [] := by
    intro n hn
    apply List.filter_eq_nil_iff.mpr
    intro r hr hkey
    exact hn (List.mem_map.mpr ⟨r, hr, of_decide_eq_true hkey⟩)
  simp only [total, List.map_append, List.mem_append, List.filter_append, List.sum_append]
  by_cases hl : k ∈ l.map key <;> by_cases hm : k ∈ m.map key
  · simp only [hl, hm, or_self, if_true, Option.merge_some_some]
  · simp only [hl, hm, or_false, if_true, if_false, hnone m hm, List.map_nil, List.sum_nil, add_zero,
      Option.merge_none_right]
  · simp only [hl, hm, or_true, if_true, if_false, hnone l hl, List.map_nil, List.sum_nil, zero_add,
      Option.merge_none_left]
  · simp only [hl, hm, or_self, if_false, Option.merge_none_right]

theorem total_singleton (r : ρ) (k : κ) :
    total key value [r] k = if k = key r then some (value r) else none := by
  by_cases h : k = key r
  · simp [total, h]
  · simp [total, h]

theorem find?_addAll (totals : IdMap κ M) (l : List ρ) (k : κ) :
    (addAll key value totals l).find? k =
      Option.merge (· + ·) (totals.find? k) (total key value l k) := by
  induction l generalizing totals with
  | nil => simp [addAll, total_nil]
  | cons r rest ih =>
      have hcons := total_append key value [r] rest k
      rw [List.singleton_append, total_singleton] at hcons
      have hrest := ih (add totals (key r) (value r))
      rw [find?_add] at hrest
      rw [hcons]
      refine hrest.trans ?_
      cases totals.find? k <;> cases total key value rest k <;> split <;> simp [add_assoc]

theorem find?_ofList (l : List ρ) (k : κ) :
    (ofList key value l).find? k = total key value l k := by
  simp [ofList, find?_addAll]

/-- A key has one total. -/
theorem total_records (totals : IdMap κ M) (k : κ) :
    total Prod.fst Prod.snd totals.records k = totals.find? k := by
  cases hfind : totals.find? k with
  | none =>
      refine if_neg fun hmem ↦ ?_
      obtain ⟨⟨l, a⟩, hpair, rfl⟩ := List.mem_map.mp hmem
      rw [(IdMap.find?_eq_some_iff totals l a).mpr hpair] at hfind
      cases hfind
  | some a =>
      have hmem := (IdMap.find?_eq_some_iff totals k a).mp hfind
      have hfilter : totals.records.filter (fun pair ↦ pair.1 = k) = [(k, a)] := by
        apply List.perm_singleton.mp
        refine (List.perm_ext_iff_of_nodup ?_ (List.nodup_singleton _)).mpr fun pair ↦ ?_
        · exact (List.Nodup.of_map _ totals.nodup_keys).filter _
        · rw [List.mem_filter, List.mem_singleton, decide_eq_true_iff]
          constructor
          · rintro ⟨hpair, rfl⟩
            have hsame := (IdMap.find?_eq_some_iff totals pair.1 pair.2).mpr hpair
            rw [hfind] at hsame
            exact Prod.ext rfl (Option.some.inj hsame).symm
          · rintro rfl
            exact ⟨hmem, rfl⟩
      have hkey : k ∈ totals.records.map Prod.fst := List.mem_map.mpr ⟨_, hmem, rfl⟩
      rw [total, if_pos hkey, hfilter, List.map_singleton, List.sum_singleton]

theorem find?_merge (totals more : IdMap κ M) (k : κ) :
    (merge totals more).find? k = Option.merge (· + ·) (totals.find? k) (more.find? k) := by
  rw [merge, find?_addAll, total_records]

theorem total_perm {l m : List ρ} (h : l.Perm m) (k : κ) :
    total key value l k = total key value m k := by
  have hmem : k ∈ l.map key ↔ k ∈ m.map key := (h.map key).mem_iff
  have hsum := ((h.filter (fun r ↦ key r = k)).map value).sum_eq
  simp only [total, hmem, hsum]

/-- Merging the tallies of parts is tallying the whole. -/
theorem find?_foldl_merge (totals : IdMap κ M) (parts : List (List ρ)) (k : κ) :
    ((parts.map (ofList key value)).foldl merge totals).find? k =
      Option.merge (· + ·) (totals.find? k) (total key value parts.flatten k) := by
  induction parts generalizing totals with
  | nil => simp [total_nil]
  | cons part rest ih =>
      rw [List.map_cons, List.foldl_cons, ih, find?_merge, find?_ofList, List.flatten_cons,
        total_append]
      cases totals.find? k <;> cases total key value part k <;>
        cases total key value rest.flatten k <;> simp [add_assoc]

end Tally
