import Mathlib.Data.List.Nodup
import Mathlib.Order.Basic

/-!
# Bounded lists in the order of change

A list holds one entry for each of its keys, and room for so many. An entry that
changes goes to its end; a new entry takes the place of the first when there is no
room. In any run the list is then in the order of the last changes.
-/

namespace RecencyList

variable {α κ : Type} (key : α → κ)

def Distinct (l : List α) : Prop := (l.map key).Nodup

theorem Distinct.sublist {key : α → κ} {l₁ l₂ : List α} (h : Distinct key l₂) (hsub : l₁.Sublist l₂) :
    Distinct key l₁ := List.Nodup.sublist (hsub.map key) h

theorem Distinct.concat {key : α → κ} {l : List α} {a : α} (h : Distinct key l)
    (hnew : ∀ b ∈ l, key b ≠ key a) : Distinct key (l ++ [a]) := by
  rw [Distinct, List.map_append, List.map_singleton]
  refine List.Nodup.append h (List.nodup_singleton _) fun k hk hsame ↦ ?_
  obtain ⟨b, hb, rfl⟩ := List.mem_map.mp hk
  exact hnew b hb (List.mem_singleton.mp hsame)

section Lists

variable [DecidableEq κ] (room : ℕ)

def find (l : List α) (k : κ) : Option α := l.find? fun a ↦ key a = k

/-- The entries that stay in front of a changed or new one. -/
def others (l : List α) (k : κ) : List α :=
  if (find key l k).isSome then l.filter fun a ↦ key a ≠ k
  else if l.length = room then l.tail else l

section Entries

variable {key room} {l : List α} {a b : α} {k : κ}

theorem mem_of_find (h : find key l k = some a) : a ∈ l ∧ key a = k := by
  have hkey := List.find?_some (p := fun a ↦ key a = k) h
  exact ⟨List.mem_of_find?_eq_some h, of_decide_eq_true hkey⟩

theorem find_eq_none_iff : find key l k = none ↔ ∀ a ∈ l, key a ≠ k := by
  simp [find]

theorem find_eq_some_iff (hdistinct : Distinct key l) :
    find key l k = some a ↔ a ∈ l ∧ key a = k := by
  refine ⟨mem_of_find, fun ⟨hmem, hkey⟩ ↦ ?_⟩
  cases hfind : find key l k with
  | none => exact absurd hkey (find_eq_none_iff.mp hfind a hmem)
  | some b =>
      obtain ⟨hb, hsame⟩ := mem_of_find hfind
      exact congrArg some (List.inj_on_of_nodup_map hdistinct hb hmem (hsame.trans hkey.symm))

theorem sublist_others : (others key room l k).Sublist l := by
  unfold others
  split_ifs
  · exact List.filter_sublist
  · exact List.tail_sublist l
  · exact List.Sublist.refl l

theorem key_ne_of_mem_others (h : b ∈ others key room l k) : key b ≠ k := by
  unfold others at h
  split at h
  case isTrue => simpa using (List.mem_filter.mp h).2
  case isFalse hnone =>
    have hmem : b ∈ l := by
      split at h
      · exact List.mem_of_mem_tail h
      · exact h
    exact find_eq_none_iff.mp (Option.not_isSome_iff_eq_none.mp hnone) b hmem

theorem length_others_lt (hroom : 0 < room) (hlength : l.length ≤ room) :
    (others key room l k).length < room := by
  unfold others
  split_ifs with hsome hfull
  · obtain ⟨b, hb⟩ := Option.isSome_iff_exists.mp hsome
    have hshorter : (l.filter fun a ↦ key a ≠ k).length < l.length :=
      List.length_filter_lt_length_iff_exists.mpr
        ⟨b, (mem_of_find hb).1, by simpa using (mem_of_find hb).2⟩
    omega
  · rw [List.length_tail]
    omega
  · omega

/-- An entry stays, unless it is the first of a full list without the key. -/
theorem mem_others (hkey : key b ≠ k) : b ∈ others key room l k ↔
    b ∈ l ∧ (find key l k = none → l.length = room → b ∈ l.tail) := by
  unfold others
  split_ifs with hsome hfull
  · have hnone : find key l k ≠ none := Option.isSome_iff_ne_none.mp hsome
    simp [hkey, hnone]
  · have hnone := Option.not_isSome_iff_eq_none.mp hsome
    simpa [hnone, hfull] using List.mem_of_mem_tail
  · simp [hfull]

/-- The position of a key leads to its entry, and to the others. -/
theorem eraseIdx_findIdx? {i : ℕ} (hdistinct : Distinct key l)
    (h : l.findIdx? (fun a ↦ key a = k) = some i) :
    l[i]? = find key l k ∧ l.eraseIdx i = l.filter fun a ↦ key a ≠ k := by
  induction l generalizing i with
  | nil => cases h
  | cons a l ih =>
      obtain ⟨hnew, hrest⟩ := List.nodup_cons.mp hdistinct
      rw [List.findIdx?_cons] at h
      split at h
      case isTrue hkey =>
        obtain rfl := Option.some.inj h
        obtain rfl := of_decide_eq_true hkey
        have hother : ∀ b ∈ l, key b ≠ key a := fun b hb hsame ↦ hnew (List.mem_map.mpr ⟨b, hb, hsame⟩)
        have hfilter : (l.filter fun b ↦ key b ≠ key a) = l := by simpa using hother
        simp only [find, List.getElem?_cons_zero, decide_true, List.find?_cons_of_pos, List.eraseIdx_cons_zero,
          true_and, ne_eq, not_true_eq_false, decide_false, Bool.false_eq_true, not_false_eq_true,
          List.filter_cons_of_neg]
        exact hfilter.symm
      case isFalse hkey =>
        obtain ⟨j, hj, rfl⟩ := Option.map_eq_some_iff.mp h
        obtain ⟨hentry, hothers⟩ := ih hrest hj
        have hne : ¬ key a = k := by simpa using hkey
        simp only [find, List.getElem?_cons_succ, hentry, List.eraseIdx_cons_succ, hothers]
        simp [hne]

end Entries

variable [DecidableEq α]

def record (l : List α) (a : α) : List α :=
  if find key l (key a) = some a then l else others key room l (key a) ++ [a]

section Record

variable {key room} {l : List α} {a b : α} {k : κ}

theorem Distinct.record (h : Distinct key l) (a : α) : Distinct key (record key room l a) := by
  unfold RecencyList.record
  split
  · exact h
  · exact Distinct.concat (h.sublist sublist_others) fun b hb ↦ key_ne_of_mem_others hb

theorem length_record_le (hroom : 0 < room) (hlength : l.length ≤ room) (a : α) :
    (record key room l a).length ≤ room := by
  unfold record
  split
  · exact hlength
  · have hothers : (others key room l (key a)).length < room := length_others_lt hroom hlength
    rw [List.length_append, List.length_singleton]
    omega

theorem find_record_self (hdistinct : Distinct key l) (a : α) :
    find key (record key room l a) (key a) = some a := by
  refine (find_eq_some_iff (hdistinct.record a)).mpr ⟨?_, rfl⟩
  unfold record
  split
  case isTrue h => exact (mem_of_find h).1
  case isFalse => exact List.mem_concat_self

/-- Other keys keep their entries while there is room. -/
theorem find_record_of_ne (hdistinct : Distinct key l) (hk : k ≠ key a)
    (hroom : find key l (key a) = none → l.length ≠ room) :
    find key (record key room l a) k = find key l k := by
  refine Option.ext fun b ↦ ?_
  rw [find_eq_some_iff (hdistinct.record a), find_eq_some_iff hdistinct]
  refine and_congr_left fun hkey ↦ ?_
  unfold record
  split
  · rfl
  · have hb : b ≠ a := fun hsame ↦ hk (hkey.symm.trans (congrArg key hsame))
    rw [List.mem_append, List.mem_singleton, or_iff_left hb, mem_others (hkey ▸ hk)]
    exact and_iff_left fun hnone hfull ↦ absurd hfull (hroom hnone)

/-- A new entry of a full list takes the place of the first. -/
theorem find_record_of_full {first : α} {rest : List α} (hdistinct : Distinct key (first :: rest))
    (hnew : find key (first :: rest) (key a) = none) (hfull : (first :: rest).length = room) (hk : k ≠ key a) :
    find key (record key room (first :: rest) a) k =
      if k = key first then none else find key (first :: rest) k := by
  have hrecord : record key room (first :: rest) a = rest ++ [a] := by
    rw [record, if_neg (by simp [hnew]), others, if_neg (by simp [hnew]), if_pos hfull, List.tail_cons]
  have ha : key a ≠ k := hk.symm
  rw [hrecord]
  split
  case isTrue hfirst =>
    have hrest := (List.nodup_cons.mp hdistinct).1
    refine find_eq_none_iff.mpr fun b hb hkey ↦ ?_
    rcases List.mem_append.mp hb with hb | hb
    · exact hrest (List.mem_map.mpr ⟨b, hb, hkey.trans hfirst⟩)
    · exact ha (List.mem_singleton.mp hb ▸ hkey)
  case isFalse hfirst =>
    simp [find, ha, Ne.symm hfirst]

end Record

end Lists

/-! ## Last changes -/

section Runs

variable {ι ν : Type} {value : List ι → ν} {calls : List ι} {call : ι} {i j : ℕ}

/-- In a run of these calls the value changes with call `i` for the last time. -/
structure LastChange (value : List ι → ν) (calls : List ι) (i : ℕ) : Prop where
  lt_length : i < calls.length
  changes : value (calls.take (i + 1)) ≠ value (calls.take i)
  keeps : ∀ j, i < j → j < calls.length → value (calls.take (j + 1)) = value (calls.take j)

theorem LastChange.unique (hi : LastChange value calls i) (hj : LastChange value calls j) : i = j := by
  rcases Nat.lt_trichotomy i j with hlt | heq | hgt
  · exact absurd (hi.keeps j hlt hj.lt_length) hj.changes
  · exact heq
  · exact absurd (hj.keeps i hgt hi.lt_length) hi.changes

theorem lastChange_concat (h : value (calls ++ [call]) ≠ value calls) :
    LastChange value (calls ++ [call]) calls.length := by
  refine ⟨by simp, ?_, fun j hlow hhigh ↦ ?_⟩
  · rwa [List.take_left, List.take_of_length_le (by simp)]
  · rw [List.length_append, List.length_singleton] at hhigh
    omega

theorem lastChange_concat_iff (h : value (calls ++ [call]) = value calls) :
    LastChange value (calls ++ [call]) i ↔ LastChange value calls i := by
  have hstep : ∀ j < calls.length, (calls ++ [call]).take (j + 1) = calls.take (j + 1) ∧
      (calls ++ [call]).take j = calls.take j := fun j hj ↦
    ⟨List.take_append_of_le_length hj, List.take_append_of_le_length (Nat.le_of_lt hj)⟩
  have hlast : value ((calls ++ [call]).take (calls.length + 1)) =
      value ((calls ++ [call]).take calls.length) := by
    rwa [List.take_left, List.take_of_length_le (by simp)]
  constructor
  · rintro ⟨hlt, hchanges, hkeeps⟩
    rw [List.length_append, List.length_singleton] at hlt hkeeps
    have hi : i < calls.length := by
      refine Nat.lt_of_le_of_ne (Nat.lt_succ_iff.mp hlt) ?_
      rintro rfl
      exact hchanges hlast
    refine ⟨hi, ?_, fun j hlow hhigh ↦ ?_⟩
    · rwa [(hstep i hi).1, (hstep i hi).2] at hchanges
    · have hkept := hkeeps j hlow (by omega)
      rwa [(hstep j hhigh).1, (hstep j hhigh).2] at hkept
  · rintro ⟨hlt, hchanges, hkeeps⟩
    refine ⟨by simp; omega, ?_, fun j hlow hhigh ↦ ?_⟩
    · rwa [(hstep i hlt).1, (hstep i hlt).2]
    · rw [List.length_append, List.length_singleton] at hhigh
      rcases Nat.lt_or_ge j calls.length with hj | hj
      · rw [(hstep j hj).1, (hstep j hj).2]
        exact hkeeps j hlow hj
      · obtain rfl : j = calls.length := by omega
        exact hlast

end Runs

section Order

variable {ι ν : Type} {key} {value : κ → List ι → ν} {calls : List ι} {call : ι} {l kept : List α} {a : α}

/-- The list is in the order of the last changes of its keys. -/
structure InOrder (key : α → κ) (value : κ → List ι → ν) (calls : List ι) (l : List α) : Prop where
  changed : ∀ a ∈ l, ∃ i, LastChange (value (key a)) calls i
  ordered : l.Pairwise fun a b ↦ ∀ i j, LastChange (value (key a)) calls i →
    LastChange (value (key b)) calls j → i < j

theorem InOrder.keep (h : InOrder key value calls l) (hsub : kept.Sublist l)
    (hsame : ∀ b ∈ kept, value (key b) (calls ++ [call]) = value (key b) calls) :
    InOrder key value (calls ++ [call]) kept := by
  constructor
  · intro b hb
    obtain ⟨i, hi⟩ := h.changed b (hsub.subset hb)
    exact ⟨i, (lastChange_concat_iff (hsame b hb)).mpr hi⟩
  · refine (h.ordered.sublist hsub).imp_of_mem fun hb hc hlt i j hi hj ↦ ?_
    exact hlt i j ((lastChange_concat_iff (hsame _ hb)).mp hi) ((lastChange_concat_iff (hsame _ hc)).mp hj)

theorem InOrder.concat (h : InOrder key value calls l) (hsub : kept.Sublist l)
    (hsame : ∀ b ∈ kept, value (key b) (calls ++ [call]) = value (key b) calls)
    (hchanges : value (key a) (calls ++ [call]) ≠ value (key a) calls) :
    InOrder key value (calls ++ [call]) (kept ++ [a]) := by
  have hkept := h.keep hsub hsame
  have hlast := lastChange_concat hchanges
  constructor
  · intro b hb
    rcases List.mem_append.mp hb with hb | hb
    · exact hkept.changed b hb
    · exact List.mem_singleton.mp hb ▸ ⟨_, hlast⟩
  · refine List.pairwise_append.mpr ⟨hkept.ordered, List.pairwise_singleton _ _, ?_⟩
    intro b hb c hc i j hi hj
    obtain rfl := List.mem_singleton.mp hc
    rw [hj.unique hlast]
    exact ((lastChange_concat_iff (hsame b hb)).mp hi).lt_length

theorem inOrder_nil : InOrder key value calls [] := ⟨by simp, List.Pairwise.nil⟩

end Order

end RecencyList
