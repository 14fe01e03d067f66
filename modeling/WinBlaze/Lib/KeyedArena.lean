import Mathlib.Data.List.Sort
import Mathlib.Data.List.Nodup

/-!
# Arenas of records stored under their own key

A keyed arena is a sequence of records with pairwise different keys. The
sequence is the arena order, so it also fixes the order in which an iterator
visits the records. Two arenas describe the same map exactly when their
sequences are permutations of each other.
-/

namespace KeyedArena

variable {κ ρ : Type*} [DecidableEq κ]

/-- Replace the record with the key of `r` in place, or append `r`. -/
def upsert (key : ρ → κ) (r : ρ) : List ρ → List ρ
  | [] => [r]
  | s :: rest => if key s = key r then r :: rest else s :: upsert key r rest

theorem mem_upsert_self (key : ρ → κ) (r : ρ) (l : List ρ) : r ∈ upsert key r l := by
  induction l with
  | nil => simp [upsert]
  | cons s rest ih =>
      by_cases hs : key s = key r <;> simp [upsert, hs, ih]

theorem upsert_upsert_self (key : ρ → κ) (r : ρ) (l : List ρ) :
    upsert key r (upsert key r l) = upsert key r l := by
  induction l with
  | nil => simp [upsert]
  | cons s rest ih =>
      by_cases hs : key s = key r
      · simp [upsert, hs]
      · simp [upsert, hs, ih]

theorem mem_upsert_keys (key : ρ → κ) (r : ρ) (l : List ρ) (k : κ) :
    k ∈ (upsert key r l).map key ↔ k = key r ∨ k ∈ l.map key := by
  induction l with
  | nil => simp [upsert]
  | cons s rest ih =>
      by_cases hs : key s = key r
      · simp [upsert, hs]
      · simp only [upsert, hs, if_false, List.map_cons, List.mem_cons, ih]
        tauto

theorem nodup_upsert (key : ρ → κ) (r : ρ) {l : List ρ} (h : (l.map key).Nodup) :
    ((upsert key r l).map key).Nodup := by
  induction l with
  | nil => simp [upsert]
  | cons s rest ih =>
      rw [List.map_cons, List.nodup_cons] at h
      by_cases hs : key s = key r
      · rw [upsert, if_pos hs, List.map_cons, List.nodup_cons, ← hs]
        exact h
      · rw [upsert, if_neg hs, List.map_cons, List.nodup_cons, mem_upsert_keys]
        exact ⟨by rintro (heq | hmem); exacts [hs heq, h.1 hmem], ih h.2⟩

theorem mem_upsert_iff (key : ρ → κ) (r : ρ) {l : List ρ} (h : (l.map key).Nodup) (s : ρ) :
    s ∈ upsert key r l ↔ s = r ∨ (s ∈ l ∧ key s ≠ key r) := by
  induction l with
  | nil => simp [upsert]
  | cons t rest ih =>
      rw [List.map_cons, List.nodup_cons] at h
      by_cases ht : key t = key r
      · have hrest : ∀ x ∈ rest, key x ≠ key r := fun x hx heq =>
          h.1 (by rw [ht, ← heq]; exact List.mem_map_of_mem hx)
        rw [upsert, if_pos ht, List.mem_cons, List.mem_cons]
        constructor
        · rintro (hs | hs)
          · exact Or.inl hs
          · exact Or.inr ⟨Or.inr hs, hrest s hs⟩
        · rintro (hs | ⟨rfl | hs, hne⟩)
          · exact Or.inl hs
          · exact (hne ht).elim
          · exact Or.inr hs
      · rw [upsert, if_neg ht, List.mem_cons, ih h.2, List.mem_cons]
        constructor
        · rintro (rfl | hs | ⟨hs, hne⟩)
          · exact Or.inr ⟨Or.inl rfl, ht⟩
          · exact Or.inl hs
          · exact Or.inr ⟨Or.inr hs, hne⟩
        · rintro (hs | ⟨hs | hs, hne⟩)
          · exact Or.inr (Or.inl hs)
          · exact Or.inl hs
          · exact Or.inr (Or.inr ⟨hs, hne⟩)

theorem upsert_of_notMem (key : ρ → κ) (r : ρ) {l : List ρ} (h : key r ∉ l.map key) :
    upsert key r l = l ++ [r] := by
  induction l with
  | nil => rfl
  | cons s rest ih =>
      rw [List.map_cons, List.mem_cons, not_or] at h
      rw [upsert, if_neg (Ne.symm h.1), ih h.2, List.cons_append]

/-! ## Removing by moving the last record into the gap -/

/-- Overwrite position `i` with the last record and drop the last slot. -/
def swapRemove (l : List ρ) (i : ℕ) : List ρ :=
  match l.getLast? with
  | none => []
  | some last => (l.set i last).dropLast

theorem swapRemove_concat (front : List ρ) (last : ρ) (i : ℕ) :
    swapRemove (front ++ [last]) i = ((front ++ [last]).set i last).dropLast := by
  simp [swapRemove]

theorem swapRemove_perm (l : List ρ) {i : ℕ} (hi : i < l.length) :
    l.Perm (l[i] :: swapRemove l i) := by
  obtain ⟨front, last, rfl⟩ : ∃ front last, l = front ++ [last] :=
    ⟨l.dropLast, l.getLast (List.ne_nil_of_length_pos (by omega)),
      (List.dropLast_append_getLast _).symm⟩
  rw [swapRemove_concat]
  by_cases hfront : i < front.length
  · have hset : ((front ++ [last]).set i last).dropLast = front.set i last := by
      rw [List.set_append_left _ _ hfront, List.dropLast_concat]
    rw [hset, List.getElem_append_left hfront]
    have hcut : front = front.take i ++ front[i] :: front.drop (i + 1) := by simp
    have hset' : front.set i last = front.take i ++ last :: front.drop (i + 1) :=
      List.set_eq_take_append_cons_drop .. |>.trans (by rw [if_pos hfront])
    rw [hset']
    calc
      front ++ [last] = (front.take i ++ front[i] :: front.drop (i + 1)) ++ [last] := by
        rw [← hcut]
      _ |>.Perm (last :: (front.take i ++ front[i] :: front.drop (i + 1))) :=
        List.perm_append_singleton ..
      _ |>.Perm (last :: front[i] :: (front.take i ++ front.drop (i + 1))) :=
        List.perm_middle.cons last
      _ |>.Perm (front[i] :: last :: (front.take i ++ front.drop (i + 1))) :=
        List.Perm.swap ..
      _ |>.Perm (front[i] :: (front.take i ++ last :: front.drop (i + 1))) :=
        List.perm_middle.symm.cons _
  · have hi' : i = front.length := by
      simp only [List.length_append, List.length_singleton] at hi
      omega
    subst hi'
    have hset : (front ++ [last]).set front.length last = front ++ [last] := by simp
    rw [hset, List.dropLast_concat]
    simp

theorem getElem?_swapRemove (l : List ρ) {i : ℕ} (hi : i < l.length) (j : ℕ) :
    (swapRemove l i)[j]? = if j + 1 < l.length then if j = i then l.getLast? else l[j]? else none := by
  obtain ⟨front, last, rfl⟩ : ∃ front last, l = front ++ [last] :=
    ⟨l.dropLast, l.getLast (List.ne_nil_of_length_pos (by omega)),
      (List.dropLast_append_getLast _).symm⟩
  rw [swapRemove_concat, List.getElem?_dropLast, List.length_set]
  have hlast : (front ++ [last]).length - 1 = front.length := by simp
  by_cases hj : j < front.length
  · have hbound : j + 1 < (front ++ [last]).length := by simp; omega
    rw [if_pos (hlast ▸ hj), if_pos hbound]
    by_cases hself : j = i
    · rw [hself, List.getElem?_set_self hi, if_pos rfl, List.getLast?_concat]
    · rw [List.getElem?_set_ne (Ne.symm hself), if_neg hself]
  · rw [if_neg (hlast ▸ hj), if_neg (by simp; omega)]

end KeyedArena

/-- Records with pairwise different keys, in arena order. -/
structure KeyedArena {κ ρ : Type*} (key : ρ → κ) where
  records : List ρ
  nodup_keys : (records.map key).Nodup

namespace KeyedArena

section Records

variable {κ ρ : Type*} {key : ρ → κ}

def empty : KeyedArena key := ⟨[], List.nodup_nil⟩

instance : Inhabited (KeyedArena key) := ⟨empty⟩

/-- The two arenas hold the same records. -/
def Same (a b : KeyedArena key) : Prop := a.records.Perm b.records

@[simp] theorem records_empty : (empty : KeyedArena key).records = [] := rfl

theorem eq_of_mem_of_key (a : KeyedArena key) {r s : ρ} (hr : r ∈ a.records)
    (hs : s ∈ a.records) (h : key r = key s) : r = s :=
  List.inj_on_of_nodup_map a.nodup_keys hr hs h

theorem Same.refl (a : KeyedArena key) : Same a a := List.Perm.refl _

end Records

variable {κ ρ : Type*} [DecidableEq κ] {key : ρ → κ}

/-- Change the records in place, keeping their keys. -/
def mapRecords (a : KeyedArena key) (f : ρ → ρ) (h : ∀ r, key (f r) = key r) : KeyedArena key :=
  ⟨a.records.map f, by
    have hkeys : key ∘ f = key := funext h
    rw [List.map_map, hkeys]
    exact a.nodup_keys⟩

def get? (a : KeyedArena key) (k : κ) : Option ρ :=
  a.records.find? (fun r ↦ key r = k)

def insert (a : KeyedArena key) (r : ρ) : KeyedArena key :=
  ⟨upsert key r a.records, nodup_upsert key r a.nodup_keys⟩

/-- Collect a sequence of records; a later record replaces an earlier one. -/
def ofList (l : List ρ) : KeyedArena key := l.foldl insert empty

def remove (a : KeyedArena key) (k : κ) : KeyedArena key :=
  match h : a.records.findIdx? (fun r ↦ key r = k) with
  | none => a
  | some i => ⟨swapRemove a.records i, by
      have hi := (List.findIdx?_eq_some_iff_getElem.mp h).1
      have hperm := ((swapRemove_perm a.records hi).map key).nodup_iff.mp a.nodup_keys
      rw [List.map_cons, List.nodup_cons] at hperm
      exact hperm.2⟩

theorem records_remove_of_getElem? (a : KeyedArena key) {i : ℕ} {r : ρ} (h : a.records[i]? = some r) :
    (a.remove (key r)).records = swapRemove a.records i := by
  obtain ⟨hi, rfl⟩ := List.getElem?_eq_some_iff.mp h
  unfold remove
  split
  case h_1 hnone =>
    have hall := List.findIdx?_eq_none_iff.mp hnone _ (List.getElem_mem hi)
    simp at hall
  case h_2 j hfound =>
    obtain ⟨hj, hkey, -⟩ := List.findIdx?_eq_some_iff_getElem.mp hfound
    have hj' : j < (a.records.map key).length := by rwa [List.length_map]
    have hi' : i < (a.records.map key).length := by rwa [List.length_map]
    have hsame : (a.records.map key)[j] = (a.records.map key)[i] := by simpa using hkey
    exact congrArg (swapRemove a.records) ((List.Nodup.getElem_inj_iff a.nodup_keys).mp hsame)

theorem records_remove_of_notMem (a : KeyedArena key) {k : κ} (h : k ∉ a.records.map key) :
    (a.remove k).records = a.records := by
  unfold remove
  split
  case h_1 => rfl
  case h_2 j hfound =>
    obtain ⟨hj, hkey, -⟩ := List.findIdx?_eq_some_iff_getElem.mp hfound
    exact (h (of_decide_eq_true hkey ▸ List.mem_map_of_mem (List.getElem_mem hj))).elim

theorem get?_eq_some_iff (a : KeyedArena key) (k : κ) (r : ρ) :
    a.get? k = some r ↔ r ∈ a.records ∧ key r = k := by
  constructor
  · intro h
    exact ⟨List.mem_of_find?_eq_some h, by simpa using List.find?_some h⟩
  · rintro ⟨hr, rfl⟩
    cases h : a.get? (key r) with
    | none =>
        have hnone := List.find?_eq_none.mp h r hr
        simp at hnone
    | some s =>
        have hs : key s = key r := by simpa using List.find?_some h
        rw [a.eq_of_mem_of_key (List.mem_of_find?_eq_some h) hr hs]

theorem get?_eq_none_iff (a : KeyedArena key) (k : κ) :
    a.get? k = none ↔ ∀ r ∈ a.records, key r ≠ k := by
  simp [get?, List.find?_eq_none]

theorem get?_eq_none_iff_notMem (a : KeyedArena key) (k : κ) :
    a.get? k = none ↔ k ∉ a.records.map key := by
  simp [get?_eq_none_iff]

theorem mem_insert (a : KeyedArena key) (r s : ρ) :
    s ∈ (a.insert r).records ↔ s = r ∨ (s ∈ a.records ∧ key s ≠ key r) :=
  mem_upsert_iff key r a.nodup_keys s

@[simp] theorem insert_insert_self (a : KeyedArena key) (r : ρ) : (a.insert r).insert r = a.insert r := by
  unfold insert
  congr 1
  exact upsert_upsert_self key r a.records

theorem get?_insert_self (a : KeyedArena key) (r : ρ) : (a.insert r).get? (key r) = some r :=
  (get?_eq_some_iff ..).mpr ⟨mem_upsert_self key r a.records, rfl⟩

theorem get?_insert_of_ne (a : KeyedArena key) (r : ρ) {k : κ} (h : k ≠ key r) :
    (a.insert r).get? k = a.get? k := by
  apply Option.ext
  intro s
  rw [get?_eq_some_iff, get?_eq_some_iff, mem_insert]
  constructor
  · rintro ⟨rfl | ⟨hs, _⟩, hk⟩
    · exact (h hk.symm).elim
    · exact ⟨hs, hk⟩
  · rintro ⟨hs, hk⟩
    exact ⟨Or.inr ⟨hs, fun heq ↦ h (hk ▸ heq)⟩, hk⟩

theorem mem_remove (a : KeyedArena key) (k : κ) (s : ρ) :
    s ∈ (a.remove k).records ↔ s ∈ a.records ∧ key s ≠ k := by
  unfold remove
  split
  · rename_i h
    have hall := List.findIdx?_eq_none_iff.mp h
    constructor
    · exact fun hs ↦ ⟨hs, by simpa using hall s hs⟩
    · exact fun hs ↦ hs.1
  · rename_i i h
    obtain ⟨hi, hkey, _⟩ := List.findIdx?_eq_some_iff_getElem.mp h
    have hkey' : key a.records[i] = k := by simpa using hkey
    have hperm := swapRemove_perm a.records hi
    have hnodup := (hperm.map key).nodup_iff.mp a.nodup_keys
    rw [List.map_cons, List.nodup_cons] at hnodup
    change s ∈ swapRemove a.records i ↔ _
    rw [hperm.mem_iff, List.mem_cons]
    constructor
    · intro hs
      exact ⟨Or.inr hs, fun heq ↦
        hnodup.1 (by rw [hkey', ← heq]; exact List.mem_map_of_mem hs)⟩
    · rintro ⟨rfl | hs, hne⟩
      · exact (hne hkey').elim
      · exact hs

theorem get?_remove_self (a : KeyedArena key) (k : κ) : (a.remove k).get? k = none := by
  rw [get?_eq_none_iff]
  intro r hr
  exact ((mem_remove a k r).mp hr).2

theorem get?_remove_of_ne (a : KeyedArena key) {k l : κ} (h : l ≠ k) :
    (a.remove k).get? l = a.get? l := by
  apply Option.ext
  intro s
  rw [get?_eq_some_iff, get?_eq_some_iff, mem_remove]
  constructor
  · rintro ⟨⟨hs, _⟩, hl⟩
    exact ⟨hs, hl⟩
  · rintro ⟨hs, rfl⟩
    exact ⟨⟨hs, h⟩, rfl⟩

/-! ## Collecting records -/

/-- Insertion puts the record in place of the one with its key. -/
theorem insert_perm (a : KeyedArena key) (r : ρ) :
    (a.insert r).records.Perm (r :: (a.remove (key r)).records) := by
  have hnot : r ∉ (a.remove (key r)).records := fun hmem ↦ ((mem_remove a (key r) r).mp hmem).2 rfl
  have hnodup : (r :: (a.remove (key r)).records).Nodup :=
    List.nodup_cons.mpr ⟨hnot, List.Nodup.of_map _ (a.remove (key r)).nodup_keys⟩
  apply (List.perm_ext_iff_of_nodup (List.Nodup.of_map _ (a.insert r).nodup_keys) hnodup).mpr
  intro s
  rw [mem_insert, List.mem_cons, mem_remove]

/-- Removal takes out exactly the record with the key. -/
theorem remove_perm (a : KeyedArena key) {k : κ} {r : ρ} (h : a.get? k = some r) :
    a.records.Perm (r :: (a.remove k).records) := by
  obtain ⟨hr, hkey⟩ := (get?_eq_some_iff a k r).mp h
  have hnot : r ∉ (a.remove k).records := fun hmem ↦ ((mem_remove a k r).mp hmem).2 hkey
  have hnodup : (r :: (a.remove k).records).Nodup :=
    List.nodup_cons.mpr ⟨hnot, List.Nodup.of_map _ (a.remove k).nodup_keys⟩
  apply (List.perm_ext_iff_of_nodup (List.Nodup.of_map _ a.nodup_keys) hnodup).mpr
  intro s
  rw [List.mem_cons, mem_remove]
  constructor
  · intro hs
    by_cases hk : key s = k
    · exact Or.inl (a.eq_of_mem_of_key hs hr (hk.trans hkey.symm))
    · exact Or.inr ⟨hs, hk⟩
  · rintro (rfl | ⟨hs, -⟩)
    · exact hr
    · exact hs

theorem remove_of_get?_eq_none (a : KeyedArena key) {k : κ} (h : a.get? k = none) :
    (a.remove k).records.Perm a.records := by
  apply (List.perm_ext_iff_of_nodup (List.Nodup.of_map _ (a.remove k).nodup_keys)
    (List.Nodup.of_map _ a.nodup_keys)).mpr
  intro s
  rw [mem_remove]
  exact and_iff_left_of_imp fun hs ↦ (get?_eq_none_iff a k).mp h s hs

theorem foldl_insert_records (l : List ρ) (a : KeyedArena key)
    (h : ((a.records ++ l).map key).Nodup) :
    (l.foldl insert a).records = a.records ++ l := by
  induction l generalizing a with
  | nil => simp
  | cons r rest ih =>
      have hfresh : key r ∉ a.records.map key := by
        rw [List.map_append, List.map_cons, List.nodup_append] at h
        exact fun hmem ↦ h.2.2 (key r) hmem (key r) List.mem_cons_self rfl
      have hrecords : (a.insert r).records = a.records ++ [r] := upsert_of_notMem key r hfresh
      rw [List.foldl_cons, ih (a.insert r), hrecords, List.append_assoc, List.singleton_append]
      rwa [hrecords, List.append_assoc, List.singleton_append]

/-- Records with different keys are collected as they come. -/
theorem ofList_records {l : List ρ} (h : (l.map key).Nodup) :
    (ofList l : KeyedArena key).records = l := by
  simpa [ofList] using foldl_insert_records l (empty : KeyedArena key) (by simpa using h)

theorem same_ofList {a : KeyedArena key} {l : List ρ} (h : l.Perm a.records) :
    (ofList l).Same a := by
  have hnodup : (l.map key).Nodup := (h.map key).nodup_iff.mpr a.nodup_keys
  rw [Same, ofList_records hnodup]
  exact h

theorem get?_foldl_insert_of_notMem (l : List ρ) (a : KeyedArena key) {k : κ}
    (h : ∀ r ∈ l, key r ≠ k) : (l.foldl insert a).get? k = a.get? k := by
  induction l generalizing a with
  | nil => rfl
  | cons r rest ih =>
      rw [List.foldl_cons, ih _ fun s hs ↦ h s (List.mem_cons_of_mem r hs)]
      exact get?_insert_of_ne a r (Ne.symm (h r List.mem_cons_self))

theorem mem_of_mem_foldl_insert (l : List ρ) (a : KeyedArena key) {r : ρ}
    (h : r ∈ (l.foldl insert a).records) : r ∈ a.records ∨ r ∈ l := by
  induction l generalizing a with
  | nil => exact Or.inl h
  | cons s rest ih =>
      rcases ih _ h with hr | hr
      · rcases (mem_insert a s r).mp hr with rfl | ⟨hr, _⟩
        · exact Or.inr List.mem_cons_self
        · exact Or.inl hr
      · exact Or.inr (List.mem_cons_of_mem s hr)

theorem mem_of_mem_ofList {l : List ρ} {r : ρ}
    (h : r ∈ (ofList l : KeyedArena key).records) : r ∈ l := by
  simpa using mem_of_mem_foldl_insert l empty h

theorem get?_ofList_of_mem {l : List ρ} (h : (l.map key).Nodup) {r : ρ} (hr : r ∈ l) :
    (ofList l : KeyedArena key).get? (key r) = some r :=
  (get?_eq_some_iff ..).mpr ⟨by rwa [ofList_records h], rfl⟩

theorem get?_ofList_eq_some_iff {l : List ρ} (h : (l.map key).Nodup) (k : κ) (r : ρ) :
    (ofList l : KeyedArena key).get? k = some r ↔ r ∈ l ∧ key r = k := by
  rw [get?_eq_some_iff, ofList_records h]

theorem mem_keys_foldl_insert (l : List ρ) (a : KeyedArena key) (k : κ) :
    k ∈ (l.foldl insert a).records.map key ↔ k ∈ a.records.map key ∨ k ∈ l.map key := by
  induction l generalizing a with
  | nil => simp
  | cons s rest ih =>
      rw [List.foldl_cons, ih, insert, mem_upsert_keys, List.map_cons, List.mem_cons]
      tauto

theorem mem_keys_ofList (l : List ρ) (k : κ) :
    k ∈ (ofList l : KeyedArena key).records.map key ↔ k ∈ l.map key := by
  simpa [ofList] using mem_keys_foldl_insert l (empty : KeyedArena key) k

theorem get?_ofList_eq_none_iff (l : List ρ) (k : κ) :
    (ofList l : KeyedArena key).get? k = none ↔ k ∉ l.map key := by
  rw [get?_eq_none_iff, ← mem_keys_ofList l k]
  simp

/-! ## Equality as maps -/

theorem same_iff_get? (a b : KeyedArena key) : Same a b ↔ ∀ k, a.get? k = b.get? k := by
  constructor
  · intro h k
    apply Option.ext
    intro r
    rw [get?_eq_some_iff, get?_eq_some_iff, h.mem_iff]
  · intro h
    apply (List.perm_ext_iff_of_nodup a.nodup_keys.of_map b.nodup_keys.of_map).mpr
    intro r
    have ha := a.get?_eq_some_iff (key r) r
    have hb := b.get?_eq_some_iff (key r) r
    rw [h] at ha
    simp only [and_true] at ha hb
    exact ha.symm.trans hb

theorem get?_foldl_insert_of_mem {l : List ρ} {k : κ} (h : k ∈ l.map key) (a b : KeyedArena key) :
    (l.foldl insert a).get? k = (l.foldl insert b).get? k := by
  induction l generalizing a b with
  | nil => cases h
  | cons r rest ih =>
      by_cases hrest : k ∈ rest.map key
      · exact ih hrest _ _
      · have hk : k = key r := by
          rcases List.mem_cons.mp h with hk | hk
          · exact hk
          · exact (hrest hk).elim
        have hfresh : ∀ s ∈ rest, key s ≠ k := fun s hs heq ↦
          hrest (heq ▸ List.mem_map_of_mem hs)
        subst hk
        rw [List.foldl_cons, List.foldl_cons, get?_foldl_insert_of_notMem _ _ hfresh,
          get?_foldl_insert_of_notMem _ _ hfresh, get?_insert_self, get?_insert_self]

/-- Inserting into an arena forgets what it held exactly when all its keys are
inserted again. -/
theorem same_foldl_insert_iff (l : List ρ) (a : KeyedArena key) :
    Same (l.foldl insert a) (l.foldl insert empty) ↔ ∀ r ∈ a.records, key r ∈ l.map key := by
  constructor
  · intro hsame r hr
    have hkeys := (hsame.map key).mem_iff (a := key r)
    rw [mem_keys_foldl_insert, mem_keys_foldl_insert] at hkeys
    rcases hkeys.mp (Or.inl (List.mem_map_of_mem hr)) with hnone | hmem
    · cases hnone
    · exact hmem
  · intro hcovered
    rw [same_iff_get?]
    intro k
    by_cases hk : k ∈ l.map key
    · exact get?_foldl_insert_of_mem hk a empty
    · have hfresh : ∀ r ∈ l, key r ≠ k := fun r hr heq ↦ hk (heq ▸ List.mem_map_of_mem hr)
      have ha : a.get? k = none := by
        rw [get?_eq_none_iff]
        exact fun r hr heq ↦ hk (heq ▸ hcovered r hr)
      rw [get?_foldl_insert_of_notMem l a hfresh, get?_foldl_insert_of_notMem l empty hfresh, ha]
      rfl

/-- Collecting a list on top of another forgets the other list exactly when
all its keys are collected again. -/
theorem same_foldl_ofList_iff (key : ρ → κ) (l m : List ρ) :
    Same (m.foldl insert (ofList l : KeyedArena key)) (ofList m) ↔ ∀ r ∈ l, key r ∈ m.map key := by
  have hkeys : (∀ r ∈ (ofList l : KeyedArena key).records, key r ∈ m.map key) ↔
      ∀ r ∈ l, key r ∈ m.map key := by
    constructor
    · intro h r hr
      have hr' := (mem_keys_ofList l (key r)).mpr (List.mem_map_of_mem hr)
      obtain ⟨s, hs, heq⟩ := List.mem_map.mp hr'
      exact heq ▸ h s hs
    · exact fun h r hr ↦ h r (mem_of_mem_ofList hr)
  exact (same_foldl_insert_iff m (ofList l)).trans hkeys

end KeyedArena
