import WinBlaze.Lib.KeyedArena

/-!
# Maps from ids to values

A map is an arena of pairs under their first component.
-/

abbrev IdMap (κ β : Type*) [DecidableEq κ] := KeyedArena (Prod.fst : κ × β → κ)

namespace IdMap

variable {κ β : Type*} [DecidableEq κ]

def find? (m : IdMap κ β) (k : κ) : Option β := (m.get? k).map Prod.snd

def set (m : IdMap κ β) (k : κ) (b : β) : IdMap κ β := m.insert (k, b)

/-- Collect pairs; a later pair replaces an earlier one with its id. -/
def ofPairs (l : List (κ × β)) : IdMap κ β := KeyedArena.ofList l

def erase (m : IdMap κ β) (k : κ) : IdMap κ β := m.remove k

@[simp] theorem find?_empty (k : κ) : find? (KeyedArena.empty : IdMap κ β) k = none := rfl

@[simp] theorem find?_set_self (m : IdMap κ β) (k : κ) (b : β) : (m.set k b).find? k = some b := by
  have h := KeyedArena.get?_insert_self m (k, b)
  rw [find?, set, h, Option.map_some]

theorem find?_set_of_ne (m : IdMap κ β) {k l : κ} (b : β) (h : l ≠ k) :
    (m.set k b).find? l = m.find? l := by
  rw [find?, set, KeyedArena.get?_insert_of_ne m (k, b) h, find?]

theorem find?_set (m : IdMap κ β) (k l : κ) (b : β) :
    (m.set k b).find? l = if l = k then some b else m.find? l := by
  by_cases h : l = k
  · rw [if_pos h, h, find?_set_self]
  · rw [if_neg h, find?_set_of_ne m b h]

@[simp] theorem find?_erase_self (m : IdMap κ β) (k : κ) : (m.erase k).find? k = none := by
  rw [find?, erase, KeyedArena.get?_remove_self, Option.map_none]

theorem find?_erase_of_ne (m : IdMap κ β) {k l : κ} (h : l ≠ k) :
    (m.erase k).find? l = m.find? l := by
  rw [find?, erase, KeyedArena.get?_remove_of_ne m h, find?]

theorem find?_eq_some_iff (m : IdMap κ β) (k : κ) (b : β) :
    m.find? k = some b ↔ (k, b) ∈ m.records := by
  rw [find?, Option.map_eq_some_iff]
  constructor
  · rintro ⟨⟨l, c⟩, hget, rfl⟩
    obtain ⟨hmem, rfl⟩ := (KeyedArena.get?_eq_some_iff m k (l, c)).mp hget
    exact hmem
  · intro hmem
    exact ⟨(k, b), (KeyedArena.get?_eq_some_iff m k (k, b)).mpr ⟨hmem, rfl⟩, rfl⟩

theorem find?_ofPairs_eq_none_iff (l : List (κ × β)) (k : κ) :
    (ofPairs l).find? k = none ↔ k ∉ l.map Prod.fst := by
  rw [find?, Option.map_eq_none_iff, ofPairs, KeyedArena.get?_ofList_eq_none_iff]

theorem mem_of_find?_ofPairs {l : List (κ × β)} {k : κ} {b : β}
    (h : (ofPairs l).find? k = some b) : (k, b) ∈ l :=
  KeyedArena.mem_of_mem_ofList ((find?_eq_some_iff _ k b).mp h)

theorem find?_ofPairs_iff {l : List (κ × β)} (h : (l.map Prod.fst).Nodup) (k : κ) (b : β) :
    (ofPairs l).find? k = some b ↔ (k, b) ∈ l := by
  rw [find?_eq_some_iff, ofPairs, KeyedArena.ofList_records h]

/-- Each key has what its element gives. -/
theorem find?_ofPairs_filterMap {α : Type*} {l : List α} {key : α → κ} (h : (l.map key).Nodup)
    (f : α → Option β) {a : α} (ha : a ∈ l) :
    (ofPairs (l.filterMap fun a ↦ (f a).map (key a, ·))).find? (key a) = f a := by
  have hkeys : ((l.filterMap fun a ↦ (f a).map (key a, ·)).map Prod.fst).Nodup := by
    rw [List.Nodup, List.pairwise_map, List.pairwise_filterMap]
    refine (List.pairwise_map.mp h).imp fun {first second} hne pair hpair other hother hsame ↦ hne ?_
    obtain ⟨_, -, rfl⟩ := Option.map_eq_some_iff.mp hpair
    obtain ⟨_, -, rfl⟩ := Option.map_eq_some_iff.mp hother
    exact hsame
  refine Option.ext fun b ↦ ?_
  rw [find?_ofPairs_iff hkeys, List.mem_filterMap]
  constructor
  · rintro ⟨other, hother, hpair⟩
    obtain ⟨value, hvalue, hsame⟩ := Option.map_eq_some_iff.mp hpair
    obtain ⟨hkey, rfl⟩ := Prod.mk.inj hsame
    exact List.inj_on_of_nodup_map h hother ha hkey ▸ hvalue
  · exact fun hb ↦ ⟨a, ha, by rw [hb, Option.map_some]⟩

/-! ## Buckets -/

/-- All elements of all buckets. -/
def elements (m : IdMap κ (List β)) : List β := m.records.flatMap Prod.snd

/-- The bucket of an id, empty when there is none. -/
def bucket (m : IdMap κ (List β)) (k : κ) : List β := (m.find? k).getD []

/-- Add an element at the end of a bucket. -/
def push (m : IdMap κ (List β)) (k : κ) (b : β) : IdMap κ (List β) := m.set k (m.bucket k ++ [b])

theorem mem_elements_iff (m : IdMap κ (List β)) (b : β) :
    b ∈ m.elements ↔ ∃ k l, m.find? k = some l ∧ b ∈ l := by
  simp only [elements, List.mem_flatMap, Prod.exists, find?_eq_some_iff]

theorem elements_perm_erase (m : IdMap κ (List β)) (k : κ) :
    m.elements.Perm (m.bucket k ++ (m.erase k).elements) := by
  cases hget : m.get? k with
  | none =>
      have hfind : m.find? k = none := by rw [find?, hget, Option.map_none]
      rw [bucket, hfind, Option.getD_none, List.nil_append]
      exact (KeyedArena.remove_of_get?_eq_none m hget).symm.flatMap_right _
  | some pair =>
      have hfind : m.find? k = some pair.2 := by rw [find?, hget, Option.map_some]
      rw [bucket, hfind, Option.getD_some]
      exact (KeyedArena.remove_perm m hget).flatMap_right _

theorem elements_push_perm (m : IdMap κ (List β)) (k : κ) (b : β) :
    (m.push k b).elements.Perm (b :: m.elements) := by
  have hset : (m.push k b).elements.Perm (m.bucket k ++ [b] ++ (m.erase k).elements) :=
    (KeyedArena.insert_perm m (k, m.bucket k ++ [b])).flatMap_right Prod.snd
  have hmove : (m.bucket k ++ [b] ++ (m.erase k).elements).Perm
      (b :: (m.bucket k ++ (m.erase k).elements)) := by
    rw [List.append_assoc, List.singleton_append]
    exact List.perm_middle
  exact hset.trans (hmove.trans ((elements_perm_erase m k).symm.cons b))

theorem find?_push (m : IdMap κ (List β)) (k l : κ) (b : β) :
    (m.push k b).find? l = if l = k then some (m.bucket k ++ [b]) else m.find? l := by
  rw [push, find?_set]

theorem mem_bucket_push (m : IdMap κ (List β)) (k l : κ) (a b : β) :
    a ∈ (m.push k b).bucket l ↔ a ∈ m.bucket l ∨ l = k ∧ a = b := by
  simp only [bucket, find?_push]
  by_cases h : l = k
  · simp [h]
  · simp [h]

theorem length_erase_le (m : IdMap κ β) (k : κ) :
    (m.erase k).records.length ≤ m.records.length := by
  cases hget : m.get? k with
  | none => exact (KeyedArena.remove_of_get?_eq_none m hget).length_eq.le
  | some pair =>
      have hlength := (KeyedArena.remove_perm m hget).length_eq
      rw [List.length_cons] at hlength
      exact (Nat.lt_of_lt_of_eq (Nat.lt_succ_self _) hlength.symm).le

theorem length_erase_lt (m : IdMap κ β) {k : κ} {b : β} (h : m.find? k = some b) :
    (m.erase k).records.length < m.records.length := by
  obtain ⟨pair, hget, -⟩ := Option.map_eq_some_iff.mp h
  have hlength := (KeyedArena.remove_perm m hget).length_eq
  rw [List.length_cons] at hlength
  exact Nat.lt_of_lt_of_eq (Nat.lt_succ_self _) hlength.symm

end IdMap
