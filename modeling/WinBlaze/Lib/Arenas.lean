import Mathlib.Data.List.MinMax

/-!
# Vectors and the room they have

A vector with its capacity, and a pool that keeps the storage of vectors for
others. A pool of empty vectors stays one as long as only empty vectors are
given back.
-/

/-- A vector with the room it has. -/
structure Arena (α : Type*) where
  items : List α
  capacity : ℕ
  fits : items.length ≤ capacity

/-- The room that an allocation gives, at least as much as it is asked for. -/
structure Allocator where
  room : ℕ → ℕ
  le_room : ∀ n, n ≤ room n

/-- Exactly as much room as it is asked for. -/
def Allocator.exact : Allocator := ⟨id, Nat.le_refl⟩

namespace Arena

variable {α : Type*}

/-- A vector that has allocated nothing. -/
def empty : Arena α := ⟨[], 0, Nat.le_refl 0⟩

/-- Make room for some more items. -/
def reserveExact (allocator : Allocator) (arena : Arena α) (additional : ℕ) : Arena α :=
  if arena.items.length + additional ≤ arena.capacity then arena
  else
    { arena with
      capacity := allocator.room (arena.items.length + additional)
      fits := (Nat.le_add_right _ _).trans (allocator.le_room _) }

def push (allocator : Allocator) (arena : Arena α) (item : α) : Arena α :=
  if h : arena.items.length < arena.capacity then
    { items := arena.items ++ [item]
      capacity := arena.capacity
      fits := List.length_append.trans_le h }
  else
    { items := arena.items ++ [item]
      capacity := allocator.room (arena.items.length + 1)
      fits := List.length_append.trans_le (allocator.le_room _) }

/-- The items after the first. -/
def tail (arena : Arena α) : Arena α :=
  { arena with
    items := arena.items.tail
    fits := List.length_tail.trans_le ((Nat.sub_le _ _).trans arena.fits) }

@[simp] theorem items_empty : (empty : Arena α).items = [] := rfl

@[simp] theorem items_tail (arena : Arena α) : arena.tail.items = arena.items.tail := rfl

@[simp] theorem items_reserveExact (allocator : Allocator) (arena : Arena α) (additional : ℕ) :
    (arena.reserveExact allocator additional).items = arena.items := by
  unfold reserveExact
  split <;> rfl

@[simp] theorem items_push (allocator : Allocator) (arena : Arena α) (item : α) :
    (arena.push allocator item).items = arena.items ++ [item] := by
  unfold push
  split <;> rfl

/-- A vector without room has no items. -/
theorem items_eq_nil {arena : Arena α} (h : arena.capacity = 0) : arena.items = [] :=
  List.length_eq_zero_iff.mp (Nat.le_zero.mp (h ▸ arena.fits))

/-! ## Pools -/

/-- Remove the item at a place, and put the last one there. -/
def swapRemove (items : List α) (i : ℕ) : List α :=
  match items.getLast? with
  | some last => (items.set i last).dropLast
  | none => []

theorem mem_of_mem_swapRemove {items : List α} {i : ℕ} {item : α}
    (h : item ∈ swapRemove items i) : item ∈ items := by
  unfold swapRemove at h
  cases hlast : items.getLast? with
  | none =>
      rw [hlast] at h
      cases h
  | some last =>
      rw [hlast] at h
      rcases List.mem_or_eq_of_mem_set (List.dropLast_subset _ h) with hold | rfl
      · exact hold
      · exact List.mem_of_getLast? hlast

/-- The first vector of a pool with enough room, and the pool without it. -/
def take (pool : List (Arena α)) (minimum : ℕ) : Arena α × List (Arena α) :=
  match pool.findIdx? (fun arena ↦ minimum ≤ arena.capacity) with
  | some i => (pool.getD i empty, swapRemove pool i)
  | none => (empty, pool)

/-- Keep a vector in a pool of at most `limit`. It takes the place of the first
of the smallest when that has less room. -/
def recycle (limit maxCapacity : ℕ) (pool : List (Arena α)) (arena : Arena α) : List (Arena α) :=
  if arena.capacity = 0 || maxCapacity < arena.capacity then pool
  else if pool.length < limit then pool ++ [arena]
  else
    match pool.zipIdx.argmin (fun entry ↦ entry.1.capacity) with
    | some smallest =>
        if smallest.1.capacity < arena.capacity then pool.set smallest.2 arena else pool
    | none => pool

/-- Only storage is kept. -/
def AllEmpty (pool : List (Arena α)) : Prop := ∀ arena ∈ pool, arena.items = []

variable {pool : List (Arena α)}

theorem AllEmpty.items_take (h : AllEmpty pool) (minimum : ℕ) :
    (take pool minimum).1.items = [] := by
  unfold take
  split
  case h_1 i hi =>
    rw [List.getD_eq_getElem?_getD]
    cases hget : pool[i]? with
    | none => rfl
    | some arena => exact h arena (List.mem_of_getElem? hget)
  case h_2 => rfl

theorem AllEmpty.take (h : AllEmpty pool) (minimum : ℕ) : AllEmpty (take pool minimum).2 := by
  unfold Arena.take
  split
  case h_1 => exact fun arena harena ↦ h arena (mem_of_mem_swapRemove harena)
  case h_2 => exact h

theorem AllEmpty.recycle (h : AllEmpty pool) {arena : Arena α} (harena : arena.items = [])
    (limit maxCapacity : ℕ) : AllEmpty (recycle limit maxCapacity pool arena) := by
  intro other hother
  unfold Arena.recycle at hother
  split at hother
  case isTrue => exact h other hother
  case isFalse =>
    split at hother
    case isTrue =>
      rcases List.mem_append.mp hother with hold | hnew
      · exact h other hold
      · exact List.mem_singleton.mp hnew ▸ harena
    case isFalse =>
      split at hother
      case h_2 => exact h other hother
      case h_1 =>
        split at hother
        case isFalse => exact h other hother
        case isTrue =>
          rcases List.mem_or_eq_of_mem_set hother with hold | rfl
          · exact h other hold
          · exact harena

end Arena
