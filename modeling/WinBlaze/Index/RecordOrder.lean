import Mathlib.Data.List.Perm.Basic
import WinBlaze.Lib.Placement
import WinBlaze.Lib.KeyOrder

/-!
# Sorting records in place

Records of consecutive ids are swapped to the places their ids give. Other records
are swapped along a sorted list of their ids and positions.
-/

namespace WinBlaze

namespace RecordOrder

variable {α β : Type}

/-- What is left open by `sort_unstable_by_key` is the order of equal keys. -/
structure KeySort where
  sort : List (UInt64 × UInt32) → List (UInt64 × UInt32)
  perm : ∀ keyed, (sort keyed).Perm keyed
  sorted : ∀ keyed, (sort keyed).Pairwise fun a b ↦ a.1 ≤ b.1

/-! ## The loops -/

def swap (records : Array β) (i j : ℕ) : Option (Array β) :=
  if h : i < records.size ∧ j < records.size then some (records.swap i j h.1 h.2) else none

/-- The inner loop at one position, and whether no duplicate is found. -/
def settle (key : α → UInt64) (minimum : UInt64) (position : ℕ) :
    ℕ → Array α → Option (Array α × Bool)
  | 0, _ => none
  | fuel + 1, records => do
      let id := key (← records[position]?)
      let destination := (id - minimum).toNat
      if destination = position then some (records, true)
      else if key (← records[destination]?) = id then some (records, false)
      else settle key minimum position fuel (← swap records position destination)

def settleEach (key : α → UInt64) (minimum : UInt64) (fuel : ℕ) :
    List ℕ → Array α → Option (Array α × Bool)
  | [], records => some (records, true)
  | position :: rest, records => do
      let (records, unique) ← settle key minimum position fuel records
      if unique then settleEach key minimum fuel rest records else some (records, false)

/-- Every original position gets its sorted position. -/
def invert : List ℕ → Array (UInt64 × UInt32) → Option (Array (UInt64 × UInt32))
  | [], keyed => some keyed
  | destination :: rest, keyed => do
      let original := (← keyed[destination]?).2.toNat
      let (_, index) ← keyed[original]?
      invert rest (keyed.setIfInBounds original (.ofNat destination, index))

def follow (position : ℕ) :
    ℕ → Array α → Array (UInt64 × UInt32) → Option (Array α × Array (UInt64 × UInt32))
  | 0, _, _ => none
  | fuel + 1, records, keyed => do
      let destination := (← keyed[position]?).1.toNat
      if destination = position then some (records, keyed)
      else follow position fuel (← swap records position destination) (← swap keyed position destination)

def followEach (fuel : ℕ) : List ℕ → Array α → Array (UInt64 × UInt32) → Option (Array α)
  | [], records, _ => some records
  | position :: rest, records, keyed => do
      let (records, keyed) ← follow position fuel records keyed
      followEach fuel rest records keyed

/-! ## The function -/

def idRange (key : α → UInt64) (records : Array α) : UInt64 × UInt64 :=
  records.foldl (fun range record ↦ (min range.1 (key record), max range.2 (key record)))
    (.ofNat (2 ^ 64 - 1), 0)

/-- The number of ids in a range. -/
def rangeLength (minimum maximum : UInt64) : Option ℕ :=
  if minimum ≤ maximum ∧ maximum.toNat - minimum.toNat + 1 < 2 ^ 64 then
    some (maximum.toNat - minimum.toNat + 1)
  else none

def sortKeyed (sort : KeySort) (key : α → UInt64) (records : Array α) (fuel : ℕ) : Option (Array α) := do
  let keyed := (sort.sort (records.toList.zipIdx.map fun (record, index) ↦
    (key record, .ofNat index))).toArray
  let keyed ← invert (List.range keyed.size) keyed
  followEach fuel (List.range keyed.size) records keyed

/-- Every `while` and `loop` is given this many passes. -/
def sortRecordsById (sort : KeySort) (key : α → UInt64) (records : Array α) (fuel : ℕ) :
    Option (Array α) :=
  if records.toList.IsChain (fun a b ↦ key a ≤ key b) then some records
  else do
    let (minimum, maximum) := idRange key records
    if rangeLength minimum maximum = some records.size then
      let (records, unique) ← settleEach key minimum fuel (List.range records.size) records
      if unique then some records else sortKeyed sort key records fuel
    else sortKeyed sort key records fuel

open Placement

theorem swap_eq {xs : Array β} {i j : ℕ} {a b : β} (hi : xs[i]? = some a) (hj : xs[j]? = some b) :
    swap xs i j = some (xs.swap i j (lt_size hi) (lt_size hj)) := dif_pos ⟨lt_size hi, lt_size hj⟩

/-! ## Consecutive ids -/

section Dense

variable {key : α → UInt64} {minimum : UInt64} {records : Array α} {fuel : ℕ}

/-- The place that the id gives a record. -/
def idPlace (key : α → UInt64) (minimum : UInt64) (record : α) : ℕ := (key record - minimum).toNat

/-- Each swap settles a record, until the position has its own or a duplicate is found. -/
theorem settle_spec {position : ℕ} (hposition : position < records.size)
    (hrange : ∀ record ∈ records, idPlace key minimum record < records.size)
    (hfuel : unsettled (idPlace key minimum) records < fuel) :
    ∃ result unique, settle key minimum position fuel records = some (result, unique) ∧
      result.Perm records ∧
      (∀ k, Settled (idPlace key minimum) records k → Settled (idPlace key minimum) result k) ∧
      (unique = true → Settled (idPlace key minimum) result position) := by
  induction fuel generalizing records with
  | zero => exact absurd hfuel (Nat.not_lt_zero _)
  | succ fuel ih =>
      obtain ⟨record, hrecord⟩ : ∃ record, records[position]? = some record :=
        ⟨_, Array.getElem?_eq_getElem hposition⟩
      obtain ⟨other, hother⟩ : ∃ other, records[idPlace key minimum record]? = some other :=
        ⟨_, Array.getElem?_eq_getElem (hrange record (Array.mem_of_getElem? hrecord))⟩
      by_cases hplaced : idPlace key minimum record = position
      · refine ⟨records, true, ?_, .refl _, fun _ h ↦ h, fun _ ↦ (settled_iff hrecord).mpr hplaced⟩
        simp [settle, hrecord, ← idPlace.eq_1, hplaced]
      by_cases hduplicate : key other = key record
      · refine ⟨records, false, ?_, .refl _, fun _ h ↦ h, fun h ↦ by cases h⟩
        simp [settle, hrecord, ← idPlace.eq_1, hplaced, hother, hduplicate]
      have hfree : idPlace key minimum other ≠ idPlace key minimum record := by
        intro hsame
        exact hduplicate ((UInt64.sub_left_inj minimum).mp (UInt64.toNat_inj.mp hsame))
      have hperm := Array.swap_perm (lt_size hrecord) (lt_size hother)
      have hrest := unsettled_swap_lt hrecord hother rfl (Ne.symm hplaced) hfree
      obtain ⟨result, unique, hresult, hpermutes, hkeeps, hunique⟩ :=
        @ih (records.swap _ _ (lt_size hrecord) (lt_size hother)) (by rwa [Array.size_swap]) 
          (fun r hr ↦ by simpa using hrange r (hperm.mem_iff.mp hr)) (by omega)
      refine ⟨result, unique, ?_, hpermutes.trans hperm, fun k hk ↦ hkeeps k ?_, hunique⟩
      · simp only [settle, hrecord, Option.bind_eq_bind, Option.bind_some, ← idPlace.eq_1, hplaced,
          hother, hduplicate, if_false, swap_eq hrecord hother]
        exact hresult
      · exact settled_swap_of_settled hrecord hother rfl (Ne.symm hplaced) hfree hk

theorem settleEach_spec {positions : List ℕ} (hpositions : ∀ i ∈ positions, i < records.size)
    (hrange : ∀ record ∈ records, idPlace key minimum record < records.size)
    (hfuel : records.size < fuel) :
    ∃ result unique, settleEach key minimum fuel positions records = some (result, unique) ∧
      result.Perm records ∧
      (∀ k, Settled (idPlace key minimum) records k → Settled (idPlace key minimum) result k) ∧
      (unique = true → ∀ i ∈ positions, Settled (idPlace key minimum) result i) := by
  induction positions generalizing records with
  | nil => exact ⟨records, true, rfl, .refl _, fun _ h ↦ h, fun _ i hi ↦ by cases hi⟩
  | cons position positions ih =>
      rw [List.forall_mem_cons] at hpositions
      obtain ⟨next, unique, hnext, hperm, hkeeps, hunique⟩ := settle_spec hpositions.1 hrange
        ((unsettled_le _ records).trans_lt hfuel)
      cases unique with
      | false =>
          refine ⟨next, false, ?_, hperm, hkeeps, fun h ↦ by cases h⟩
          simp [settleEach, hnext]
      | true =>
          have hsize := hperm.size_eq
          obtain ⟨result, unique, hresult, hpermutes, hkeepsAll, hall⟩ := @ih next
            (fun i hi ↦ hsize ▸ hpositions.2 i hi)
            (fun record hrecord ↦ hsize ▸ hrange record (hperm.mem_iff.mp hrecord)) (hsize ▸ hfuel)
          refine ⟨result, unique, ?_, hpermutes.trans hperm, fun k hk ↦ hkeepsAll k (hkeeps k hk), ?_⟩
          · simpa [settleEach, hnext] using hresult
          · exact fun h ↦ List.forall_mem_cons.mpr ⟨hkeepsAll position (hunique rfl), hall h⟩

/-- Consecutive ids in their places are in order. -/
theorem sorted_of_settled (hlow : ∀ record ∈ records, minimum ≤ key record)
    (hsettled : ∀ i < records.size, Settled (idPlace key minimum) records i) :
    records.toList.Pairwise fun a b ↦ key a ≤ key b := by
  refine List.pairwise_iff_getElem.mpr fun i j hi hj hlt ↦ ?_
  have hid : ∀ k, ∀ hk : k < records.toList.length,
      (key records.toList[k]).toNat = minimum.toNat + k := by
    intro k hk
    have hget : records[k]? = some records.toList[k] := by simp
    have hplace := (settled_iff hget).mp (hsettled k hk)
    have hle := hlow records.toList[k] (Array.mem_of_getElem? hget)
    rw [idPlace, UInt64.toNat_sub_of_le _ _ hle] at hplace
    have hnat := UInt64.le_iff_toNat_le.mp hle
    omega
  rw [UInt64.le_iff_toNat_le, hid i hi, hid j hj]
  omega

theorem min_max_bounds (a b : UInt64) : (min a b ≤ a ∧ min a b ≤ b) ∧ a ≤ max a b ∧ b ≤ max a b := by
  change ((if a ≤ b then a else b) ≤ a ∧ (if a ≤ b then a else b) ≤ b) ∧
    a ≤ (if a ≤ b then b else a) ∧ b ≤ if a ≤ b then b else a
  simp only [UInt64.le_iff_toNat_le]
  split_ifs <;> omega

theorem foldl_range_spec (key : α → UInt64) (records : List α) (range : UInt64 × UInt64) :
    let last := records.foldl (fun range record ↦ (min range.1 (key record), max range.2 (key record))) range
    (last.1 ≤ range.1 ∧ range.2 ≤ last.2) ∧ ∀ record ∈ records, last.1 ≤ key record ∧ key record ≤ last.2 := by
  induction records generalizing range with
  | nil => exact ⟨⟨UInt64.le_refl _, UInt64.le_refl _⟩, fun _ h ↦ by cases h⟩
  | cons record records ih =>
      obtain ⟨⟨hlow, hhigh⟩, hrest⟩ := ih (min range.1 (key record), max range.2 (key record))
      have hmin := (min_max_bounds range.1 (key record)).1
      have hmax := (min_max_bounds range.2 (key record)).2
      refine ⟨⟨UInt64.le_trans hlow hmin.1, UInt64.le_trans hmax.1 hhigh⟩,
        List.forall_mem_cons.mpr ⟨⟨?_, ?_⟩, hrest⟩⟩
      · exact UInt64.le_trans hlow hmin.2
      · exact UInt64.le_trans hmax.2 hhigh

theorem idRange_spec (key : α → UInt64) (records : Array α) : ∀ record ∈ records,
    (idRange key records).1 ≤ key record ∧ key record ≤ (idRange key records).2 := by
  intro record hrecord
  rw [idRange, ← Array.foldl_toList]
  exact (foldl_range_spec key records.toList _).2 record (Array.mem_toList_iff.mpr hrecord)

theorem idPlace_lt (hlength : rangeLength (idRange key records).1 (idRange key records).2 = some records.size) :
    ∀ record ∈ records, idPlace key (idRange key records).1 record < records.size := by
  intro record hrecord
  obtain ⟨hlow, hhigh⟩ := idRange_spec key records record hrecord
  unfold rangeLength at hlength
  split at hlength
  case isFalse => cases hlength
  case isTrue =>
    rw [idPlace, UInt64.toNat_sub_of_le _ _ hlow, ← Option.some.inj hlength]
    have hnatLow := UInt64.le_iff_toNat_le.mp hlow
    have hnatHigh := UInt64.le_iff_toNat_le.mp hhigh
    omega

end Dense

/-! ## Other ids -/

section Keyed

variable {keyed first : Array (UInt64 × UInt32)} {records : Array α} {fuel n : ℕ}

/-- Positions whose places are known, and the others as they were. -/
structure Inverts (first keyed : Array (UInt64 × UInt32)) (count : ℕ) : Prop where
  positions : ∀ i : ℕ, keyed[i]?.map Prod.snd = first[i]?.map Prod.snd
  places : ∀ d < count, ∀ entry : UInt64 × UInt32, first[d]? = some entry →
    keyed[entry.2.toNat]?.map Prod.fst = some (.ofNat d)

/-- The positions are all there, each once. -/
structure Numbers (first : Array (UInt64 × UInt32)) : Prop where
  lt : ∀ entry ∈ first, entry.2.toNat < first.size
  injective : ∀ (i j : ℕ) (a b : UInt64 × UInt32), first[i]? = some a → first[j]? = some b → a.2 = b.2 → i = j

theorem invert_spec (hfirst : Numbers first) {count : ℕ} (rest : ℕ) (hcount : count + rest = first.size)
    (h : Inverts first keyed count) (hsize : keyed.size = first.size) :
    ∃ result, invert (List.range' count rest) keyed = some result ∧ result.size = first.size ∧
      Inverts first result first.size := by
  induction rest generalizing count keyed with
  | zero => exact ⟨keyed, rfl, hsize, hcount ▸ h⟩
  | succ rest ih =>
      obtain ⟨entry, hentry⟩ : ∃ entry, first[count]? = some entry :=
        ⟨_, Array.getElem?_eq_getElem (by omega)⟩
      obtain ⟨current, hcurrent, hsame⟩ := Option.map_eq_some_iff.mp
        ((h.positions count).trans (congrArg (Option.map Prod.snd) hentry))
      have hlt := hfirst.lt entry (Array.mem_of_getElem? hentry)
      obtain ⟨slot, hslot⟩ : ∃ slot, keyed[entry.2.toNat]? = some slot :=
        ⟨_, Array.getElem?_eq_getElem (hsize ▸ hlt)⟩
      have hset : ∀ i : ℕ, (keyed.setIfInBounds entry.2.toNat (.ofNat count, slot.2))[i]? =
          if i = entry.2.toNat then some (.ofNat count, slot.2) else keyed[i]? := by
        intro i
        rw [Array.getElem?_setIfInBounds]
        by_cases hi : i = entry.2.toNat
        · rw [if_pos hi.symm, if_pos hi, if_pos (by omega)]
        · rw [if_neg (Ne.symm hi), if_neg hi]
      have hnext : Inverts first (keyed.setIfInBounds entry.2.toNat (.ofNat count, slot.2)) (count + 1) := by
        constructor
        · intro i
          rw [hset]
          split
          case isTrue hi => rw [← h.positions, hi, hslot]; rfl
          case isFalse => exact h.positions i
        · intro d hd other hother
          rw [hset]
          split
          case isTrue hi =>
            obtain rfl := hfirst.injective d count other entry hother hentry (UInt32.toNat_inj.mp hi)
            rfl
          case isFalse hi =>
            refine h.places d (Nat.lt_of_le_of_ne (Nat.lt_succ_iff.mp hd) ?_) other hother
            rintro rfl
            obtain rfl := Option.some.inj (hother.symm.trans hentry)
            exact hi rfl
      obtain ⟨result, hresult, hspec⟩ := ih (by omega) hnext (by rwa [Array.size_setIfInBounds])
      refine ⟨result, ?_, hspec⟩
      rw [List.range'_succ, invert, hcurrent]
      simp only [Option.bind_eq_bind, Option.bind_some, hsame, hslot]
      exact hresult

theorem invert_all (hfirst : Numbers first) : ∃ result, invert (List.range first.size) first = some result ∧
    result.size = first.size ∧ Inverts first result first.size := by
  rw [List.range_eq_range']
  exact invert_spec hfirst first.size (Nat.zero_add _)
    ⟨fun _ ↦ rfl, fun d hd ↦ absurd hd (Nat.not_lt_zero d)⟩ rfl

/-- Where every record is to go. -/
structure Directs (target : ℕ → Option α) (n : ℕ) (records : Array α)
    (keyed : Array (UInt64 × UInt32)) : Prop where
  sizes : records.size = n ∧ keyed.size = n
  lt : ∀ (i : ℕ) (entry : UInt64 × UInt32), keyed[i]? = some entry → entry.1.toNat < n
  injective : ∀ (i j : ℕ) (a b : UInt64 × UInt32), keyed[i]? = some a → keyed[j]? = some b → a.1 = b.1 → i = j
  holds : ∀ (i : ℕ) (entry : UInt64 × UInt32), keyed[i]? = some entry → records[i]? = target entry.1.toNat

/-- The place that an entry gives. -/
def entryPlace (entry : UInt64 × UInt32) : ℕ := entry.1.toNat

variable {target : ℕ → Option α}

theorem Directs.swap (h : Directs target n records keyed) {i j : ℕ} {a b : UInt64 × UInt32} {r s : α}
    (hi : keyed[i]? = some a) (hj : keyed[j]? = some b) (hr : records[i]? = some r)
    (hs : records[j]? = some s) : Directs target n
      (records.swap i j (lt_size hr) (lt_size hs)) (keyed.swap i j (lt_size hi) (lt_size hj)) := by
  refine ⟨?_, fun k entry hk ↦ ?_, fun k k' a b hk hk' hab ↦ ?_, fun k entry hk ↦ ?_⟩
  · rw [Array.size_swap, Array.size_swap]
    exact h.sizes
  · rw [getElem?_swap_equiv hi hj] at hk
    exact h.lt _ entry hk
  · rw [getElem?_swap_equiv hi hj] at hk hk'
    exact (Equiv.swap i j).injective (h.injective _ _ a b hk hk' hab)
  · rw [getElem?_swap_equiv hi hj] at hk
    rw [getElem?_swap_equiv hr hs]
    exact h.holds _ entry hk

/-- Each swap settles an entry together with its record. -/
theorem follow_spec {position : ℕ} (hposition : position < n) (h : Directs target n records keyed)
    (hfuel : unsettled entryPlace keyed < fuel) :
    ∃ result places, follow position fuel records keyed = some (result, places) ∧
      Directs target n result places ∧ result.Perm records ∧
      (∀ k, Settled entryPlace keyed k → Settled entryPlace places k) ∧
      Settled entryPlace places position := by
  induction fuel generalizing records keyed with
  | zero => exact absurd hfuel (Nat.not_lt_zero _)
  | succ fuel ih =>
      obtain ⟨entry, hentry⟩ : ∃ entry, keyed[position]? = some entry :=
        ⟨_, Array.getElem?_eq_getElem (h.sizes.2.symm ▸ hposition)⟩
      by_cases hplaced : entry.1.toNat = position
      · refine ⟨records, keyed, ?_, h, .refl _, fun _ h ↦ h, (settled_iff hentry).mpr hplaced⟩
        simp [follow, hentry, hplaced]
      have hlt := h.lt position entry hentry
      obtain ⟨other, hother⟩ : ∃ other, keyed[entry.1.toNat]? = some other :=
        ⟨_, Array.getElem?_eq_getElem (h.sizes.2.symm ▸ hlt)⟩
      obtain ⟨r, hr⟩ : ∃ r, records[position]? = some r :=
        ⟨_, Array.getElem?_eq_getElem (h.sizes.1.symm ▸ hposition)⟩
      obtain ⟨s, hs⟩ : ∃ s, records[entry.1.toNat]? = some s :=
        ⟨_, Array.getElem?_eq_getElem (h.sizes.1.symm ▸ hlt)⟩
      have hfree : entryPlace other ≠ entry.1.toNat := by
        intro hsame
        exact hplaced (h.injective _ _ other entry hother hentry (UInt64.toNat_inj.mp hsame))
      have hrest : unsettled entryPlace (keyed.swap position entry.1.toNat (lt_size hentry) (lt_size hother)) <
          unsettled entryPlace keyed := unsettled_swap_lt hentry hother rfl (Ne.symm hplaced) hfree
      obtain ⟨result, places, hresult, hdirects, hpermutes, hkeeps, hsettled⟩ :=
        ih (h.swap hentry hother hr hs) (by omega)
      refine ⟨result, places, ?_, hdirects, hpermutes.trans (Array.swap_perm _ _), fun k hk ↦ ?_, hsettled⟩
      · simp only [follow, hentry, Option.bind_eq_bind, Option.bind_some, hplaced, if_false,
          swap_eq hentry hother, swap_eq hr hs]
        exact hresult
      · exact hkeeps k (settled_swap_of_settled hentry hother rfl (Ne.symm hplaced) hfree hk)

theorem followEach_spec {positions : List ℕ} (hpositions : ∀ i ∈ positions, i < n)
    (h : Directs target n records keyed) (hfuel : n < fuel) :
    ∃ result places, followEach fuel positions records keyed = some result ∧
      Directs target n result places ∧ result.Perm records ∧
      (∀ k, Settled entryPlace keyed k → Settled entryPlace places k) ∧
      ∀ i ∈ positions, Settled entryPlace places i := by
  induction positions generalizing records keyed with
  | nil => exact ⟨records, keyed, rfl, h, .refl _, fun _ h ↦ h, fun i hi ↦ by cases hi⟩
  | cons position positions ih =>
      rw [List.forall_mem_cons] at hpositions
      have hle := unsettled_le entryPlace keyed
      rw [h.sizes.2] at hle
      obtain ⟨next, nextKeyed, hnext, hdirects, hperm, hkeeps, hsettled⟩ :=
        follow_spec hpositions.1 h (hle.trans_lt hfuel)
      obtain ⟨result, places, hresult, hlast, hpermutes, hkeepsAll, hall⟩ := ih hpositions.2 hdirects
      refine ⟨result, places, ?_, hlast, hpermutes.trans hperm, fun k hk ↦ hkeepsAll k (hkeeps k hk), ?_⟩
      · simpa [followEach, hnext] using hresult
      · exact List.forall_mem_cons.mpr ⟨hkeepsAll position hsettled, hall⟩

variable {key : α → UInt64}

/-- The keys of the records with their positions. -/
def keyedPositions (key : α → UInt64) (records : Array α) : List (UInt64 × UInt32) :=
  records.toList.zipIdx.map fun (record, index) ↦ (key record, .ofNat index)

theorem mem_keyedPositions (hsize : records.size < 2 ^ 32) {entry : UInt64 × UInt32} :
    entry ∈ keyedPositions key records ↔
      ∃ record, records[entry.2.toNat]? = some record ∧ key record = entry.1 := by
  simp only [keyedPositions, List.mem_map, Prod.exists, List.mem_zipIdx_iff_getElem?, Array.getElem?_toList]
  constructor
  · rintro ⟨record, index, hindex, rfl⟩
    have hvalue : (UInt32.ofNat index).toNat = index :=
      UInt32.toNat_ofNat_of_lt' ((lt_size hindex).trans hsize)
    exact ⟨record, by rw [hvalue, hindex], rfl⟩
  · rintro ⟨record, hrecord, hkey⟩
    exact ⟨record, entry.2.toNat, hrecord, by rw [hkey, UInt32.ofNat_toNat]⟩

theorem nodup_keyedPositions (hsize : records.size < 2 ^ 32) :
    ((keyedPositions key records).map Prod.snd).Nodup := by
  have hpositions : (keyedPositions key records).map Prod.snd =
      (List.range records.size).map UInt32.ofNat := by
    rw [keyedPositions, List.map_map, ← Array.length_toList, List.range_eq_range', ← List.zipIdx_map_snd,
      List.map_map]
    rfl
  rw [hpositions]
  refine List.Nodup.map_on (fun i hi j hj hsame ↦ ?_) List.nodup_range
  rw [List.mem_range] at hi hj
  have hvalue := congrArg UInt32.toNat hsame
  rwa [UInt32.toNat_ofNat_of_lt' (hi.trans hsize), UInt32.toNat_ofNat_of_lt' (hj.trans hsize)] at hvalue

/-- The record that a sorted entry is of. -/
def sortedRecord (records : Array α) (first : Array (UInt64 × UInt32)) (d : ℕ) : Option α :=
  first[d]?.bind fun entry ↦ records[entry.2.toNat]?

variable {l : List (UInt64 × UInt32)}

section Sorted

theorem length_of_perm (hperm : l.Perm (keyedPositions key records)) : l.length = records.size := by
  rw [hperm.length_eq, keyedPositions, List.length_map, List.length_zipIdx, Array.length_toList]

variable (hsize : records.size < 2 ^ 32) (hperm : l.Perm (keyedPositions key records))

include hsize hperm

theorem exists_record {d : ℕ} {entry : UInt64 × UInt32} (h : l.toArray[d]? = some entry) :
    ∃ record, records[entry.2.toNat]? = some record ∧ key record = entry.1 := by
  refine (mem_keyedPositions hsize).mp (hperm.mem_iff.mp ?_)
  rw [List.getElem?_toArray] at h
  exact List.mem_of_getElem? h

theorem numbers_of_perm : Numbers l.toArray := by
  constructor
  · intro entry hentry
    obtain ⟨d, hd⟩ := Array.mem_iff_getElem?.mp hentry
    obtain ⟨record, hrecord, -⟩ := exists_record hsize hperm hd
    rw [List.size_toArray, length_of_perm hperm]
    exact lt_size hrecord
  · intro i j a b ha hb hab
    rw [List.getElem?_toArray] at ha hb
    have hnodup : (l.map Prod.snd).Nodup := (hperm.map Prod.snd).nodup_iff.mpr (nodup_keyedPositions hsize)
    have hi : i < (l.map Prod.snd).length := by
      rw [List.length_map]
      exact (List.getElem?_eq_some_iff.mp ha).1
    refine (List.getElem?_inj hi hnodup).mp ?_
    rw [List.getElem?_map, List.getElem?_map, ha, hb, Option.map_some, Option.map_some, hab]

/-- Every position stands somewhere in the sorted list. -/
theorem exists_sorted {i : ℕ} (hi : i < records.size) :
    ∃ d entry, d < records.size ∧ l.toArray[d]? = some entry ∧ entry.2.toNat = i := by
  have hvalue : (UInt32.ofNat i).toNat = i := UInt32.toNat_ofNat_of_lt' (hi.trans hsize)
  have hmem : (key records[i], UInt32.ofNat i) ∈ l := by
    refine hperm.mem_iff.mpr ((mem_keyedPositions hsize).mpr ⟨records[i], ?_, rfl⟩)
    rw [hvalue, Array.getElem?_eq_getElem hi]
  obtain ⟨d, hd⟩ := List.mem_iff_getElem?.mp hmem
  refine ⟨d, _, ?_, by rw [List.getElem?_toArray, hd], hvalue⟩
  rw [← length_of_perm hperm]
  exact (List.getElem?_eq_some_iff.mp hd).1

theorem directs_of_inverts (hlength : keyed.size = records.size)
    (h : Inverts l.toArray keyed records.size) :
    Directs (sortedRecord records l.toArray) records.size records keyed := by
  have hplace : ∀ (i : ℕ) (entry : UInt64 × UInt32), keyed[i]? = some entry → ∃ d original,
      d < records.size ∧ l.toArray[d]? = some original ∧ original.2.toNat = i ∧ entry.1.toNat = d := by
    intro i entry hentry
    obtain ⟨d, original, hd, horiginal, hi⟩ := exists_sorted hsize hperm (hlength ▸ lt_size hentry)
    have hfirst := h.places d hd original horiginal
    rw [hi, hentry, Option.map_some, Option.some.injEq] at hfirst
    refine ⟨d, original, hd, horiginal, hi, ?_⟩
    rw [hfirst, UInt64.toNat_ofNat_of_lt' (by change d < 2 ^ 64; omega)]
  refine ⟨⟨rfl, hlength⟩, fun i entry hentry ↦ ?_, fun i j a b ha hb hab ↦ ?_, fun i entry hentry ↦ ?_⟩
  · obtain ⟨d, original, hd, -, -, rfl⟩ := hplace i entry hentry
    exact hd
  · obtain ⟨d, original, -, horiginal, rfl, hd⟩ := hplace i a ha
    obtain ⟨d', original', -, horiginal', rfl, hd'⟩ := hplace j b hb
    obtain rfl : d = d' := by rw [← hd, ← hd', hab]
    rw [Option.some.inj (horiginal.symm.trans horiginal')]
  · obtain ⟨d, original, -, horiginal, rfl, rfl⟩ := hplace i entry hentry
    rw [sortedRecord, horiginal, Option.bind_some]

end Sorted

theorem sortKeyed_spec (sort : KeySort) (hsize : records.size < 2 ^ 32) (hfuel : records.size < fuel) :
    ∃ result, sortKeyed sort key records fuel = some result ∧ result.Perm records ∧
      result.toList.Pairwise fun a b ↦ key a ≤ key b := by
  have hperm := sort.perm (keyedPositions key records)
  have hlength : (sort.sort (keyedPositions key records)).toArray.size = records.size := by
    rw [List.size_toArray, length_of_perm hperm]
  obtain ⟨keyed, hkeyed, hkeyedSize, hinverts⟩ := invert_all (numbers_of_perm hsize hperm)
  rw [hlength] at hkeyedSize hinverts
  have hdirects := directs_of_inverts hsize hperm hkeyedSize hinverts
  have hpositions : ∀ i ∈ List.range keyed.size, i < records.size := fun i hi ↦
    hkeyedSize ▸ List.mem_range.mp hi
  obtain ⟨result, places, hresult, hlast, hpermutes, -, hall⟩ := followEach_spec hpositions hdirects hfuel
  refine ⟨result, ?_, hpermutes, ?_⟩
  · have hsorted : sortKeyed sort key records fuel = (invert (List.range
        (sort.sort (keyedPositions key records)).toArray.size)
          (sort.sort (keyedPositions key records)).toArray).bind fun keyed ↦
            followEach fuel (List.range keyed.size) records keyed := rfl
    rw [hsorted, hkeyed, Option.bind_some, hresult]
  · have hentry : ∀ d, ∀ hd : d < result.toList.length, ∃ entry : UInt64 × UInt32,
        (sort.sort (keyedPositions key records))[d]? = some entry ∧ key result.toList[d] = entry.1 := by
      intro d hd
      have hlt : d < records.size := by
        rwa [Array.length_toList, hlast.sizes.1] at hd
      obtain ⟨place, hplace, hsettled⟩ := Option.map_eq_some_iff.mp
        (hall d (List.mem_range.mpr (hkeyedSize.symm ▸ hlt)))
      obtain ⟨entry, hentry⟩ : ∃ entry, (sort.sort (keyedPositions key records)).toArray[d]? = some entry :=
        ⟨_, Array.getElem?_eq_getElem (hlength.symm ▸ hlt)⟩
      obtain ⟨record, hrecord, hkey⟩ := exists_record hsize hperm hentry
      have hget := hlast.holds d place hplace
      have hd' : place.1.toNat = d := hsettled
      rw [hd', sortedRecord, hentry, Option.bind_some, hrecord, ← Array.getElem?_toList] at hget
      refine ⟨entry, by rwa [List.getElem?_toArray] at hentry, ?_⟩
      rw [(List.getElem?_eq_some_iff.mp hget).2, hkey]
    refine List.pairwise_iff_getElem.mpr fun i j hi hj hlt ↦ ?_
    obtain ⟨a, ha, hkeyA⟩ := hentry i hi
    obtain ⟨b, hb, hkeyB⟩ := hentry j hj
    obtain ⟨hi', rfl⟩ := List.getElem?_eq_some_iff.mp ha
    obtain ⟨hj', rfl⟩ := List.getElem?_eq_some_iff.mp hb
    rw [hkeyA, hkeyB]
    exact List.pairwise_iff_getElem.mp (sort.sorted _) i j hi' hj' hlt

end Keyed

/-! ## All records -/

theorem sortRecordsById_spec (sort : KeySort) (key : α → UInt64) (records : Array α)
    (hsize : records.size < 2 ^ 32) {fuel : ℕ} (hfuel : records.size < fuel) :
    ∃ result, sortRecordsById sort key records fuel = some result ∧ result.Perm records ∧
      result.toList.Pairwise fun a b ↦ key a ≤ key b := by
  by_cases hsorted : records.toList.IsChain fun a b ↦ key a ≤ key b
  · refine ⟨records, if_pos hsorted, .refl _, ?_⟩
    have htrans : Trans (fun a b ↦ key a ≤ key b) (fun a b ↦ key a ≤ key b) fun a b ↦ key a ≤ key b :=
      ⟨UInt64.le_trans⟩
    exact List.isChain_iff_pairwise.mp hsorted
  have hrun : sortRecordsById sort key records fuel =
      if rangeLength (idRange key records).1 (idRange key records).2 = some records.size then
        (settleEach key (idRange key records).1 fuel (List.range records.size) records).bind fun settled ↦
          if settled.2 then some settled.1 else sortKeyed sort key settled.1 fuel
      else sortKeyed sort key records fuel := if_neg hsorted
  rw [hrun]
  split
  case isFalse => exact sortKeyed_spec sort hsize hfuel
  case isTrue hlength =>
    have hpositions : ∀ i ∈ List.range records.size, i < records.size := fun i ↦ List.mem_range.mp
    obtain ⟨settled, unique, hsettled, hperm, -, hall⟩ :=
      settleEach_spec hpositions (idPlace_lt hlength) hfuel
    have hsame := hperm.size_eq
    rw [hsettled, Option.bind_some]
    cases unique with
    | true =>
        have hlow : ∀ record ∈ settled, (idRange key records).1 ≤ key record := fun record hrecord ↦
          (idRange_spec key records record (hperm.mem_iff.mp hrecord)).1
        have hplaces : ∀ i < settled.size, Settled (idPlace key (idRange key records).1) settled i :=
          fun i hi ↦ hall rfl i (List.mem_range.mpr (hsame ▸ hi))
        exact ⟨settled, rfl, hperm, sorted_of_settled hlow hplaces⟩
    | false =>
        obtain ⟨result, hresult, hpermutes, hordered⟩ :=
          sortKeyed_spec sort (hsame.symm ▸ hsize) (hsame.symm ▸ hfuel)
        exact ⟨result, hresult, hpermutes.trans hperm, hordered⟩

/-- Records of different ids are ordered as any sort orders them. -/
theorem sortRecordsById_eq_sortByKey (sort : KeySort) {key : α → UInt64} {records : Array α}
    (hsize : records.size < 2 ^ 32) (hkeys : (records.toList.map key).Nodup) {fuel : ℕ}
    (hfuel : records.size < fuel) : sortRecordsById sort key records fuel =
      some (KeyOrder.sortByKey (fun record ↦ (key record).toNat) records.toList).toArray := by
  obtain ⟨result, hresult, hperm, hsorted⟩ := sortRecordsById_spec sort key records hsize hfuel
  have hnat : (records.toList.map fun record ↦ (key record).toNat).Nodup := by
    have hmap := hkeys.map fun a b ↦ UInt64.toNat_inj.mp
    rwa [List.map_map] at hmap
  have hlists : result.toList = KeyOrder.sortByKey (fun record ↦ (key record).toNat) records.toList := by
    have hsame := (Array.perm_iff_toList_perm.mp hperm).trans
      (KeyOrder.sortByKey_perm (fun record ↦ (key record).toNat) records.toList).symm
    refine KeyOrder.eq_of_perm_of_sorted (fun record ↦ (key record).toNat) hsame ?_
      (hsorted.imp UInt64.le_iff_toNat_le.mp) (KeyOrder.sortByKey_pairwise _ _)
    exact ((Array.perm_iff_toList_perm.mp hperm).map _).nodup_iff.mpr hnat
  rw [hresult, ← hlists, Array.toArray_toList]

/-- Sorting comes to an end with the same records, in the order of their ids. -/
theorem sortRecordsById_sorts (sort : KeySort) (key : α → UInt64) (records : Array α)
    (hsize : records.size < 2 ^ 32) {fuel : ℕ} (hfuel : records.size < fuel) :
    ∃ result, sortRecordsById sort key records fuel = some result ∧ result.Perm records ∧
      result.toList.Pairwise fun a b ↦ key a ≤ key b := sortRecordsById_spec sort key records hsize hfuel

def KeySort.byNumber : KeySort where
  sort := KeyOrder.sortByKey fun entry ↦ entry.1.toNat
  perm := KeyOrder.sortByKey_perm _
  sorted keyed := by
    have hsorted := KeyOrder.sortByKey_pairwise (fun entry : UInt64 × UInt32 ↦ entry.1.toNat) keyed
    exact hsorted.imp fun hle ↦ UInt64.le_iff_toNat_le.mpr hle

theorem sortRecordsById_sorts_duplicate :
    ∃ result, sortRecordsById .byNumber id #[4, 2, 3, 2] 5 = some result ∧ result.Perm #[4, 2, 3, 2] ∧
      result.toList.Pairwise fun a b ↦ id a ≤ id b :=
  sortRecordsById_sorts .byNumber id #[4, 2, 3, 2] (by decide) (by decide)

example : sortRecordsById .byNumber id #[4, 2, 3, 2] 5 = some #[2, 2, 3, 4] := by decide +kernel

end RecordOrder

end WinBlaze
