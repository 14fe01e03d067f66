import WinBlaze.Index.Store
import WinBlaze.Lib.IdMap

/-!
# The table of file records

File records are in one list, and a table of positions finds them by id: slots
indexed by the id while the ids are small, a map once they are not. The list is
the arena of the index, and the two together are a map from ids to records.
-/

namespace WinBlaze

namespace FileTable

def saturatingMul (a b : ℕ) : ℕ := min (a * b) usizeMax

def saturatingAdd (a b : ℕ) : ℕ := min (a + b) usizeMax

inductive FilePositions
  /-- Position plus one by id, zero where there is none; the room for slots, and a
  hint of how many records to expect. -/
  | dense (slots : List ℕ) (capacity hint : ℕ)
  | sparse (positions : IdMap FileId ℕ)

/-- The capacity of a vector that needs this room; an allocation may give more. -/
def grow (capacity needed allocated : ℕ) : ℕ :=
  if needed ≤ capacity then capacity else max needed allocated

/-- `checked_sub(1)`. -/
def decode (encoded : ℕ) : Option ℕ := if encoded = 0 then none else some (encoded - 1)

namespace FilePositions

def withCapacity (capacity allocated : ℕ) : FilePositions :=
  .dense [] (grow 0 (if capacity = 0 then 0 else saturatingAdd capacity 1) allocated) capacity

def reserve (positions : FilePositions) (total allocated : ℕ) : FilePositions :=
  match positions with
  | .dense slots capacity hint =>
      if 0 < total then
        .dense slots (grow capacity (slots.length + (saturatingAdd total 1 - slots.length)) allocated)
          (max hint total)
      else .dense slots capacity hint
  | .sparse positions => .sparse positions

def get (positions : FilePositions) (id : FileId) : Option ℕ :=
  match positions with
  | .dense slots _ _ => (slots[id.val.toNat]?).bind decode
  | .sparse positions => positions.find? id

/-- The entries of the slots. -/
def entries (slots : List ℕ) : List (FileId × ℕ) :=
  slots.zipIdx.filterMap fun slot ↦ (decode slot.1).map (⟨.ofNat slot.2⟩, ·)

/-- How far the slots may reach. -/
def limit (capacity hint live : ℕ) : ℕ :=
  max (max capacity (saturatingAdd hint 1)) (saturatingAdd (saturatingMul live 4) 16384)

/-- The slots with one more entry. -/
def fill (slots : List ℕ) (index encoded : ℕ) : List ℕ :=
  (slots ++ List.replicate (index + 1 - slots.length) 0).set index encoded

def insert (positions : FilePositions) (id : FileId) (position live allocated : ℕ) : FilePositions :=
  match positions with
  | .dense slots capacity hint =>
      let index := id.val.toNat
      if position + 1 < 2 ^ 32 ∧ index < limit capacity hint live then
        .dense (fill slots index (position + 1))
          (if slots.length ≤ index then grow capacity (index + 1) allocated else capacity) hint
      else .sparse ((IdMap.ofPairs (entries slots)).set id position)
  | .sparse positions => .sparse (positions.set id position)

def remove (positions : FilePositions) (id : FileId) : Option ℕ × FilePositions :=
  match positions with
  | .dense slots capacity hint =>
      ((slots[id.val.toNat]?).bind decode, .dense (slots.set id.val.toNat 0) capacity hint)
  | .sparse positions => (positions.find? id, .sparse (positions.erase id))

/-- A clone has the room it needs, and perhaps more. -/
def clone (positions : FilePositions) (allocated : ℕ) : FilePositions :=
  match positions with
  | .dense slots _ hint => .dense slots (max slots.length allocated) hint
  | .sparse positions => .sparse positions

end FilePositions

structure FileRecords where
  positions : FilePositions := .dense [] 0 0
  records : List FileRecord := []

namespace FileRecords

def withCapacity (capacity allocated : ℕ) : FileRecords :=
  ⟨.withCapacity capacity allocated, []⟩

def reserve (files : FileRecords) (total allocated : ℕ) : FileRecords :=
  { files with positions := files.positions.reserve total allocated }

def insert (files : FileRecords) (id : FileId) (record : FileRecord) (allocated : ℕ) : FileRecords :=
  match files.positions.get id with
  | some position => { files with records := files.records.set position record }
  | none =>
      let records := files.records ++ [record]
      ⟨files.positions.insert id files.records.length records.length allocated, records⟩

def remove (files : FileRecords) (id : FileId) (allocated : ℕ) : FileRecords :=
  match files.positions.remove id with
  | (some position, positions) =>
      let records := KeyedArena.swapRemove files.records position
      match records[position]? with
      | some moved => ⟨positions.insert moved.id position records.length allocated, records⟩
      | none => ⟨positions, records⟩
  | (none, positions) => { files with positions := positions }

def clone (files : FileRecords) (allocated : ℕ) : FileRecords :=
  { files with positions := files.positions.clone allocated }

def values (files : FileRecords) : List FileRecord := files.records

def eq (files other : FileRecords) : Bool :=
  files.records.length = other.records.length ∧
    files.records.all fun record ↦ (other.positions.get record.id).any fun position ↦
      other.records[position]? = some record

end FileRecords

/-- An operation, and what its allocation gives. -/
inductive Op
  | withCapacity (capacity allocated : ℕ)
  | reserve (total allocated : ℕ)
  | insert (record : FileRecord) (allocated : ℕ)
  | remove (id : FileId) (allocated : ℕ)
  | clone (allocated : ℕ)

def step (files : FileRecords) : Op → FileRecords
  | .withCapacity capacity allocated => .withCapacity capacity allocated
  | .reserve total allocated => files.reserve total allocated
  | .insert record allocated => files.insert record.id record allocated
  | .remove id allocated => files.remove id allocated
  | .clone allocated => files.clone allocated

def run (ops : List Op) : FileRecords := ops.foldl step {}

/-! ## Positions -/

namespace FilePositions

/-- There are slots only for ids. -/
def Fits : FilePositions → Prop
  | .dense slots _ _ => slots.length ≤ 2 ^ 64
  | .sparse _ => True

theorem decode_eq_some_iff {encoded position : ℕ} : decode encoded = some position ↔ encoded = position + 1 := by
  unfold decode
  split
  case isTrue hzero => simp [hzero]
  case isFalse hpos =>
    rw [Option.some.injEq]
    omega

theorem getElem?_fill (slots : List ℕ) (index encoded i : ℕ) :
    ((fill slots index encoded)[i]?).bind decode =
      if i = index then decode encoded else (slots[i]?).bind decode := by
  unfold fill
  by_cases hself : i = index
  · subst hself
    have hroom : i < (slots ++ List.replicate (i + 1 - slots.length) 0).length := by
      rw [List.length_append, List.length_replicate]
      omega
    rw [if_pos rfl, List.getElem?_set_self hroom, Option.bind_some]
  · rw [if_neg hself, List.getElem?_set_ne (Ne.symm hself)]
    by_cases hold : i < slots.length
    · rw [List.getElem?_append_left hold]
    · rw [List.getElem?_append_right (by omega), List.getElem?_eq_none (Nat.not_lt.mp hold),
        List.getElem?_replicate]
      split <;> rfl

theorem mem_entries_iff {slots : List ℕ} (hfits : slots.length ≤ 2 ^ 64) (id : FileId) (position : ℕ) :
    (id, position) ∈ entries slots ↔ (slots[id.val.toNat]?).bind decode = some position := by
  unfold entries
  rw [List.mem_filterMap]
  constructor
  · rintro ⟨⟨encoded, index⟩, hslot, hentry⟩
    obtain ⟨found, hfound, heq⟩ := Option.map_eq_some_iff.mp hentry
    obtain ⟨rfl, rfl⟩ := Prod.mk.inj heq
    have hget := List.mk_mem_zipIdx_iff_getElem?.mp hslot
    have hlt := (List.getElem?_eq_some_iff.mp hget).1
    have hindex : (UInt64.ofNat index).toNat = index := by
      rw [UInt64.toNat_ofNat']
      exact Nat.mod_eq_of_lt (by omega)
    rw [hindex, hget, Option.bind_some, hfound]
  · intro hget
    obtain ⟨encoded, hslot, hdecode⟩ := Option.bind_eq_some_iff.mp hget
    refine ⟨(encoded, id.val.toNat), List.mk_mem_zipIdx_iff_getElem?.mpr hslot, ?_⟩
    rw [hdecode, Option.map_some, UInt64.ofNat_toNat]

theorem nodup_entries {slots : List ℕ} (hfits : slots.length ≤ 2 ^ 64) :
    ((entries slots).map Prod.fst).Nodup := by
  have hplaces : slots.zipIdx.Pairwise (fun a b ↦ a.2 < b.2) := by
    refine List.pairwise_map.mp ?_
    rw [List.zipIdx_map_snd]
    exact List.pairwise_lt_range'
  rw [entries, List.map_filterMap, List.Nodup, List.pairwise_filterMap]
  refine hplaces.imp_of_mem fun {a b} ha hb hlt id hid other hother heq ↦ ?_
  obtain ⟨first, hfirst, rfl⟩ := Option.map_eq_some_iff.mp hid
  obtain ⟨second, hsecond, rfl⟩ := Option.map_eq_some_iff.mp hother
  obtain ⟨i, hi, rfl⟩ := Option.map_eq_some_iff.mp hfirst
  obtain ⟨j, hj, rfl⟩ := Option.map_eq_some_iff.mp hsecond
  have hval := congrArg (fun id : FileId ↦ id.val.toNat) heq
  simp only [UInt64.toNat_ofNat'] at hval
  have hb' := (List.getElem?_eq_some_iff.mp (List.mem_zipIdx_iff_getElem?.mp hb)).1
  omega

/-- The map made of the slots has their entries. -/
theorem find?_ofPairs_entries {slots : List ℕ} (hfits : slots.length ≤ 2 ^ 64) (id : FileId) :
    (IdMap.ofPairs (entries slots)).find? id = (slots[id.val.toNat]?).bind decode := by
  apply Option.ext
  intro position
  rw [IdMap.find?_ofPairs_iff (nodup_entries hfits), mem_entries_iff hfits]

/-- An insertion adds one entry, also where it leaves the slots. -/
theorem get_insert {positions : FilePositions} (hfits : positions.Fits) (id other : FileId)
    (position live allocated : ℕ) :
    (positions.insert id position live allocated).get other =
      if other = id then some position else positions.get other := by
  cases positions with
  | sparse positions => exact IdMap.find?_set positions id other position
  | dense slots capacity hint =>
      unfold insert
      dsimp only
      split
      case isTrue =>
        have hsame : other.val.toNat = id.val.toNat ↔ other = id :=
          ⟨fun h ↦ FileId.val_injective (UInt64.toNat_inj.mp h), fun h ↦ h ▸ rfl⟩
        have hdecode : decode (position + 1) = some position := decode_eq_some_iff.mpr rfl
        simp only [get, getElem?_fill, hsame, hdecode]
      case isFalse =>
        simp only [get, IdMap.find?_set, find?_ofPairs_entries hfits]

theorem fits_insert {positions : FilePositions} (hfits : positions.Fits) (id : FileId)
    (position live allocated : ℕ) : (positions.insert id position live allocated).Fits := by
  cases positions with
  | sparse positions => trivial
  | dense slots capacity hint =>
      unfold insert
      dsimp only
      split
      case isTrue =>
        have hid := id.val.toNat_lt
        have hold : slots.length ≤ 2 ^ 64 := hfits
        simp only [Fits, fill, List.length_set, List.length_append, List.length_replicate]
        omega
      case isFalse => trivial

theorem remove_fst (positions : FilePositions) (id : FileId) :
    (positions.remove id).1 = positions.get id := by
  cases positions <;> rfl

/-- A removal takes out one entry. -/
theorem get_remove (positions : FilePositions) (id other : FileId) :
    (positions.remove id).2.get other = if other = id then none else positions.get other := by
  cases positions with
  | sparse positions =>
      simp only [remove, get]
      by_cases hself : other = id
      · rw [if_pos hself, hself, IdMap.find?_erase_self]
      · rw [if_neg hself, IdMap.find?_erase_of_ne positions hself]
  | dense slots capacity hint =>
      simp only [remove, get]
      by_cases hself : other = id
      · rw [if_pos hself, hself, List.getElem?_set_self']
        cases slots[id.val.toNat]? <;> rfl
      · have hne : id.val.toNat ≠ other.val.toNat := fun h ↦
          hself (FileId.val_injective (UInt64.toNat_inj.mp h.symm))
        rw [if_neg hself, List.getElem?_set_ne hne]

theorem fits_remove {positions : FilePositions} (hfits : positions.Fits) (id : FileId) :
    (positions.remove id).2.Fits := by
  cases positions with
  | sparse positions => trivial
  | dense slots capacity hint => exact (List.length_set ..).le.trans hfits

theorem get_reserve (positions : FilePositions) (total allocated : ℕ) :
    (positions.reserve total allocated).get = positions.get := by
  cases positions with
  | sparse positions => rfl
  | dense slots capacity hint =>
      unfold reserve
      dsimp only
      split <;> rfl

theorem fits_reserve {positions : FilePositions} (hfits : positions.Fits) (total allocated : ℕ) :
    (positions.reserve total allocated).Fits := by
  cases positions with
  | sparse positions => trivial
  | dense slots capacity hint =>
      unfold reserve
      dsimp only
      split <;> exact hfits

theorem get_clone (positions : FilePositions) (allocated : ℕ) :
    (positions.clone allocated).get = positions.get := by
  cases positions <;> rfl

theorem fits_clone {positions : FilePositions} (hfits : positions.Fits) (allocated : ℕ) :
    (positions.clone allocated).Fits := by
  cases positions <;> exact hfits

end FilePositions

/-! ## The arena -/

/-- The positions find every record of the arena by its id. -/
structure Represents (files : FileRecords) (arena : KeyedArena FileRecord.id) : Prop where
  records : files.records = arena.records
  fits : files.positions.Fits
  positions : ∀ id position, files.positions.get id = some position ↔
    (files.records[position]?).map FileRecord.id = some id

theorem upsert_eq_set {l : List FileRecord} (hnodup : (l.map FileRecord.id).Nodup) {record : FileRecord}
    {position : ℕ} (h : (l[position]?).map FileRecord.id = some record.id) :
    KeyedArena.upsert FileRecord.id record l = l.set position record := by
  induction l generalizing position with
  | nil => simp at h
  | cons first rest ih =>
      obtain ⟨hfirst, hrest⟩ := List.nodup_cons.mp hnodup
      cases position with
      | zero =>
          have hid : first.id = record.id := Option.some.inj h
          rw [KeyedArena.upsert, if_pos hid, List.set_cons_zero]
      | succ position =>
          rw [List.getElem?_cons_succ] at h
          have hne : first.id ≠ record.id := by
            intro heq
            obtain ⟨found, hfound, hid⟩ := Option.map_eq_some_iff.mp h
            exact hfirst (heq ▸ hid ▸ List.mem_map_of_mem (List.mem_of_getElem? hfound))
          rw [KeyedArena.upsert, if_neg hne, List.set_cons_succ, ih hrest h]

namespace Represents

variable {files : FileRecords} {arena : KeyedArena FileRecord.id} (h : Represents files arena)

include h

theorem nodup : (files.records.map FileRecord.id).Nodup := h.records ▸ arena.nodup_keys

theorem lt_length {id : FileId} {position : ℕ} (hget : files.positions.get id = some position) :
    position < files.records.length := by
  obtain ⟨record, hrecord, -⟩ := Option.map_eq_some_iff.mp ((h.positions id position).mp hget)
  exact (List.getElem?_eq_some_iff.mp hrecord).1

theorem injective {first second : FileId} {position : ℕ}
    (hfirst : files.positions.get first = some position)
    (hsecond : files.positions.get second = some position) : first = second := by
  rw [h.positions] at hfirst hsecond
  exact Option.some.inj (hfirst.symm.trans hsecond)

theorem notMem_of_get_eq_none {id : FileId} (hget : files.positions.get id = none) :
    id ∉ files.records.map FileRecord.id := by
  intro hmem
  obtain ⟨position, hlt, hat⟩ := List.getElem_of_mem hmem
  have hsome := (h.positions id position).mpr (by
    rw [← List.getElem?_map, List.getElem?_eq_getElem hlt, hat])
  rw [hget] at hsome
  cases hsome

/-- The records after one was taken out, by the positions there were. -/
theorem swapRemove_place {position : ℕ} (hlt : position < files.records.length) (id : FileId)
    (place : ℕ) :
    ((KeyedArena.swapRemove files.records position)[place]?).map FileRecord.id = some id ↔
      place + 1 < files.records.length ∧ files.positions.get id =
        some (if place = position then files.records.length - 1 else place) := by
  rw [KeyedArena.getElem?_swapRemove files.records hlt, h.positions]
  by_cases hbound : place + 1 < files.records.length
  · by_cases hself : place = position
    · subst hself
      simp only [hbound, if_true, true_and, List.getLast?_eq_getElem?]
    · simp only [hbound, hself, if_true, if_false, true_and]
  · simp only [hbound, if_false, false_and, Option.map_none, reduceCtorEq]

theorem insert (record : FileRecord) (allocated : ℕ) :
    Represents (files.insert record.id record allocated) (arena.insert record) := by
  unfold FileRecords.insert
  cases hget : files.positions.get record.id with
  | some position =>
      have hat := (h.positions record.id position).mp hget
      refine ⟨?_, h.fits, fun id other ↦ ?_⟩
      · exact (upsert_eq_set h.nodup hat).symm.trans
          (congrArg (KeyedArena.upsert FileRecord.id record) h.records)
      · rw [h.positions]
        by_cases hself : position = other
        · subst hself
          obtain ⟨found, hfound, -⟩ := Option.map_eq_some_iff.mp hat
          have hlt := (List.getElem?_eq_some_iff.mp hfound).1
          rw [hat, List.getElem?_set_self hlt, Option.map_some]
        · rw [List.getElem?_set_ne hself]
  | none =>
      have hnew := h.notMem_of_get_eq_none hget
      refine ⟨?_, FilePositions.fits_insert h.fits _ _ _ _, fun id other ↦ ?_⟩
      · exact (KeyedArena.upsert_of_notMem FileRecord.id record hnew).symm.trans
          (congrArg (KeyedArena.upsert FileRecord.id record) h.records)
      · rw [FilePositions.get_insert h.fits]
        dsimp only
        rcases Nat.lt_trichotomy other files.records.length with hold | rfl | hbeyond
        · rw [List.getElem?_append_left hold]
          split
          case isTrue hself =>
            refine iff_of_false (by simp; omega) fun hat ↦ hnew ?_
            obtain ⟨found, hfound, hid⟩ := Option.map_eq_some_iff.mp hat
            exact hself ▸ hid ▸ List.mem_map_of_mem (List.mem_of_getElem? hfound)
          case isFalse => exact h.positions id other
        · rw [List.getElem?_append_right le_rfl, Nat.sub_self, List.getElem?_cons_zero, Option.map_some,
            Option.some.injEq]
          split
          case isTrue hself => exact iff_of_true rfl hself.symm
          case isFalse hother =>
            rw [h.positions, List.getElem?_eq_none le_rfl]
            exact iff_of_false (by simp) (Ne.symm hother)
        · rw [List.getElem?_eq_none (by simp; omega)]
          split
          case isTrue => exact iff_of_false (by simp; omega) (by simp)
          case isFalse => rw [h.positions, List.getElem?_eq_none hbeyond.le]

theorem remove (id : FileId) (allocated : ℕ) :
    Represents (files.remove id allocated) (arena.remove id) := by
  unfold FileRecords.remove
  have hfst := FilePositions.remove_fst files.positions id
  have hget := FilePositions.get_remove files.positions id
  have hfits := FilePositions.fits_remove h.fits id
  generalize files.positions.remove id = removed at hfst hget hfits
  obtain ⟨found, positions⟩ := removed
  dsimp only at hfst hget hfits
  cases found with
  | none =>
      have habsent := h.notMem_of_get_eq_none hfst.symm
      refine ⟨h.records.trans (arena.records_remove_of_notMem (h.records ▸ habsent)).symm, hfits,
        fun other position ↦ ?_⟩
      rw [hget, ← h.positions]
      split
      case isTrue hself => rw [hself, ← hfst]
      case isFalse => rfl
  | some position =>
      have hat := (h.positions id position).mp hfst.symm
      obtain ⟨record, hrecord, rfl⟩ := Option.map_eq_some_iff.mp hat
      have hlt := (List.getElem?_eq_some_iff.mp hrecord).1
      have hrecords : (arena.remove record.id).records =
          KeyedArena.swapRemove files.records position := by
        rw [h.records] at hrecord
        rw [KeyedArena.records_remove_of_getElem? arena hrecord, h.records]
      have hplace := h.swapRemove_place hlt
      cases hmoved : (KeyedArena.swapRemove files.records position)[position]? with
      | none =>
          -- The record was the last one, and no other record moves.
          have hlast : files.records.length ≤ position + 1 := by
            by_contra hmore
            rw [KeyedArena.getElem?_swapRemove _ hlt, if_pos (Nat.not_le.mp hmore), if_pos rfl, List.getLast?_eq_getElem?,
              List.getElem?_eq_none_iff] at hmoved
            omega
          simp only [hmoved]
          refine ⟨hrecords.symm, hfits, fun other place ↦ ?_⟩
          dsimp only
          rw [hplace, hget]
          by_cases hself : other = record.id
          · rw [if_pos hself, hself, ← hfst]
            refine iff_of_false (by simp) fun hthere ↦ ?_
            have heq := Option.some.inj hthere.2
            split at heq <;> omega
          · rw [if_neg hself]
            constructor
            · intro hother
              have hne : place ≠ position := fun heq ↦ hself (h.injective (heq ▸ hother) hfst.symm)
              have hlt' := h.lt_length hother
              exact ⟨by omega, by rw [if_neg hne, hother]⟩
            · rintro ⟨hbefore, hother⟩
              rwa [if_neg (by omega)] at hother
      | some moved =>
          -- The last record is now where the removed one was.
          obtain ⟨hmore, hlast⟩ := (hplace moved.id position).mp (by rw [hmoved, Option.map_some])
          rw [if_pos rfl] at hlast
          simp only [hmoved]
          refine ⟨hrecords.symm, FilePositions.fits_insert hfits _ _ _ _, fun other place ↦ ?_⟩
          dsimp only
          rw [hplace, FilePositions.get_insert hfits, hget]
          by_cases hself : other = moved.id
          · rw [if_pos hself, hself, hlast, Option.some.injEq, Option.some.injEq]
            constructor
            · rintro rfl
              exact ⟨hmore, (if_pos rfl).symm⟩
            · rintro ⟨hbefore, heq⟩
              split at heq <;> omega
          · rw [if_neg hself]
            by_cases hgone : other = record.id
            · rw [if_pos hgone, hgone, ← hfst, Option.some.injEq]
              refine iff_of_false (by simp) fun hthere ↦ ?_
              have heq := hthere.2
              split at heq <;> omega
            · rw [if_neg hgone]
              constructor
              · intro hother
                have hne : place ≠ position := fun heq ↦ hgone (h.injective (heq ▸ hother) hfst.symm)
                have hnotLast : place ≠ files.records.length - 1 := fun heq ↦
                  hself (h.injective (heq ▸ hother) hlast)
                have hlt' := h.lt_length hother
                exact ⟨by omega, by rw [if_neg hne, hother]⟩
              · rintro ⟨hbefore, hother⟩
                split at hother
                · exact (hself (h.injective hother hlast)).elim
                · exact hother

theorem reserve (total allocated : ℕ) : Represents (files.reserve total allocated) arena :=
  ⟨h.records, FilePositions.fits_reserve h.fits total allocated, fun id position ↦ by
    rw [FileRecords.reserve, FilePositions.get_reserve]
    exact h.positions id position⟩

theorem clone (allocated : ℕ) : Represents (files.clone allocated) arena :=
  ⟨h.records, FilePositions.fits_clone h.fits allocated, fun id position ↦ by
    rw [FileRecords.clone, FilePositions.get_clone]
    exact h.positions id position⟩

omit h in
theorem withCapacity (capacity allocated : ℕ) :
    Represents (.withCapacity capacity allocated) KeyedArena.empty :=
  ⟨rfl, Nat.zero_le _, fun id position ↦ by
    simp [FileRecords.withCapacity, FilePositions.withCapacity, FilePositions.get]⟩

end Represents

/-! ## Runs -/

/-- The arena of the index that an operation makes. -/
def stepArena (arena : KeyedArena FileRecord.id) : Op → KeyedArena FileRecord.id
  | .withCapacity _ _ => .empty
  | .reserve _ _ => arena
  | .insert record _ => arena.insert record
  | .remove id _ => arena.remove id
  | .clone _ => arena

theorem Represents.step {files : FileRecords} {arena : KeyedArena FileRecord.id}
    (h : Represents files arena) (op : Op) : Represents (step files op) (stepArena arena op) := by
  cases op with
  | withCapacity capacity allocated => exact .withCapacity capacity allocated
  | reserve total allocated => exact h.reserve total allocated
  | insert record allocated => exact h.insert record allocated
  | remove id allocated => exact h.remove id allocated
  | clone allocated => exact h.clone allocated

theorem Represents.foldl {files : FileRecords} {arena : KeyedArena FileRecord.id}
    (h : Represents files arena) (ops : List Op) :
    Represents (ops.foldl FileTable.step files) (ops.foldl stepArena arena) := by
  induction ops generalizing files arena with
  | nil => exact h
  | cons op rest ih => exact ih (h.step op)

theorem represents_run (ops : List Op) : Represents (run ops) (ops.foldl stepArena .empty) := by
  have hempty : Represents {} KeyedArena.empty :=
    ⟨rfl, Nat.zero_le _, fun id position ↦ by simp [FilePositions.get]⟩
  exact hempty.foldl ops

/-- The map from ids to records that an operation makes. -/
def describe (contents : FileId → Option FileRecord) : Op → FileId → Option FileRecord
  | .withCapacity _ _ => fun _ ↦ none
  | .reserve _ _ => contents
  | .insert record _ => Function.update contents record.id (some record)
  | .remove id _ => Function.update contents id none
  | .clone _ => contents

def described (ops : List Op) : FileId → Option FileRecord := ops.foldl describe fun _ ↦ none

theorem get?_stepArena (arena : KeyedArena FileRecord.id) (op : Op) :
    (stepArena arena op).get? = describe arena.get? op := by
  funext id
  cases op with
  | withCapacity capacity allocated => rfl
  | reserve total allocated => rfl
  | clone allocated => rfl
  | insert record allocated =>
      by_cases hself : id = record.id
      · rw [hself, describe, Function.update_self]
        exact arena.get?_insert_self record
      · exact (arena.get?_insert_of_ne record hself).trans (Function.update_of_ne hself ..).symm
  | remove removed allocated =>
      by_cases hself : id = removed
      · rw [hself, describe, Function.update_self]
        exact arena.get?_remove_self removed
      · exact (arena.get?_remove_of_ne hself).trans (Function.update_of_ne hself ..).symm

theorem get?_foldl_stepArena (ops : List Op) (arena : KeyedArena FileRecord.id) :
    (ops.foldl stepArena arena).get? = ops.foldl describe arena.get? := by
  induction ops generalizing arena with
  | nil => rfl
  | cons op rest ih => rw [List.foldl_cons, List.foldl_cons, ih, get?_stepArena]

theorem get?_arena (ops : List Op) : (ops.foldl stepArena .empty).get? = described ops :=
  get?_foldl_stepArena ops .empty

namespace Represents

variable {files other : FileRecords} {arena otherArena : KeyedArena FileRecord.id}

theorem lookup (h : Represents files arena) (id : FileId) :
    (files.positions.get id).bind (files.records[·]?) = arena.get? id := by
  apply Option.ext
  intro record
  rw [KeyedArena.get?_eq_some_iff, Option.bind_eq_some_iff, ← h.records]
  constructor
  · rintro ⟨position, hget, hrecord⟩
    have hid := (h.positions id position).mp hget
    rw [hrecord] at hid
    exact ⟨List.mem_of_getElem? hrecord, Option.some.inj hid⟩
  · rintro ⟨hmem, rfl⟩
    obtain ⟨position, hrecord⟩ := List.mem_iff_getElem?.mp hmem
    exact ⟨position, (h.positions _ _).mpr (by rw [hrecord, Option.map_some]), hrecord⟩

/-- Two tables compare equal when they have the same records, in any order. -/
theorem eq_iff (h : Represents files arena) (hother : Represents other otherArena) :
    files.eq other = true ↔ arena.get? = otherArena.get? := by
  have hfound : ∀ record : FileRecord, ((other.positions.get record.id).any fun position ↦
      other.records[position]? = some record) = true ↔ record ∈ otherArena.records := by
    intro record
    have hlookup := hother.lookup record.id
    rw [Option.any_eq_true]
    constructor
    · rintro ⟨position, hget, hrecord⟩
      exact hother.records ▸ List.mem_of_getElem? (of_decide_eq_true hrecord)
    · intro hmem
      rw [(otherArena.get?_eq_some_iff record.id record).mpr ⟨hmem, rfl⟩,
        Option.bind_eq_some_iff] at hlookup
      obtain ⟨position, hget, hrecord⟩ := hlookup
      exact ⟨position, hget, decide_eq_true hrecord⟩
  have hsame : files.eq other = true ↔ arena.Same otherArena := by
    simp only [FileRecords.eq, decide_eq_true_iff, List.all_eq_true, hfound, h.records]
    rw [hother.records]
    constructor
    · rintro ⟨hlength, hall⟩
      exact (List.subperm_of_subset arena.nodup_keys.of_map hall).perm_of_length_le hlength.ge
    · intro hperm
      exact ⟨hperm.length_eq, fun record hmem ↦ hperm.mem_iff.mp hmem⟩
  rw [hsame, KeyedArena.same_iff_get?, funext_iff]

end Represents

/-- After any operations the positions are a bijection between the ids and the places
of the records, the table is the map that the operations describe, an insertion keeps
every other entry, also where it leaves the slots, and tables compare as maps. -/
theorem run_isMap (ops : List Op) :
    (∀ id position, (run ops).positions.get id = some position ↔
      ∃ record, (run ops).records[position]? = some record ∧ record.id = id) ∧
    (∀ id, ((run ops).positions.get id).bind ((run ops).records[·]?) = described ops id) ∧
    ((run ops).values.map FileRecord.id).Nodup ∧
    (∀ record, record ∈ (run ops).values ↔ described ops record.id = some record) ∧
    (∀ id other position live allocated,
      ((run ops).positions.insert id position live allocated).get other =
        if other = id then some position else (run ops).positions.get other) ∧
    ∀ others, (run ops).eq (run others) = true ↔ described ops = described others := by
  have h := represents_run ops
  refine ⟨fun id position ↦ ?_, fun id ↦ ?_, h.nodup, fun record ↦ ?_,
    FilePositions.get_insert h.fits, fun others ↦ ?_⟩
  · rw [h.positions, Option.map_eq_some_iff]
  · rw [h.lookup, get?_arena]
  · rw [← get?_arena, KeyedArena.get?_eq_some_iff, ← h.records]
    exact (and_iff_left rfl).symm
  · rw [h.eq_iff (represents_run others), get?_arena, get?_arena]

end FileTable

end WinBlaze
