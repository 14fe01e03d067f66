import WinBlaze.Scanner.Ntfs.DataRuns
import WinBlaze.Scanner.Ntfs.ParserRuns

/-!
# Update sequence fixups

Each covered sector of a record ends in the update sequence number, and an array
in the record holds the bytes that belong there. Checks and writes alternate in
one loop. A write to one sector's tail is outside every other tail, so each
check sees the original bytes; only the array may see earlier writes.
-/

namespace WinBlaze

namespace Ntfs

/-! ## The loop with checked indices -/

def Slice.take (slice : Slice) (count : ℕ) : Slice :=
  ⟨slice.bytes.take count, (List.length_take_le' _ _).trans_lt slice.length_lt⟩

def Slice.drop (slice : Slice) (count : ℕ) : Slice :=
  ⟨slice.bytes.drop count, List.length_drop.trans_lt ((Nat.sub_le _ _).trans_lt slice.length_lt)⟩

namespace Machine

/-- `record[start..stop]` -/
def slice (record : List UInt8) (start stop : ℕ) : Parse (List UInt8) :=
  if start ≤ stop ∧ stop ≤ record.length then .ok ((record.drop start).take (stop - start))
  else .error .panic

/-- `record[place] = byte` -/
def setByte (record : List UInt8) (place : ℕ) (byte : UInt8) : Parse (List UInt8) :=
  if place < record.length then .ok (record.set place byte) else .error .panic

def fixupSectors (bytesPerSector usaOffset : ℕ) (usn : List UInt8) :
    List ℕ → List UInt8 → Parse (List UInt8 × Bool)
  | [], record => pure (record, true)
  | index :: rest, record => do
      let sectorEnd ← usizeMul index bytesPerSector
      if sectorEnd > record.length then pure (record, false)
      else
        let tailStart ← usizeSub sectorEnd 2
        let tail ← slice record tailStart sectorEnd
        if tail ≠ usn then pure (record, false)
        else
          let doubled ← usizeMul index 2
          let place ← usizeAdd usaOffset doubled
          let low ← indexByte record place
          let next ← usizeAdd place 1
          let high ← indexByte record next
          let record ← setByte record tailStart low
          let last ← usizeSub sectorEnd 1
          let record ← setByte record last high
          fixupSectors bytesPerSector usaOffset usn rest record

/-- What `apply_record_fixups` leaves of the record, and its answer. -/
def applyRecordFixups (record : Slice) (bytesPerSector : UInt64) : Parse (List UInt8 × Bool) :=
  if record.bytes.length < 8 ∨ bytesPerSector.toNat < 2 then pure (record.bytes, false)
  else do
    let usaOffset := (← leU16 record.bytes 4).toNat
    let usaCount := (← leU16 record.bytes 6).toNat
    if usaCount < 2 then pure (record.bytes, false)
    else
      let size ← usizeMul usaCount 2
      let usaEnd ← usizeAdd usaOffset size
      if usaEnd > record.bytes.length then pure (record.bytes, false)
      else
        let low ← indexByte record.bytes usaOffset
        let next ← usizeAdd usaOffset 1
        let high ← indexByte record.bytes next
        fixupSectors bytesPerSector.toNat usaOffset [low, high] (List.range' 1 (usaCount - 1))
          record.bytes

theorem slice_eq {record : List UInt8} {start stop : ℕ} (h : start ≤ stop)
    (hstop : stop ≤ record.length) :
    slice record start stop = .ok ((record.drop start).take (stop - start)) :=
  if_pos ⟨h, hstop⟩

theorem setByte_eq {record : List UInt8} {place : ℕ} (byte : UInt8) (h : place < record.length) :
    setByte record place byte = .ok (record.set place byte) := if_pos h

/-- An index after one whose sector lies inside the record does not overflow. -/
theorem mul_lt_of_before {index bytesPerSector length : ℕ} (hlength : length < 2 ^ 63)
    (hbound : bytesPerSector < 2 ^ 64)
    (hbefore : index = 1 ∨ 2 ≤ index ∧ (index - 1) * bytesPerSector ≤ length) :
    index * bytesPerSector < 2 ^ 64 := by
  rcases hbefore with rfl | ⟨hindex, hle⟩
  · omega
  · have hself : bytesPerSector ≤ (index - 1) * bytesPerSector :=
      Nat.le_mul_of_pos_left _ (by omega)
    have hsplit : index * bytesPerSector = (index - 1) * bytesPerSector + bytesPerSector := by
      obtain ⟨previous, rfl⟩ : ∃ previous, index = previous + 1 := ⟨index - 1, by omega⟩
      rw [Nat.add_sub_cancel, Nat.succ_mul]
    omega

theorem fixupSectors_eq {bytesPerSector usaOffset start count : ℕ} {usn record : List UInt8}
    (hlength : record.length < 2 ^ 63) (hsector : 2 ≤ bytesPerSector)
    (hbound : bytesPerSector < 2 ^ 64)
    (harray : usaOffset + (start + count) * 2 ≤ record.length) (hstart : 1 ≤ start)
    (hbefore : start = 1 ∨ 2 ≤ start ∧ (start - 1) * bytesPerSector ≤ record.length) :
    fixupSectors bytesPerSector usaOffset usn (List.range' start count) record =
      .ok (restoreSectors bytesPerSector usaOffset usn (List.range' start count) record) := by
  induction count generalizing start record with
  | zero => rfl
  | succ count ih =>
      have hproduct := mul_lt_of_before hlength hbound hbefore
      have htwo : 2 ≤ start * bytesPerSector := hsector.trans (Nat.le_mul_of_pos_left _ hstart)
      rw [List.range'_succ, fixupSectors, restoreSectors, usizeMul_eq hproduct, Parse.ok_bind,
        fixupSector]
      by_cases hoverrun : start * bytesPerSector > record.length
      · simp only [if_pos hoverrun]
        rfl
      · have hwidth : start * bytesPerSector - (start * bytesPerSector - 2) = 2 := by omega
        rw [if_neg hoverrun, if_neg hoverrun, usizeSub_eq htwo, Parse.ok_bind,
          slice_eq (by omega) (by omega), Parse.ok_bind, hwidth]
        by_cases htorn : (record.drop (start * bytesPerSector - 2)).take 2 ≠ usn
        · rw [if_pos htorn, if_pos htorn]
          rfl
        · rw [if_neg htorn, if_neg htorn, usizeMul_eq (by omega), Parse.ok_bind,
            usizeAdd_eq (by omega), Parse.ok_bind, indexByte_eq (by omega), Parse.ok_bind,
            usizeAdd_eq (by omega), Parse.ok_bind, indexByte_eq (by omega), Parse.ok_bind,
            setByte_eq _ (by omega), Parse.ok_bind, usizeSub_eq (by omega), Parse.ok_bind,
            setByte_eq _ (by rw [List.length_set]; omega), Parse.ok_bind]
          exact ih (by simpa using hlength) (by simpa [Nat.add_assoc, Nat.add_comm 1] using harray)
            (by omega) (Or.inr ⟨by omega, by simpa using not_lt.mp hoverrun⟩)

/-- No index lies outside the record, whatever the record says. -/
theorem applyRecordFixups_eq (record : Slice) (bytesPerSector : UInt64) :
    applyRecordFixups record bytesPerSector =
      .ok (restoreRecord bytesPerSector.toNat record.bytes) := by
  have hlength := record.length_lt
  unfold applyRecordFixups restoreRecord
  by_cases hshort : record.bytes.length < 8 ∨ bytesPerSector.toNat < 2
  · rw [if_pos hshort, if_pos hshort]
    rfl
  · have hoffset := (u16At record.bytes 4).toNat_lt
    have hcount := (u16At record.bytes 6).toNat_lt
    have hread4 : leU16 record.bytes 4 = .ok (u16At record.bytes 4) := if_pos (by omega)
    have hread6 : leU16 record.bytes 6 = .ok (u16At record.bytes 6) := if_pos (by omega)
    rw [if_neg hshort, if_neg hshort, hread4, Parse.ok_bind, hread6, Parse.ok_bind]
    dsimp only
    by_cases hfew : (u16At record.bytes 6).toNat < 2
    · rw [if_pos hfew, if_pos (Or.inl hfew)]
      rfl
    · rw [if_neg hfew, usizeMul_eq (by omega), Parse.ok_bind, usizeAdd_eq (by omega), Parse.ok_bind]
      by_cases houtside : (u16At record.bytes 4).toNat + (u16At record.bytes 6).toNat * 2 >
          record.bytes.length
      · rw [if_pos houtside, if_pos (Or.inr houtside)]
        rfl
      · rw [if_neg houtside, if_neg (not_or.mpr ⟨hfew, houtside⟩), indexByte_eq (by omega),
          Parse.ok_bind, usizeAdd_eq (by omega), Parse.ok_bind, indexByte_eq (by omega),
          Parse.ok_bind]
        exact fixupSectors_eq hlength (by omega) bytesPerSector.toNat_lt (by omega) le_rfl (Or.inl rfl)

def fixupRecord (record : Slice) (bytesPerSector : UInt64) : Parse (List UInt8) :=
  if record.bytes.take 4 = fileRecordSignature then do
    let restored ← applyRecordFixups record bytesPerSector
    if restored.2 then pure restored.1 else pure (tornSignature ++ restored.1.drop 4)
  else pure record.bytes

/-- The records from `batch` on, each in its own slice. -/
def applyMftFixups (batch : Slice) (bytesPerSector : UInt64) : Parse (List UInt8) :=
  if ntfsRecordSize ≤ batch.bytes.length then do
    let record ← fixupRecord (batch.take ntfsRecordSize) bytesPerSector
    let rest ← applyMftFixups (batch.drop ntfsRecordSize) bytesPerSector
    pure (record ++ rest)
  else pure batch.bytes
termination_by batch.bytes.length
decreasing_by
  rw [Slice.drop, List.length_drop]
  have : 0 < ntfsRecordSize := by decide
  omega

theorem fixupRecord_eq (record : Slice) (bytesPerSector : UInt64) :
    fixupRecord record bytesPerSector = .ok (Ntfs.fixupRecord bytesPerSector.toNat record.bytes) := by
  unfold fixupRecord Ntfs.fixupRecord
  rw [applyRecordFixups_eq, Parse.ok_bind]
  split
  case isTrue => dsimp only; split <;> rfl
  case isFalse => rfl

theorem applyMftFixups_eq (batch : Slice) (bytesPerSector : UInt64) :
    applyMftFixups batch bytesPerSector =
      .ok (Ntfs.applyMftFixups bytesPerSector.toNat batch.bytes) := by
  induction hlength : batch.bytes.length using Nat.strong_induction_on generalizing batch with
  | h length ih =>
      rw [applyMftFixups, Ntfs.applyMftFixups]
      by_cases hwhole : ntfsRecordSize ≤ batch.bytes.length
      · have hless : (batch.drop ntfsRecordSize).bytes.length < length := by
          rw [Slice.drop, List.length_drop]
          have : 0 < ntfsRecordSize := by decide
          omega
        rw [if_pos hwhole, if_pos hwhole, fixupRecord_eq, Parse.ok_bind, ih _ hless _ rfl]
        rfl
      · rw [if_neg hwhole, if_neg hwhole]
        rfl

end Machine

/-! ## What the loop does to a record -/

/-- The last two bytes of a sector. -/
def sectorTail (bytesPerSector : ℕ) (record : List UInt8) (index : ℕ) : List UInt8 :=
  (record.drop (index * bytesPerSector - 2)).take 2

/-- A byte that lies in no tail of these sectors. -/
def OutsideTails (bytesPerSector : ℕ) (indices : List ℕ) (place : ℕ) : Prop :=
  ∀ index ∈ indices, place + 2 < index * bytesPerSector ∨ index * bytesPerSector ≤ place

theorem window_congr {record restored : List UInt8} {start count : ℕ}
    (h : ∀ place, start ≤ place → place < start + count → restored[place]? = record[place]?) :
    (restored.drop start).take count = (record.drop start).take count := by
  apply List.ext_getElem?
  intro i
  by_cases hi : i < count
  · rw [List.getElem?_take_of_lt hi, List.getElem?_take_of_lt hi, List.getElem?_drop,
      List.getElem?_drop]
    exact h (start + i) (by omega) (by omega)
  · rw [List.getElem?_take_eq_none (by omega), List.getElem?_take_eq_none (by omega)]

theorem window_two {record : List UInt8} {start : ℕ} (h : start + 2 ≤ record.length) :
    (record.drop start).take 2 = [u8At record start, u8At record (start + 1)] := by
  rw [List.drop_eq_getElem_cons (by omega), List.take_succ_cons, List.drop_eq_getElem_cons (by omega),
    List.take_succ_cons, List.take_zero, u8At, u8At, List.getD_eq_getElem _ _ (by omega),
    List.getD_eq_getElem _ _ (by omega)]

theorem u8At_set_self {record : List UInt8} {place : ℕ} (byte : UInt8) (h : place < record.length) :
    u8At (record.set place byte) place = byte := by
  rw [u8At, List.getD_eq_getElem?_getD, List.getElem?_set_self h]
  rfl

theorem u8At_set_ne {record : List UInt8} {place other : ℕ} (byte : UInt8) (h : other ≠ place) :
    u8At (record.set other byte) place = u8At record place := by
  rw [u8At, List.getD_eq_getElem?_getD, List.getElem?_set_ne h, u8At, List.getD_eq_getElem?_getD]

section Loop

variable {bytesPerSector usaOffset : ℕ} {usn record restored : List UInt8} {index : ℕ}

/-- Two sectors' tails do not overlap. -/
theorem tails_apart {other : ℕ} (hsector : 2 ≤ bytesPerSector) (hne : index ≠ other) {place : ℕ}
    (hstart : other * bytesPerSector - 2 ≤ place) (hplace : place < other * bytesPerSector - 2 + 2)
    (hother : 1 ≤ other) : place + 2 < index * bytesPerSector ∨ index * bytesPerSector ≤ place := by
  have htwo : 2 ≤ other * bytesPerSector := hsector.trans (Nat.le_mul_of_pos_left _ hother)
  rcases Nat.lt_or_gt_of_ne hne with hlt | hlt
  · have hle : (index + 1) * bytesPerSector ≤ other * bytesPerSector :=
      Nat.mul_le_mul_right _ hlt
    rw [Nat.succ_mul] at hle
    omega
  · have hle : (other + 1) * bytesPerSector ≤ index * bytesPerSector :=
      Nat.mul_le_mul_right _ hlt
    rw [Nat.succ_mul] at hle
    omega

theorem fixupSector_eq_some_iff :
    fixupSector bytesPerSector usaOffset usn record index = some restored ↔
      index * bytesPerSector ≤ record.length ∧ sectorTail bytesPerSector record index = usn ∧
        restored = (record.set (index * bytesPerSector - 2) (u8At record (usaOffset + index * 2))).set
          (index * bytesPerSector - 1) (u8At record (usaOffset + index * 2 + 1)) := by
  unfold fixupSector sectorTail
  dsimp only
  split
  case isTrue h => simp only [reduceCtorEq, false_iff, not_and]; omega
  case isFalse h =>
    split
    case isTrue htorn => simp only [reduceCtorEq, false_iff, not_and]; exact fun _ heq ↦ (htorn heq).elim
    case isFalse hsame =>
      rw [Option.some.injEq, eq_comm]
      exact ⟨fun heq ↦ ⟨by omega, not_not.mp hsame, heq⟩, fun heq ↦ heq.2.2⟩

theorem getElem?_fixupSector {place : ℕ}
    (h : fixupSector bytesPerSector usaOffset usn record index = some restored)
    (hplace : place + 2 < index * bytesPerSector ∨ index * bytesPerSector ≤ place)
    (htwo : 2 ≤ index * bytesPerSector) : restored[place]? = record[place]? := by
  obtain ⟨-, -, rfl⟩ := fixupSector_eq_some_iff.mp h
  rw [List.getElem?_set_ne (by omega), List.getElem?_set_ne (by omega)]

theorem sectorTail_fixupSector
    (h : fixupSector bytesPerSector usaOffset usn record index = some restored)
    (htwo : 2 ≤ index * bytesPerSector) :
    sectorTail bytesPerSector restored index =
      [u8At record (usaOffset + index * 2), u8At record (usaOffset + index * 2 + 1)] := by
  obtain ⟨hle, -, rfl⟩ := fixupSector_eq_some_iff.mp h
  have hlast : index * bytesPerSector - 1 = index * bytesPerSector - 2 + 1 := by omega
  rw [sectorTail, window_two (by simp only [List.length_set]; omega), hlast,
    u8At_set_ne _ (by omega), u8At_set_self _ (by omega),
    u8At_set_self _ (by rw [List.length_set]; omega)]

/-- A restored sector leaves every other tail as it was. -/
theorem sectorTail_fixupSector_of_ne {other : ℕ} (hsector : 2 ≤ bytesPerSector)
    (h : fixupSector bytesPerSector usaOffset usn record index = some restored)
    (hindex : 1 ≤ index) (hother : 1 ≤ other) (hne : index ≠ other) :
    sectorTail bytesPerSector restored other = sectorTail bytesPerSector record other :=
  window_congr fun _ hstart hstop ↦ getElem?_fixupSector h
    (tails_apart hsector hne hstart hstop hother) (hsector.trans (Nat.le_mul_of_pos_left _ hindex))

variable {indices : List ℕ}

theorem getElem?_restoreSectors {place : ℕ} (hsector : 2 ≤ bytesPerSector)
    (hpos : ∀ index ∈ indices, 1 ≤ index) (hplace : OutsideTails bytesPerSector indices place) :
    (restoreSectors bytesPerSector usaOffset usn indices record).1[place]? = record[place]? := by
  induction indices generalizing record with
  | nil => rfl
  | cons index rest ih =>
      rw [restoreSectors]
      obtain ⟨hindex, hrest⟩ := List.forall_mem_cons.mp hpos
      obtain ⟨hhead, hothers⟩ := List.forall_mem_cons.mp hplace
      split
      case h_1 restored hrestored =>
        rw [ih hrest hothers]
        exact getElem?_fixupSector hrestored hhead (hsector.trans (Nat.le_mul_of_pos_left _ hindex))
      case h_2 => rfl

/-- Every check sees the bytes the record had at the start. -/
theorem restoreSectors_snd_iff (hsector : 2 ≤ bytesPerSector) (hpos : ∀ index ∈ indices, 1 ≤ index)
    (hnodup : indices.Nodup) :
    (restoreSectors bytesPerSector usaOffset usn indices record).2 = true ↔
      ∀ index ∈ indices, index * bytesPerSector ≤ record.length ∧
        sectorTail bytesPerSector record index = usn := by
  induction indices generalizing record with
  | nil => simp [restoreSectors]
  | cons index rest ih =>
      obtain ⟨hindex, hrest⟩ := List.forall_mem_cons.mp hpos
      obtain ⟨hnot, hothers⟩ := List.nodup_cons.mp hnodup
      rw [restoreSectors, List.forall_mem_cons]
      cases hfixup : fixupSector bytesPerSector usaOffset usn record index with
      | none =>
          refine iff_of_false Bool.false_ne_true ?_
          rintro ⟨⟨hle, htail⟩, -⟩
          cases hfixup.symm.trans (fixupSector_eq_some_iff.mpr ⟨hle, htail, rfl⟩)
      | some restored =>
          obtain ⟨hle, htail, -⟩ := fixupSector_eq_some_iff.mp hfixup
          refine (ih hrest hothers).trans ?_
          rw [and_iff_right ⟨hle, htail⟩]
          refine forall₂_congr fun other hother ↦ ?_
          rw [length_fixupSector hfixup, sectorTail_fixupSector_of_ne hsector hfixup hindex
            (hrest other hother) (fun heq ↦ hnot (heq ▸ hother))]

/-- An array that no tail overlaps is read as it was at the start. -/
theorem sectorTail_restoreSectors {count : ℕ} (hsector : 2 ≤ bytesPerSector)
    (hpos : ∀ index ∈ indices, 1 ≤ index) (hnodup : indices.Nodup)
    (hcount : ∀ index ∈ indices, index < count) (harray : usaOffset + count * 2 ≤ record.length)
    (hapart : ∀ place, usaOffset ≤ place → place < usaOffset + count * 2 →
      OutsideTails bytesPerSector indices place)
    (haccepted : (restoreSectors bytesPerSector usaOffset usn indices record).2 = true) :
    ∀ index ∈ indices,
      sectorTail bytesPerSector (restoreSectors bytesPerSector usaOffset usn indices record).1 index =
        (record.drop (usaOffset + index * 2)).take 2 := by
  induction indices generalizing record with
  | nil => simp
  | cons index rest ih =>
      obtain ⟨hindex, hrest⟩ := List.forall_mem_cons.mp hpos
      obtain ⟨hnot, hothers⟩ := List.nodup_cons.mp hnodup
      obtain ⟨hlt, hcounts⟩ := List.forall_mem_cons.mp hcount
      have htwo : 2 ≤ index * bytesPerSector := hsector.trans (Nat.le_mul_of_pos_left _ hindex)
      rw [restoreSectors] at haccepted ⊢
      cases hfixup : fixupSector bytesPerSector usaOffset usn record index with
      | none =>
          rw [hfixup] at haccepted
          cases haccepted
      | some restored =>
          rw [hfixup] at haccepted
          have hlength := length_fixupSector hfixup
          have hunchanged : ∀ place, usaOffset ≤ place → place < usaOffset + count * 2 →
              restored[place]? = record[place]? := fun place hstart hstop ↦
            getElem?_fixupSector hfixup ((List.forall_mem_cons.mp (hapart place hstart hstop)).1) htwo
          have htails := ih hrest hothers hcounts (hlength.symm ▸ harray)
            (fun place hstart hstop ↦ (List.forall_mem_cons.mp (hapart place hstart hstop)).2)
            haccepted
          rw [List.forall_mem_cons]
          constructor
          · rw [window_two (by omega), ← sectorTail_fixupSector hfixup htwo]
            refine window_congr fun place hstart hstop ↦ getElem?_restoreSectors hsector hrest ?_
            intro other hother
            exact tails_apart hsector (fun heq : other = index ↦ hnot (heq ▸ hother)) hstart hstop hindex
          · intro other hother
            have hother' := hcounts other hother
            rw [htails other hother]
            exact window_congr fun place hstart hstop ↦ hunchanged place (by omega) (by omega)

end Loop

/-! ## Records -/

def usaOffset (record : List UInt8) : ℕ := (u16At record 4).toNat

def usaCount (record : List UInt8) : ℕ := (u16At record 6).toNat

/-- The update sequence number, at the start of the array. -/
def sequenceNumber (record : List UInt8) : List UInt8 := (record.drop (usaOffset record)).take 2

/-- The bytes the array holds for a sector. -/
def arrayValue (record : List UInt8) (index : ℕ) : List UInt8 :=
  (record.drop (usaOffset record + index * 2)).take 2

def coveredSectors (record : List UInt8) : List ℕ := List.range' 1 (usaCount record - 1)

/-- A record whose fixups can be applied. -/
structure Fixable (bytesPerSector : ℕ) (record : List UInt8) : Prop where
  header : 8 ≤ record.length
  sector : 2 ≤ bytesPerSector
  array : usaOffset record + usaCount record * 2 ≤ record.length
  covers : coveredSectors record ≠ []
  covered : (coveredSectors record).length * bytesPerSector ≤ record.length
  tails : ∀ index ∈ coveredSectors record,
    sectorTail bytesPerSector record index = sequenceNumber record

/-- No byte of the array lies in the tail of a covered sector. -/
def ArrayApart (bytesPerSector : ℕ) (record : List UInt8) : Prop :=
  ∀ place, usaOffset record ≤ place → place < usaOffset record + usaCount record * 2 →
    OutsideTails bytesPerSector (coveredSectors record) place

section Records

variable {bytesPerSector : ℕ} {record : List UInt8}

theorem mem_coveredSectors {index : ℕ} :
    index ∈ coveredSectors record ↔ 1 ≤ index ∧ index < usaCount record := by
  rw [coveredSectors, List.mem_range'_1]
  omega

theorem restoreRecord_eq (hheader : 8 ≤ record.length) (hsector : 2 ≤ bytesPerSector)
    (hcount : 2 ≤ usaCount record)
    (harray : usaOffset record + usaCount record * 2 ≤ record.length) :
    restoreRecord bytesPerSector record =
      restoreSectors bytesPerSector (usaOffset record) (sequenceNumber record)
        (coveredSectors record) record := by
  unfold restoreRecord
  rw [if_neg (by omega), sequenceNumber, window_two (by omega)]
  exact if_neg (not_or.mpr ⟨not_lt.mpr hcount, not_lt.mpr harray⟩)

/-- The array covers all sectors exactly when it covers the last one. -/
theorem covered_iff (hcount : 2 ≤ usaCount record) :
    (coveredSectors record).length * bytesPerSector ≤ record.length ↔
      ∀ index ∈ coveredSectors record, index * bytesPerSector ≤ record.length := by
  rw [coveredSectors, List.length_range']
  constructor
  · intro h index hindex
    have hle := (mem_coveredSectors.mp hindex).2
    exact (Nat.mul_le_mul_right bytesPerSector (by omega)).trans h
  · exact fun h ↦ h _ (mem_coveredSectors.mpr ⟨by omega, by omega⟩)

theorem restoreRecord_snd_iff :
    (restoreRecord bytesPerSector record).2 = true ↔ Fixable bytesPerSector record := by
  by_cases hready : 8 ≤ record.length ∧ 2 ≤ bytesPerSector ∧ 2 ≤ usaCount record ∧
      usaOffset record + usaCount record * 2 ≤ record.length
  · obtain ⟨hheader, hsector, hcount, harray⟩ := hready
    rw [restoreRecord_eq hheader hsector hcount harray, restoreSectors_snd_iff hsector
      (fun index hindex ↦ (mem_coveredSectors.mp hindex).1) List.nodup_range']
    constructor
    · intro h
      refine ⟨hheader, hsector, harray, ?_, (covered_iff hcount).mpr fun index hindex ↦
        (h index hindex).1, fun index hindex ↦ (h index hindex).2⟩
      exact List.ne_nil_of_mem (mem_coveredSectors.mpr ⟨le_rfl, hcount⟩)
    · exact fun h index hindex ↦
        ⟨(covered_iff hcount).mp h.covered index hindex, h.tails index hindex⟩
  · refine iff_of_false ?_ fun h ↦ hready ⟨h.header, h.sector, ?_, h.array⟩
    · unfold restoreRecord
      intro h
      split at h
      case isTrue => cases h
      case isFalse hheader =>
        dsimp only at h
        split at h
        case isTrue => cases h
        case isFalse harray =>
          exact hready ⟨by omega, by omega, by rw [usaCount]; omega, by
            rw [usaOffset, usaCount]
            omega⟩
    · obtain ⟨index, hindex⟩ := List.exists_mem_of_ne_nil _ h.covers
      have hbounds := mem_coveredSectors.mp hindex
      omega

theorem Fixable.restoreRecord_eq (h : Fixable bytesPerSector record) :
    restoreRecord bytesPerSector record =
      restoreSectors bytesPerSector (usaOffset record) (sequenceNumber record)
        (coveredSectors record) record := by
  obtain ⟨index, hindex⟩ := List.exists_mem_of_ne_nil _ h.covers
  have hbounds := mem_coveredSectors.mp hindex
  exact Ntfs.restoreRecord_eq h.header h.sector (by omega) h.array

theorem pos_of_mem_coveredSectors : ∀ index ∈ coveredSectors record, 1 ≤ index :=
  fun _ hindex ↦ (mem_coveredSectors.mp hindex).1

/-- A byte outside the tails of the covered sectors is left as it was. -/
theorem Fixable.getElem?_eq {place : ℕ} (h : Fixable bytesPerSector record)
    (hplace : OutsideTails bytesPerSector (coveredSectors record) place) :
    (restoreRecord bytesPerSector record).1[place]? = record[place]? := by
  rw [h.restoreRecord_eq]
  exact getElem?_restoreSectors h.sector pos_of_mem_coveredSectors hplace

theorem Fixable.sectorTail_eq (h : Fixable bytesPerSector record)
    (hapart : ArrayApart bytesPerSector record) :
    ∀ index ∈ coveredSectors record,
      sectorTail bytesPerSector (restoreRecord bytesPerSector record).1 index =
        arrayValue record index := by
  have haccepted := restoreRecord_snd_iff.mpr h
  rw [h.restoreRecord_eq] at haccepted ⊢
  exact sectorTail_restoreSectors h.sector pos_of_mem_coveredSectors List.nodup_range'
    (fun _ hindex ↦ (mem_coveredSectors.mp hindex).2) h.array hapart haccepted

/-! ## Buffers of records -/

/-- A tail that covers the first byte ends the first sector, of two bytes. -/
theorem covers_zero (hsector : 2 ≤ bytesPerSector)
    (h : ¬OutsideTails bytesPerSector (coveredSectors record) 0) :
    bytesPerSector = 2 ∧ 1 ∈ coveredSectors record := by
  simp only [OutsideTails, not_forall, not_or, not_lt, not_le] at h
  obtain ⟨index, hindex, hend, hpos⟩ := h
  have hone := pos_of_mem_coveredSectors index hindex
  have hle : bytesPerSector ≤ index * bytesPerSector := Nat.le_mul_of_pos_left _ hone
  obtain rfl : bytesPerSector = 2 := by omega
  obtain rfl : index = 1 := by omega
  exact ⟨rfl, hindex⟩

theorem getElem?_of_take {bytes : List UInt8} {count i : ℕ} (h : record.take count = bytes)
    (hi : i < count) : record[i]? = bytes[i]? := by
  rw [← h, List.getElem?_take_of_lt hi]

/-- Applied fixups never spell the signature of a torn record. -/
theorem Fixable.take_ne_tornSignature (h : Fixable bytesPerSector record)
    (hfile : record.take 4 = fileRecordSignature) :
    (restoreRecord bytesPerSector record).1.take 4 ≠ tornSignature := by
  intro htorn
  -- the signatures differ in every byte, so tails would have to cover all four of them
  have hcovered : ∀ place < 4, fileRecordSignature[place]? ≠ tornSignature[place]? →
      ¬OutsideTails bytesPerSector (coveredSectors record) place := by
    intro place hplace hne houtside
    have heq := h.getElem?_eq houtside
    rw [getElem?_of_take htorn hplace, getElem?_of_take hfile hplace] at heq
    exact hne heq.symm
  obtain ⟨rfl, hfirst⟩ := covers_zero h.sector (hcovered 0 (by decide) (by decide))
  have hthird := hcovered 2 (by decide) (by decide)
  simp only [OutsideTails, not_forall, not_or, not_lt, not_le] at hthird
  obtain ⟨index, hindex, hend, hstart⟩ := hthird
  obtain rfl : index = 2 := by omega
  have htails := (h.tails 1 hfirst).trans (h.tails 2 hindex).symm
  have hlow : (sectorTail 2 record 1)[0]? = record[0]? := by
    rw [sectorTail, List.getElem?_take_of_lt (by decide), List.getElem?_drop]
  have hhigh : (sectorTail 2 record 2)[0]? = record[2]? := by
    rw [sectorTail, List.getElem?_take_of_lt (by decide), List.getElem?_drop]
  rw [htails, hhigh, getElem?_of_take hfile (by decide), getElem?_of_take hfile (by decide)] at hlow
  cases hlow

theorem fixupRecord_of_ne (h : record.take 4 ≠ fileRecordSignature) :
    fixupRecord bytesPerSector record = record := if_neg h

theorem Fixable.fixupRecord_eq (h : Fixable bytesPerSector record)
    (hfile : record.take 4 = fileRecordSignature) :
    fixupRecord bytesPerSector record = (restoreRecord bytesPerSector record).1 := by
  unfold fixupRecord
  rw [if_pos hfile]
  exact if_pos (restoreRecord_snd_iff.mpr h)

/-- Exactly the torn records lose their signature. -/
theorem take_fixupRecord_iff (hfile : record.take 4 = fileRecordSignature) :
    (fixupRecord bytesPerSector record).take 4 = tornSignature ↔ ¬Fixable bytesPerSector record := by
  constructor
  · intro htorn hfixable
    rw [hfixable.fixupRecord_eq hfile] at htorn
    exact hfixable.take_ne_tornSignature hfile htorn
  · intro hnot
    unfold fixupRecord
    rw [if_pos hfile]
    dsimp only
    rw [if_neg (mt restoreRecord_snd_iff.mp hnot)]
    rfl

variable {batch : List UInt8}

theorem block_applyMftFixups (bytesPerSector : ℕ) {i : ℕ} (hi : i < batch.length / ntfsRecordSize) :
    Blocks.block ntfsRecordSize (applyMftFixups bytesPerSector batch) i =
      fixupRecord bytesPerSector (Blocks.block ntfsRecordSize batch i) := by
  have hblocks := congrArg (fun blocks ↦ blocks[i]?) (blocks_applyMftFixups bytesPerSector batch)
  simpa [Blocks.blocks, length_applyMftFixups, hi] using hblocks

/-- Behind the last whole record nothing changes. -/
theorem drop_applyMftFixups :
    (applyMftFixups bytesPerSector batch).drop (batch.length / ntfsRecordSize * ntfsRecordSize) =
      batch.drop (batch.length / ntfsRecordSize * ntfsRecordSize) := by
  induction batch using applyMftFixups.induct with
  | case1 batch h ih =>
      have htake : (batch.take ntfsRecordSize).length = ntfsRecordSize := List.length_take_of_le h
      have hfixed : (fixupRecord bytesPerSector (batch.take ntfsRecordSize)).length =
          ntfsRecordSize := (length_fixupRecord _ _).trans htake
      have hcount : batch.length / ntfsRecordSize * ntfsRecordSize = ntfsRecordSize +
          (batch.drop ntfsRecordSize).length / ntfsRecordSize * ntfsRecordSize := by
        rw [List.length_drop]
        unfold ntfsRecordSize at h ⊢
        omega
      rw [applyMftFixups, if_pos h, hcount, ← List.drop_drop, ← List.drop_drop,
        List.drop_left' hfixed]
      exact ih
  | case2 batch h => rw [applyMftFixups, if_neg h]

end Records

/-- The fixups of one record, and of a buffer of records. -/
theorem fixups_iff (bytesPerSector : UInt64) :
    (∀ record : Slice, ∃ restored accepted,
      Machine.applyRecordFixups record bytesPerSector = .ok (restored, accepted) ∧
      (accepted = true ↔ Fixable bytesPerSector.toNat record.bytes) ∧
      (accepted = true → ArrayApart bytesPerSector.toNat record.bytes →
        restored.length = record.bytes.length ∧
        (∀ index ∈ coveredSectors record.bytes,
          sectorTail bytesPerSector.toNat restored index = arrayValue record.bytes index) ∧
        ∀ place, OutsideTails bytesPerSector.toNat (coveredSectors record.bytes) place →
          restored[place]? = record.bytes[place]?)) ∧
    ∀ batch : Slice, ∃ fixed, Machine.applyMftFixups batch bytesPerSector = .ok fixed ∧
      fixed.length = batch.bytes.length ∧
      (∀ i < batch.bytes.length / ntfsRecordSize, ∀ record : Slice,
        record.bytes = Blocks.block ntfsRecordSize batch.bytes i →
          Machine.fixupRecord record bytesPerSector = .ok (Blocks.block ntfsRecordSize fixed i) ∧
          (record.bytes.take 4 = fileRecordSignature →
            ((Blocks.block ntfsRecordSize fixed i).take 4 = tornSignature ↔
              ¬Fixable bytesPerSector.toNat record.bytes) ∧
            (Fixable bytesPerSector.toNat record.bytes →
              Machine.applyRecordFixups record bytesPerSector =
                .ok (Blocks.block ntfsRecordSize fixed i, true))) ∧
          (record.bytes.take 4 ≠ fileRecordSignature →
            Blocks.block ntfsRecordSize fixed i = record.bytes)) ∧
      fixed.drop (batch.bytes.length / ntfsRecordSize * ntfsRecordSize) =
        batch.bytes.drop (batch.bytes.length / ntfsRecordSize * ntfsRecordSize) := by
  constructor
  · intro record
    refine ⟨_, _, Machine.applyRecordFixups_eq record bytesPerSector, restoreRecord_snd_iff, ?_⟩
    intro haccepted hapart
    have hfixable := restoreRecord_snd_iff.mp haccepted
    exact ⟨length_restoreRecord _ _, hfixable.sectorTail_eq hapart,
      fun place hplace ↦ hfixable.getElem?_eq hplace⟩
  · intro batch
    refine ⟨_, Machine.applyMftFixups_eq batch bytesPerSector, length_applyMftFixups _ _, ?_,
      drop_applyMftFixups⟩
    intro i hi record hrecord
    have hblock := block_applyMftFixups bytesPerSector.toNat hi
    rw [← hrecord] at hblock
    refine ⟨by rw [Machine.fixupRecord_eq, hblock], fun hfile ↦ ⟨?_, fun hfixable ↦ ?_⟩, fun hne ↦ ?_⟩
    · rw [hblock]
      exact take_fixupRecord_iff hfile
    · rw [Machine.applyRecordFixups_eq, hblock, hfixable.fixupRecord_eq hfile]
      exact congrArg _ (Prod.ext rfl (restoreRecord_snd_iff.mpr hfixable))
    · rw [hblock]
      exact fixupRecord_of_ne hne

end Ntfs

end WinBlaze
