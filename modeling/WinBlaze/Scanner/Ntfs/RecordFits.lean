import WinBlaze.Scanner.Ntfs.Record

/-!
# Records whose attributes fit

The attribute walk reads a few bytes behind each attribute header without
asking whether the record still has them. `RecordFits` says, from the bytes
alone, that every attribute the walk comes to does have them.
-/

namespace WinBlaze

namespace Ntfs

variable {record : List UInt8} {cursor : ℕ}

/-! ## Attributes by their bytes -/

def typeAt (record : List UInt8) (cursor : ℕ) : UInt32 := u32At record cursor

def lengthAt (record : List UInt8) (cursor : ℕ) : ℕ := (u32At record (cursor + 4)).toNat

def nonResidentAt (record : List UInt8) (cursor : ℕ) : UInt8 := u8At record (cursor + 8)

def nameLengthAt (record : List UInt8) (cursor : ℕ) : UInt8 := u8At record (cursor + 9)

/-- A header from which the chain of attributes goes on. -/
def HeaderAt (record : List UInt8) (cursor : ℕ) : Prop :=
  cursor + 8 ≤ record.length ∧ typeAt record cursor ≠ .ofNat (2 ^ 32 - 1) ∧
    lengthAt record cursor ≠ 0 ∧ cursor + lengthAt record cursor ≤ record.length

instance instDecidableHeaderAt (record : List UInt8) (cursor : ℕ) :
    Decidable (HeaderAt record cursor) :=
  inferInstanceAs (Decidable (_ ∧ _))

/-- The offsets of the attributes, following their lengths alone. -/
def attributeOffsets (record : List UInt8) (cursor : ℕ) : List ℕ :=
  if _h : HeaderAt record cursor then
    cursor :: attributeOffsets record (cursor + lengthAt record cursor)
  else []
termination_by record.length - cursor
decreasing_by
  obtain ⟨hcursor, -, hlength, -⟩ := _h
  omega

def IsFileName (record : List UInt8) (cursor : ℕ) : Prop :=
  typeAt record cursor = attributeFileName ∧ nonResidentAt record cursor = 0

def IsResidentData (record : List UInt8) (cursor : ℕ) : Prop :=
  typeAt record cursor = attributeData ∧ nonResidentAt record cursor = 0 ∧
    nameLengthAt record cursor = 0

def IsNonResidentData (record : List UInt8) (cursor : ℕ) : Prop :=
  typeAt record cursor = attributeData ∧ nonResidentAt record cursor ≠ 0 ∧
    nameLengthAt record cursor = 0

instance instDecidableIsFileName (record : List UInt8) (cursor : ℕ) :
    Decidable (IsFileName record cursor) :=
  inferInstanceAs (Decidable (_ ∧ _))

instance instDecidableIsResidentData (record : List UInt8) (cursor : ℕ) :
    Decidable (IsResidentData record cursor) :=
  inferInstanceAs (Decidable (_ ∧ _))

instance instDecidableIsNonResidentData (record : List UInt8) (cursor : ℕ) :
    Decidable (IsNonResidentData record cursor) :=
  inferInstanceAs (Decidable (_ ∧ _))

/-- The bytes the walk reads at this attribute lie inside the record. -/
def AttributeFits (record : List UInt8) (cursor : ℕ) : Prop :=
  cursor + 10 ≤ record.length ∧
    (IsFileName record cursor → cursor + 22 ≤ record.length) ∧
      (IsResidentData record cursor → cursor + 20 ≤ record.length) ∧
        (IsNonResidentData record cursor → cursor + 24 ≤ record.length ∧
          (u64At record (cursor + 16) = 0 → cursor + 56 ≤ record.length))

instance instDecidableAttributeFits (record : List UInt8) (cursor : ℕ) :
    Decidable (AttributeFits record cursor) :=
  inferInstanceAs (Decidable (_ ∧ _))

/-- The value of a resident file name that ends inside the record. -/
def fileNameValue (record : List UInt8) (cursor : ℕ) : Option (List UInt8) :=
  let valueOffset := (u16At record (cursor + 20)).toNat
  let valueLength := (u32At record (cursor + 16)).toNat
  if IsFileName record cursor ∧ cursor + valueOffset + valueLength ≤ record.length then
    some ((record.drop (cursor + valueOffset)).take valueLength)
  else none

def malformedNameAt (record : List UInt8) (cursor : ℕ) : Bool :=
  (fileNameValue record cursor).any (fun value ↦ !(parseFileName value).isOk)

def readableNameAt (record : List UInt8) (cursor : ℕ) : Bool :=
  (fileNameValue record cursor).any (fun value ↦ (parseFileName value).isOk)

def longNameAt (record : List UInt8) (cursor : ℕ) : Bool :=
  (fileNameValue record cursor).any
    (fun value ↦ (parseFileName value).toOption.any (fun name ↦ name.namespaceRank = 2))

/-- Size and allocation given by an unnamed data attribute. -/
def sizesAt (record : List UInt8) (cursor : ℕ) : Option (UInt64 × UInt64) :=
  if IsResidentData record cursor then
    some ((u32At record (cursor + 16)).toUInt64, (u32At record (cursor + 16)).toUInt64)
  else if IsNonResidentData record cursor ∧ u64At record (cursor + 16) = 0 then
    some (u64At record (cursor + 48), u64At record (cursor + 40))
  else none

/-! ## The attributes the walk comes to -/

/-- The sizes given by the last of the attributes at these offsets to give any. -/
def sizesOf (record : List UInt8) (offsets : List ℕ) : UInt64 × UInt64 :=
  (offsets.filterMap (sizesAt record)).getLast?.getD (0, 0)

def baseRecordOf (record : List UInt8) : UInt64 := u64At record 0x20 &&& referenceMask

def isDirectoryRecord (record : List UInt8) : Bool :=
  u16At record 0x16 &&& fileRecordFlagDirectory ≠ 0

def firstAttrOffsetOf (record : List UInt8) : ℕ := (u16At record 0x14).toNat

/-- The walk ends with the last of the attributes at these offsets: one of
them has a malformed name, or a base record has its long name and sizes. -/
def endsWalk (record : List UInt8) (offsets : List ℕ) : Bool :=
  offsets.any (malformedNameAt record) ||
    (baseRecordOf record = 0 && offsets.any (longNameAt record) &&
      (isDirectoryRecord record || (sizesOf record offsets).1 ≠ 0 ||
        (sizesOf record offsets).2 ≠ 0))

/-- Every attribute the walk comes to fits, when it has passed those at the
`earlier` offsets. -/
def FitsAfter (record : List UInt8) : List ℕ → List ℕ → Prop
  | _, [] => True
  | earlier, cursor :: rest => AttributeFits record cursor ∧
      (endsWalk record (earlier ++ [cursor]) = true ∨ FitsAfter record (earlier ++ [cursor]) rest)

/-- The offsets of the attributes the walk comes to, with the `earlier` ones. -/
def walkedAfter (record : List UInt8) : List ℕ → List ℕ → List ℕ
  | earlier, [] => earlier
  | earlier, cursor :: rest =>
      if endsWalk record (earlier ++ [cursor]) then earlier ++ [cursor]
      else walkedAfter record (earlier ++ [cursor]) rest

def walkedOffsets (record : List UInt8) : List ℕ :=
  walkedAfter record [] (attributeOffsets record (firstAttrOffsetOf record))

/-- A record of a file in use. -/
def LiveRecord (record : List UInt8) : Prop :=
  record.take 4 = fileRecordSignature ∧ u16At record 0x16 &&& fileRecordFlagInUse ≠ 0

def RecordFits (record : List UInt8) : Prop :=
  FitsAfter record [] (attributeOffsets record (firstAttrOffsetOf record))

/-- The attributes the walk comes to hold nothing to report: a malformed name, in
a base record no name, in an extension record no size. -/
def HoldsNothing (record : List UInt8) : Prop :=
  (walkedOffsets record).any (malformedNameAt record) = true ∨
    (baseRecordOf record = 0 ∧ (walkedOffsets record).any (readableNameAt record) = false) ∨
      (baseRecordOf record ≠ 0 ∧ sizesOf record (walkedOffsets record) = (0, 0))

/-! ## Well-formed records -/

/-- The offset at which the chain of attributes ends. -/
def attributesEnd (record : List UInt8) (cursor : ℕ) : ℕ :=
  if _h : HeaderAt record cursor then attributesEnd record (cursor + lengthAt record cursor)
  else cursor
termination_by record.length - cursor
decreasing_by
  obtain ⟨hcursor, -, hlength, -⟩ := _h
  omega

def EndMarkerAt (record : List UInt8) (cursor : ℕ) : Prop :=
  cursor + 4 ≤ record.length ∧ typeAt record cursor = .ofNat (2 ^ 32 - 1)

/-- The length of the attribute covers its header and, if it is resident, its value. -/
def WholeAttribute (record : List UInt8) (cursor : ℕ) : Prop :=
  if nonResidentAt record cursor = 0 then
    24 ≤ lengthAt record cursor ∧
      (u16At record (cursor + 20)).toNat + (u32At record (cursor + 16)).toNat ≤ lengthAt record cursor
  else 56 ≤ lengthAt record cursor

/-- Whole attributes, names that parse, and the end marker behind them. -/
def WellFormed (record : List UInt8) : Prop :=
  (∀ cursor ∈ attributeOffsets record (firstAttrOffsetOf record),
    WholeAttribute record cursor ∧ malformedNameAt record cursor = false) ∧
  EndMarkerAt record (attributesEnd record (firstAttrOffsetOf record))

/-- No signature, an attribute header or value that is cut off, by the end of the
record or by its own length, or a name that does not parse. -/
def MalformedRecord (record : List UInt8) : Prop :=
  record.take 4 ≠ fileRecordSignature ∨ ¬ WellFormed record

theorem headerAt_of_mem {offset : ℕ} (h : offset ∈ attributeOffsets record cursor) :
    HeaderAt record offset := by
  induction cursor using attributeOffsets.induct record with
  | case1 cursor hheader ih =>
      rw [attributeOffsets, dif_pos hheader] at h
      rcases List.mem_cons.mp h with rfl | h
      · exact hheader
      · exact ih h
  | case2 cursor hheader =>
      rw [attributeOffsets, dif_neg hheader] at h
      cases h

theorem WholeAttribute.fits (h : WholeAttribute record cursor) (hheader : HeaderAt record cursor) :
    AttributeFits record cursor := by
  obtain ⟨-, -, -, hend⟩ := hheader
  unfold WholeAttribute at h
  split at h
  case isTrue hresident =>
    obtain ⟨hlength, -⟩ := h
    exact ⟨by omega, fun _ ↦ by omega, fun _ ↦ by omega, fun hdata ↦ (hdata.2.1 hresident).elim⟩
  case isFalse hnonResident =>
    refine ⟨by omega, fun hname ↦ (hnonResident hname.2).elim, fun hdata ↦ ?_, fun _ ↦ ?_⟩
    · exact (hnonResident hdata.2.1).elim
    · exact ⟨by omega, fun _ ↦ by omega⟩

theorem fitsAfter_of_forall {offsets : List ℕ} (h : ∀ cursor ∈ offsets, AttributeFits record cursor)
    (earlier : List ℕ) : FitsAfter record earlier offsets := by
  induction offsets generalizing earlier with
  | nil => trivial
  | cons cursor rest ih =>
      exact ⟨h cursor List.mem_cons_self,
        Or.inr (ih (fun offset hoffset ↦ h offset (List.mem_cons_of_mem _ hoffset)) _)⟩

theorem WellFormed.recordFits (h : WellFormed record) : RecordFits record :=
  fitsAfter_of_forall (fun cursor hcursor ↦ (h.1 cursor hcursor).1.fits (headerAt_of_mem hcursor)) []

/-! ## Reads inside and outside the record -/

theorem unchecked_of_le {α : Type} {width offset : ℕ} {value : List UInt8 → ℕ → α}
    {bytes : List UInt8} (h : offset + width ≤ bytes.length) :
    unchecked width value bytes offset = .ok (value bytes offset) := if_pos h

theorem unchecked_of_lt {α : Type} {width offset : ℕ} {value : List UInt8 → ℕ → α}
    {bytes : List UInt8} (h : bytes.length < offset + width) :
    unchecked width value bytes offset = .error .panic := if_neg (Nat.not_le.mpr h)

theorem checked_of_le {α : Type} {width offset : ℕ} {value : List UInt8 → ℕ → α} {message : String}
    {bytes : List UInt8} (h : offset + width ≤ bytes.length) :
    checked width value message bytes offset = .ok (value bytes offset) :=
  if_neg (Nat.not_lt.mpr h)

theorem checked_of_lt {α : Type} {width offset : ℕ} {value : List UInt8 → ℕ → α} {message : String}
    {bytes : List UInt8} (h : bytes.length < offset + width) :
    checked width value message bytes offset = invalidRecord message := if_pos h

/-- A name is refused with an error, never by reading past its end. -/
theorem parseFileName_ne_panic (bytes : List UInt8) : parseFileName bytes ≠ .error .panic := by
  unfold parseFileName
  split
  case isTrue => simp [invalidRecord]
  case isFalse hlength =>
    have hle : 66 ≤ bytes.length := Nat.not_lt.mp hlength
    simp only [leU64, leI64, indexByte]
    rw [unchecked_of_le (by omega), unchecked_of_le (by omega), unchecked_of_le (by omega),
      unchecked_of_le (by omega), unchecked_of_le (by omega), unchecked_of_le (by omega)]
    simp only [Parse.ok_bind]
    split
    case isTrue => simp [invalidRecord]
    case isFalse =>
      split
      case h_1 => simp [invalidRecord]
      case h_2 =>
        intro h
        cases h

/-! ## One attribute -/

/-- `readAttribute` on the header found at the cursor. -/
def readAttributeAt (record : List UInt8) (cursor : ℕ) (state : AttributeState) :
    Parse (Option AttributeState) :=
  readAttribute record cursor (typeAt record cursor) (nonResidentAt record cursor)
    (nameLengthAt record cursor) state

/-- The state holds what the attributes at these offsets give. -/
structure Tracks (record : List UInt8) (offsets : List ℕ) (state : AttributeState) : Prop where
  name : state.fileName.isSome = offsets.any (readableNameAt record)
  longName : state.hasLongName = offsets.any (longNameAt record)
  sizes : (state.sizeBytes, state.allocationBytes) = sizesOf record offsets

theorem tracks_nil (record : List UInt8) : Tracks record [] {} := ⟨rfl, rfl, rfl⟩

theorem namespaceRank_le (name : FileNameAttribute) : name.namespaceRank ≤ 2 := by
  unfold FileNameAttribute.namespaceRank
  split_ifs <;> omega

theorem hasLongName_keepName (state : AttributeState) (name : FileNameAttribute) :
    (state.keepName name).hasLongName = (state.hasLongName || name.namespaceRank = 2) := by
  unfold AttributeState.keepName AttributeState.hasLongName
  have hle := namespaceRank_le name
  cases hname : state.fileName with
  | none => simp
  | some current =>
      have hle' := namespaceRank_le current
      by_cases hrank : current.namespaceRank ≤ name.namespaceRank
      · have h : current.namespaceRank = 2 → name.namespaceRank = 2 := by omega
        simp [hrank]
        tauto
      · have h : name.namespaceRank ≠ 2 := by omega
        simp [hrank, hname, h]

theorem isSome_keepName (state : AttributeState) (name : FileNameAttribute) :
    (state.keepName name).fileName.isSome = true := by
  unfold AttributeState.keepName
  split
  case isTrue => rfl
  case isFalse hrank =>
    cases hname : state.fileName with
    | none => simp [hname] at hrank
    | some current => rfl

theorem keepName_sizes (state : AttributeState) (name : FileNameAttribute) :
    ((state.keepName name).sizeBytes, (state.keepName name).allocationBytes) =
      (state.sizeBytes, state.allocationBytes) := by
  unfold AttributeState.keepName
  split <;> rfl

theorem sizesOf_append (record : List UInt8) (offsets : List ℕ) (cursor : ℕ) :
    sizesOf record (offsets ++ [cursor]) =
      (sizesAt record cursor).getD (sizesOf record offsets) := by
  unfold sizesOf
  rw [List.filterMap_append]
  cases h : sizesAt record cursor <;> simp [h]

/-- What reading a fitting attribute does to the state: give the record up on
a malformed name, otherwise add the name and the sizes. -/
structure Adds (record : List UInt8) (cursor : ℕ) (state next : AttributeState) : Prop where
  name : next.fileName.isSome = (state.fileName.isSome || readableNameAt record cursor)
  longName : next.hasLongName = (state.hasLongName || longNameAt record cursor)
  sizes : (next.sizeBytes, next.allocationBytes) =
    (sizesAt record cursor).getD (state.sizeBytes, state.allocationBytes)

theorem Tracks.append {offsets : List ℕ} {state next : AttributeState}
    (h : Tracks record offsets state) (hadds : Adds record cursor state next) :
    Tracks record (offsets ++ [cursor]) next := by
  refine ⟨?_, ?_, ?_⟩
  · rw [hadds.name, h.name]
    simp
  · rw [hadds.longName, h.longName]
    simp
  · rw [hadds.sizes, h.sizes, sizesOf_append]

/-- An attribute that is neither a file name nor unnamed data adds nothing. -/
theorem adds_of_plain (state next : AttributeState) (hname : ¬ IsFileName record cursor)
    (hresident : ¬ IsResidentData record cursor) (hnonResident : ¬ IsNonResidentData record cursor)
    (hfileName : next.fileName = state.fileName)
    (hsizes : (next.sizeBytes, next.allocationBytes) = (state.sizeBytes, state.allocationBytes)) :
    malformedNameAt record cursor = false ∧ Adds record cursor state next := by
  have hvalue : fileNameValue record cursor = none := if_neg fun h ↦ hname h.1
  have hnone : sizesAt record cursor = none := by
    unfold sizesAt
    rw [if_neg hresident, if_neg fun h ↦ hnonResident h.1]
  refine ⟨by simp [malformedNameAt, hvalue], ?_, ?_, ?_⟩
  · simp [readableNameAt, hvalue, hfileName]
  · simp [longNameAt, hvalue, AttributeState.hasLongName, hfileName]
  · rw [hnone, Option.getD_none, hsizes]

/-- The outcome of reading the attribute agrees with its bytes. -/
def ReadsAs (record : List UInt8) (cursor : ℕ) (state : AttributeState)
    (read : Parse (Option AttributeState)) : Prop :=
  (malformedNameAt record cursor = true ∧ read = .ok none) ∨
    (malformedNameAt record cursor = false ∧
      ∃ next, read = .ok (some next) ∧ Adds record cursor state next)

theorem attributeList_ne_attributeFileName : attributeList ≠ attributeFileName := by decide

theorem attributeList_ne_attributeData : attributeList ≠ attributeData := by decide

theorem attributeFileName_ne_attributeData : attributeFileName ≠ attributeData := by decide

/-! ### A file name -/

theorem readAttributeAt_fileName (hname : IsFileName record cursor) (state : AttributeState)
    (hfits : cursor + 22 ≤ record.length) :
    ReadsAs record cursor state (readAttributeAt record cursor state) := by
  have hresident : ¬ IsResidentData record cursor := fun h ↦
    attributeFileName_ne_attributeData (hname.1.symm.trans h.1)
  have hnonResident : ¬ IsNonResidentData record cursor := fun h ↦
    attributeFileName_ne_attributeData (hname.1.symm.trans h.1)
  have hlist : typeAt record cursor ≠ attributeList := fun h ↦
    attributeList_ne_attributeFileName (h.symm.trans hname.1)
  have hsizes : sizesAt record cursor = none := by
    unfold sizesAt
    rw [if_neg hresident, if_neg fun h ↦ hnonResident h.1]
  unfold readAttributeAt readAttribute
  rw [if_neg hlist, if_pos ⟨hname.1, hname.2⟩]
  simp only [readU16, readU32]
  rw [checked_of_le (by omega), checked_of_le (by omega)]
  simp only [Parse.ok_bind]
  by_cases hvalue : cursor + (u16At record (cursor + 20)).toNat +
      (u32At record (cursor + 16)).toNat ≤ record.length
  · have hfile : fileNameValue record cursor = some ((record.drop (cursor +
        (u16At record (cursor + 20)).toNat)).take (u32At record (cursor + 16)).toNat) :=
      if_pos ⟨hname, hvalue⟩
    rw [if_pos hvalue]
    cases hparse : parseFileName ((record.drop (cursor + (u16At record (cursor + 20)).toNat)).take
        (u32At record (cursor + 16)).toNat) with
    | error failure =>
        cases failure with
        | panic => exact (parseFileName_ne_panic _ hparse).elim
        | error error =>
            left
            exact ⟨by simp [malformedNameAt, hfile, hparse, Except.isOk, Except.toBool], rfl⟩
    | ok name =>
        right
        refine ⟨by simp [malformedNameAt, hfile, hparse, Except.isOk, Except.toBool],
          state.keepName name, rfl, ?_, ?_, ?_⟩
        · simp [readableNameAt, hfile, hparse, Except.isOk, Except.toBool, isSome_keepName]
        · rw [hasLongName_keepName]
          simp [longNameAt, hfile, hparse, Except.toOption]
        · rw [keepName_sizes, hsizes, Option.getD_none]
  · have hfile : fileNameValue record cursor = none := if_neg fun h ↦ hvalue h.2
    rw [if_neg hvalue]
    right
    refine ⟨by simp [malformedNameAt, hfile], state, rfl, ?_, ?_, ?_⟩
    · simp [readableNameAt, hfile]
    · simp [longNameAt, hfile]
    · rw [hsizes, Option.getD_none]

theorem readAttributeAt_fileName_fails (hname : IsFileName record cursor) (state : AttributeState)
    (hfits : record.length < cursor + 22) :
    readAttributeAt record cursor state = invalidRecord "u16 out of bounds" := by
  have hlist : typeAt record cursor ≠ attributeList := fun h ↦
    attributeList_ne_attributeFileName (h.symm.trans hname.1)
  unfold readAttributeAt readAttribute
  rw [if_neg hlist, if_pos ⟨hname.1, hname.2⟩]
  simp only [readU16]
  rw [checked_of_lt (by omega)]
  rfl

/-! ### Unnamed data -/

theorem not_isFileName_of_data (h : typeAt record cursor = attributeData) :
    ¬ IsFileName record cursor := fun hname ↦
  attributeFileName_ne_attributeData (hname.1.symm.trans h)

/-- A data attribute has no name to add. -/
theorem adds_of_data (state next : AttributeState) (htype : typeAt record cursor = attributeData)
    (hfileName : next.fileName = state.fileName)
    (hsizes : (next.sizeBytes, next.allocationBytes) =
      (sizesAt record cursor).getD (state.sizeBytes, state.allocationBytes)) :
    malformedNameAt record cursor = false ∧ Adds record cursor state next := by
  have hvalue : fileNameValue record cursor = none :=
    if_neg fun h ↦ not_isFileName_of_data htype h.1
  refine ⟨by simp [malformedNameAt, hvalue], ?_, ?_, hsizes⟩
  · simp [readableNameAt, hvalue, hfileName]
  · simp [longNameAt, hvalue, AttributeState.hasLongName, hfileName]

theorem readAttributeAt_residentData (hdata : IsResidentData record cursor)
    (state : AttributeState) :
    readAttributeAt record cursor state =
      (readU32 record (cursor + 16) >>= fun size ↦ .ok (some { state with
        sizeBytes := size.toUInt64, allocationBytes := size.toUInt64 })) := by
  obtain ⟨htype, hresident, hname⟩ := hdata
  have hlist : typeAt record cursor ≠ attributeList := fun h ↦
    attributeList_ne_attributeData (h.symm.trans htype)
  have hfile : ¬ (typeAt record cursor = attributeFileName ∧ nonResidentAt record cursor = 0) :=
    not_isFileName_of_data htype
  unfold readAttributeAt readAttribute
  rw [if_neg hlist, if_neg hfile, if_pos ⟨htype, hresident, hname⟩]
  rfl

theorem readAttributeAt_nonResidentData (hdata : IsNonResidentData record cursor)
    (state : AttributeState) :
    readAttributeAt record cursor state =
      (readU64 record (cursor + 16) >>= fun startingVcn ↦
        if startingVcn = 0 then
          readU64 record (cursor + 40) >>= fun allocation ↦
            readU64 record (cursor + 48) >>= fun size ↦
              .ok (some { state with sizeBytes := size, allocationBytes := allocation })
        else .ok (some state)) := by
  obtain ⟨htype, hnonResident, hname⟩ := hdata
  have hlist : typeAt record cursor ≠ attributeList := fun h ↦
    attributeList_ne_attributeData (h.symm.trans htype)
  have hfile : ¬ (typeAt record cursor = attributeFileName ∧ nonResidentAt record cursor = 0) :=
    not_isFileName_of_data htype
  unfold readAttributeAt readAttribute
  rw [if_neg hlist, if_neg hfile, if_neg fun h ↦ hnonResident h.2.1,
    if_pos ⟨htype, hnonResident, hname⟩]
  rfl

theorem readsAs_residentData (hdata : IsResidentData record cursor) (state : AttributeState)
    (hfits : cursor + 20 ≤ record.length) :
    ReadsAs record cursor state (readAttributeAt record cursor state) := by
  rw [readAttributeAt_residentData hdata, readU32, checked_of_le (by omega), Parse.ok_bind]
  have hsizes : sizesAt record cursor =
      some ((u32At record (cursor + 16)).toUInt64, (u32At record (cursor + 16)).toUInt64) :=
    if_pos hdata
  obtain ⟨hname, hadds⟩ := adds_of_data state { state with
    sizeBytes := (u32At record (cursor + 16)).toUInt64
    allocationBytes := (u32At record (cursor + 16)).toUInt64 } hdata.1 rfl (by rw [hsizes]; rfl)
  exact Or.inr ⟨hname, _, rfl, hadds⟩

theorem readsAs_nonResidentData (hdata : IsNonResidentData record cursor) (state : AttributeState)
    (hfits : cursor + 24 ≤ record.length)
    (hfits' : u64At record (cursor + 16) = 0 → cursor + 56 ≤ record.length) :
    ReadsAs record cursor state (readAttributeAt record cursor state) := by
  have hresident : ¬ IsResidentData record cursor := fun h ↦ hdata.2.1 h.2.1
  rw [readAttributeAt_nonResidentData hdata]
  simp only [readU64]
  rw [checked_of_le (by omega), Parse.ok_bind]
  by_cases hvcn : u64At record (cursor + 16) = 0
  · have hlength := hfits' hvcn
    rw [if_pos hvcn, checked_of_le (by omega), Parse.ok_bind, checked_of_le (by omega),
      Parse.ok_bind]
    have hsizes : sizesAt record cursor =
        some (u64At record (cursor + 48), u64At record (cursor + 40)) := by
      unfold sizesAt
      rw [if_neg hresident, if_pos ⟨hdata, hvcn⟩]
    obtain ⟨hname, hadds⟩ := adds_of_data state { state with
      sizeBytes := u64At record (cursor + 48)
      allocationBytes := u64At record (cursor + 40) } hdata.1 rfl (by rw [hsizes]; rfl)
    exact Or.inr ⟨hname, _, rfl, hadds⟩
  · have hsizes : sizesAt record cursor = none := by
      unfold sizesAt
      rw [if_neg hresident, if_neg fun h ↦ hvcn h.2]
    rw [if_neg hvcn]
    obtain ⟨hname, hadds⟩ := adds_of_data state state hdata.1 rfl (by rw [hsizes]; rfl)
    exact Or.inr ⟨hname, _, rfl, hadds⟩

/-! ### Any attribute -/

theorem readsAs_other (hname : ¬ IsFileName record cursor)
    (hresident : ¬ IsResidentData record cursor) (hnonResident : ¬ IsNonResidentData record cursor)
    (state : AttributeState) :
    ReadsAs record cursor state (readAttributeAt record cursor state) := by
  unfold readAttributeAt readAttribute
  by_cases hlist : typeAt record cursor = attributeList
  · rw [if_pos hlist]
    obtain ⟨hmalformed, hadds⟩ := adds_of_plain state { state with hasAttributeList := true }
      hname hresident hnonResident rfl rfl
    exact Or.inr ⟨hmalformed, _, rfl, hadds⟩
  · obtain ⟨hmalformed, hadds⟩ := adds_of_plain state state hname hresident hnonResident rfl rfl
    unfold IsFileName at hname
    unfold IsResidentData at hresident
    unfold IsNonResidentData at hnonResident
    rw [if_neg hlist, if_neg hname, if_neg hresident, if_neg hnonResident]
    exact Or.inr ⟨hmalformed, _, rfl, hadds⟩

theorem readsAs_of_fits (hfits : AttributeFits record cursor) (state : AttributeState) :
    ReadsAs record cursor state (readAttributeAt record cursor state) := by
  obtain ⟨-, hfile, hresident, hnonResident⟩ := hfits
  by_cases h₁ : IsFileName record cursor
  · exact readAttributeAt_fileName h₁ state (hfile h₁)
  by_cases h₂ : IsResidentData record cursor
  · exact readsAs_residentData h₂ state (hresident h₂)
  by_cases h₃ : IsNonResidentData record cursor
  · exact readsAs_nonResidentData h₃ state (hnonResident h₃).1 (hnonResident h₃).2
  · exact readsAs_other h₁ h₂ h₃ state

/-- A parse that ends without a result. -/
def Fails {α : Type} (parse : Parse α) : Prop := ∃ failure, parse = .error failure

theorem not_fails_ok {α : Type} (a : α) : ¬ Fails (.ok a : Parse α) := by
  rintro ⟨failure, h⟩
  cases h

theorem Fails.bind {α β : Type} {parse : Parse α} (h : Fails parse) (f : α → Parse β) :
    Fails (parse >>= f) := by
  obtain ⟨failure, rfl⟩ := h
  exact ⟨failure, rfl⟩

theorem readAttributeAt_fails (hheader : cursor + 10 ≤ record.length)
    (hfits : ¬ AttributeFits record cursor) (state : AttributeState) :
    Fails (readAttributeAt record cursor state) := by
  by_cases h₁ : IsFileName record cursor
  · have hresident : ¬ IsResidentData record cursor := fun h ↦ not_isFileName_of_data h.1 h₁
    have hnonResident : ¬ IsNonResidentData record cursor := fun h ↦ not_isFileName_of_data h.1 h₁
    have hlength : record.length < cursor + 22 := by
      by_contra hle
      exact hfits ⟨hheader, fun _ ↦ Nat.not_lt.mp hle, fun h ↦ (hresident h).elim,
        fun h ↦ (hnonResident h).elim⟩
    exact ⟨_, readAttributeAt_fileName_fails h₁ state hlength⟩
  by_cases h₂ : IsResidentData record cursor
  · have hnonResident : ¬ IsNonResidentData record cursor := fun h ↦ h.2.1 h₂.2.1
    have hlength : record.length < cursor + 16 + 4 := by
      by_contra hle
      exact hfits ⟨hheader, fun h ↦ (h₁ h).elim, fun _ ↦ Nat.not_lt.mp hle,
        fun h ↦ (hnonResident h).elim⟩
    rw [readAttributeAt_residentData h₂, readU32, checked_of_lt hlength]
    exact ⟨_, rfl⟩
  by_cases h₃ : IsNonResidentData record cursor
  · rw [readAttributeAt_nonResidentData h₃]
    simp only [readU64]
    by_cases hvcnFits : cursor + 16 + 8 ≤ record.length
    · have hrest : ¬ (u64At record (cursor + 16) = 0 → cursor + 56 ≤ record.length) := fun h ↦
        hfits ⟨hheader, fun h ↦ (h₁ h).elim, fun h ↦ (h₂ h).elim, fun _ ↦ ⟨hvcnFits, h⟩⟩
      obtain ⟨hvcn, hlength⟩ := Classical.not_imp.mp hrest
      rw [checked_of_le hvcnFits, Parse.ok_bind, if_pos hvcn]
      by_cases hallocation : cursor + 40 + 8 ≤ record.length
      · rw [checked_of_le hallocation, Parse.ok_bind, checked_of_lt (by omega)]
        exact ⟨_, rfl⟩
      · rw [checked_of_lt (by omega)]
        exact ⟨_, rfl⟩
    · rw [checked_of_lt (by omega)]
      exact ⟨_, rfl⟩
  · exact (hfits ⟨hheader, fun h ↦ (h₁ h).elim, fun h ↦ (h₂ h).elim, fun h ↦ (h₃ h).elim⟩).elim

end Ntfs

end WinBlaze
