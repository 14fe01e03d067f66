import WinBlaze.Scanner.Ntfs.RecordRange

/-!
# The early end of the attribute walk

The walk of a base record ends as soon as a long name and the sizes are known.
Attributes are sorted by type, so what it leaves out of an ordered record could
not change the entry: the scan of all attributes gives the same one.
-/

namespace WinBlaze

namespace Ntfs

variable {record : List UInt8}

/-! ## Names by rank -/

/-- The last of the names of the highest rank. -/
def LastBest (names : List FileNameAttribute) (name : FileNameAttribute) : Prop :=
  ∃ before after, names = before ++ name :: after ∧
    (∀ other ∈ before, other.namespaceRank ≤ name.namespaceRank) ∧
      ∀ other ∈ after, other.namespaceRank < name.namespaceRank

def keepBest (chosen : Option FileNameAttribute) (name : FileNameAttribute) :
    Option FileNameAttribute :=
  if chosen.all (fun current ↦ current.namespaceRank ≤ name.namespaceRank) then some name else chosen

/-- The name left by the replacement rule. -/
def chosenName (names : List FileNameAttribute) : Option FileNameAttribute :=
  names.foldl keepBest none

theorem chosenName_concat (names : List FileNameAttribute) (name : FileNameAttribute) :
    chosenName (names ++ [name]) = keepBest (chosenName names) name := by
  simp [chosenName]

theorem exists_keepBest (chosen : Option FileNameAttribute) (name : FileNameAttribute) :
    ∃ kept, keepBest chosen name = some kept := by
  unfold keepBest
  split
  case isTrue => exact ⟨name, rfl⟩
  case isFalse h =>
    cases chosen with
    | none => exact (h rfl).elim
    | some current => exact ⟨current, rfl⟩

theorem exists_chosenName {names : List FileNameAttribute} (h : names ≠ []) :
    ∃ name, chosenName names = some name := by
  rw [← List.dropLast_append_getLast h, chosenName_concat]
  exact exists_keepBest _ _

theorem LastBest.rank_le {names : List FileNameAttribute} {name : FileNameAttribute}
    (h : LastBest names name) : ∀ other ∈ names, other.namespaceRank ≤ name.namespaceRank := by
  obtain ⟨before, after, rfl, hbefore, hafter⟩ := h
  refine List.forall_mem_append.mpr ⟨hbefore, List.forall_mem_cons.mpr ⟨le_rfl, ?_⟩⟩
  exact fun other hother ↦ (hafter other hother).le

theorem LastBest.mem {names : List FileNameAttribute} {name : FileNameAttribute}
    (h : LastBest names name) : name ∈ names := by
  obtain ⟨before, after, rfl, -, -⟩ := h
  exact List.mem_append_right _ List.mem_cons_self

theorem lastBest_of_chosenName {names : List FileNameAttribute} {name : FileNameAttribute}
    (h : chosenName names = some name) : LastBest names name := by
  induction names using List.reverseRecOn generalizing name with
  | nil => cases h
  | append_singleton names last ih =>
      rw [chosenName_concat, keepBest] at h
      split at h
      case isTrue hkeep =>
        obtain rfl := Option.some.inj h
        refine ⟨names, [], rfl, fun other hother ↦ ?_, List.forall_mem_nil _⟩
        obtain ⟨current, hcurrent⟩ := exists_chosenName (List.ne_nil_of_mem hother)
        rw [hcurrent] at hkeep
        exact ((ih hcurrent).rank_le other hother).trans (by simpa using hkeep)
      case isFalse hkeep =>
        obtain ⟨before, after, rfl, hbefore, hafter⟩ := ih h
        refine ⟨before, after ++ [last], by simp, hbefore, ?_⟩
        rw [h] at hkeep
        refine List.forall_mem_append.mpr ⟨hafter, List.forall_mem_singleton.mpr ?_⟩
        simpa using hkeep

/-- A name of the highest rank stays when only lower ones follow. -/
theorem chosenName_append_of_lt {names others : List FileNameAttribute} {name : FileNameAttribute}
    (h : chosenName names = some name)
    (hlower : ∀ other ∈ others, other.namespaceRank < name.namespaceRank) :
    chosenName (names ++ others) = some name := by
  induction others using List.reverseRecOn with
  | nil => rwa [List.append_nil]
  | append_singleton others last ih =>
      obtain ⟨hothers, hlast⟩ := List.forall_mem_append.mp hlower
      have hless := hlast last List.mem_cons_self
      rw [← List.append_assoc, chosenName_concat, ih hothers, keepBest, if_neg (by simpa using hless)]

/-! ## The scan of all attributes -/

/-- The name in a resident name attribute, if it is valid. -/
def nameAt (record : List UInt8) (place : ℕ) : Option FileNameAttribute :=
  (fileNameValue record place).bind (fun value ↦ (parseFileName value).toOption)

/-- The state with what the attribute at `place` says. -/
def addAttribute (record : List UInt8) (state : AttributeState) (place : ℕ) : AttributeState :=
  if typeAt record place = attributeList then { state with hasAttributeList := true }
  else
    (nameAt record place).elim
      ((sizesAt record place).elim state
        (fun sizes ↦ { state with sizeBytes := sizes.1, allocationBytes := sizes.2 }))
      state.keepName

def scanned (record : List UInt8) (places : List ℕ) : AttributeState :=
  places.foldl (addAttribute record) {}

def attributesOf (record : List UInt8) : List ℕ := attributeOffsets record (firstAttrOffsetOf record)

def namesOf (record : List UInt8) (places : List ℕ) : List FileNameAttribute :=
  places.filterMap (nameAt record)

section Scan

variable {place : ℕ}

theorem namesOf_append (front rest : List ℕ) :
    namesOf record (front ++ rest) = namesOf record front ++ namesOf record rest :=
  List.filterMap_append

theorem scanned_concat (places : List ℕ) (place : ℕ) :
    scanned record (places ++ [place]) = addAttribute record (scanned record places) place := by
  simp [scanned]

theorem type_of_nameAt {name : FileNameAttribute} (h : nameAt record place = some name) :
    typeAt record place = attributeFileName := by
  obtain ⟨value, hvalue, -⟩ := Option.bind_eq_some_iff.mp h
  unfold fileNameValue at hvalue
  dsimp only at hvalue
  split at hvalue
  case isTrue hname => exact hname.1.1
  case isFalse => cases hvalue

theorem type_of_sizesAt {sizes : UInt64 × UInt64} (h : sizesAt record place = some sizes) :
    typeAt record place = attributeData := by
  unfold sizesAt at h
  split at h
  case isTrue hresident => exact hresident.1
  case isFalse =>
    split at h
    case isTrue hnonResident => exact hnonResident.1.1
    case isFalse => cases h

theorem nameAt_of_ne (h : typeAt record place ≠ attributeFileName) : nameAt record place = none := by
  cases hname : nameAt record place with
  | none => rfl
  | some name => exact (h (type_of_nameAt hname)).elim

theorem sizesAt_of_ne (h : typeAt record place ≠ attributeData) : sizesAt record place = none := by
  cases hsizes : sizesAt record place with
  | none => rfl
  | some sizes => exact (h (type_of_sizesAt hsizes)).elim

theorem keepName_fileName (state : AttributeState) (name : FileNameAttribute) :
    (state.keepName name).fileName = keepBest state.fileName name := by
  unfold AttributeState.keepName keepBest
  split <;> rfl

theorem keepName_hasAttributeList (state : AttributeState) (name : FileNameAttribute) :
    (state.keepName name).hasAttributeList = state.hasAttributeList := by
  unfold AttributeState.keepName
  split <;> rfl

theorem addAttribute_fileName (state : AttributeState) (place : ℕ) :
    (addAttribute record state place).fileName =
      (nameAt record place).elim state.fileName (keepBest state.fileName) := by
  unfold addAttribute
  split
  case isTrue hlist =>
    rw [nameAt_of_ne fun h ↦ attributeList_ne_attributeFileName (hlist.symm.trans h)]
    rfl
  case isFalse =>
    cases nameAt record place with
    | none => cases sizesAt record place <;> rfl
    | some name => exact keepName_fileName state name

theorem addAttribute_sizes (state : AttributeState) (place : ℕ) :
    ((addAttribute record state place).sizeBytes, (addAttribute record state place).allocationBytes) =
      (sizesAt record place).getD (state.sizeBytes, state.allocationBytes) := by
  unfold addAttribute
  split
  case isTrue hlist =>
    rw [sizesAt_of_ne fun h ↦ attributeList_ne_attributeData (hlist.symm.trans h)]
    rfl
  case isFalse =>
    cases hname : nameAt record place with
    | none => cases sizesAt record place <;> rfl
    | some name =>
        rw [sizesAt_of_ne fun h ↦ attributeFileName_ne_attributeData ((type_of_nameAt hname).symm.trans h)]
        exact keepName_sizes state name

theorem addAttribute_hasAttributeList (state : AttributeState) (place : ℕ) :
    (addAttribute record state place).hasAttributeList =
      (state.hasAttributeList || typeAt record place = attributeList) := by
  unfold addAttribute
  split
  case isTrue hlist => simp [hlist]
  case isFalse hlist =>
    cases nameAt record place with
    | none => cases sizesAt record place <;> simp [hlist]
    | some name => simp [keepName_hasAttributeList, hlist]

theorem scanned_fileName (places : List ℕ) :
    (scanned record places).fileName = chosenName (namesOf record places) := by
  induction places using List.reverseRecOn with
  | nil => rfl
  | append_singleton places place ih =>
      rw [scanned_concat, addAttribute_fileName, ih, namesOf_append]
      cases hname : nameAt record place with
      | none => simp [hname, namesOf]
      | some name =>
          have hlast : namesOf record [place] = [name] := by simp [namesOf, hname]
          rw [hlast, chosenName_concat]
          rfl

theorem scanned_sizes (places : List ℕ) :
    ((scanned record places).sizeBytes, (scanned record places).allocationBytes) =
      sizesOf record places := by
  induction places using List.reverseRecOn with
  | nil => rfl
  | append_singleton places place ih =>
      rw [scanned_concat, addAttribute_sizes, ih, sizesOf_append]

theorem scanned_hasAttributeList (places : List ℕ) :
    (scanned record places).hasAttributeList =
      places.any (fun place ↦ typeAt record place = attributeList) := by
  induction places using List.reverseRecOn with
  | nil => rfl
  | append_singleton places place ih =>
      rw [scanned_concat, addAttribute_hasAttributeList, ih]
      simp

theorem nameAt_of_not_isFileName (h : ¬ IsFileName record place) : nameAt record place = none := by
  have hvalue : fileNameValue record place = none := if_neg fun hboth ↦ h hboth.1
  rw [nameAt, hvalue, Option.bind_none]

theorem sizesAt_of_isFileName (h : IsFileName record place) : sizesAt record place = none :=
  sizesAt_of_ne fun htype ↦ attributeFileName_ne_attributeData (h.1.symm.trans htype)

/-- A name that is not malformed is kept, or lies outside the record and is passed over. -/
theorem readAttributeAt_name (hname : IsFileName record place) (hfits : place + 22 ≤ record.length)
    (hwell : malformedNameAt record place = false) (state : AttributeState) :
    readAttributeAt record place state =
      .ok (some ((nameAt record place).elim state state.keepName)) := by
  have hlist : typeAt record place ≠ attributeList := fun h ↦
    attributeList_ne_attributeFileName (h.symm.trans hname.1)
  unfold readAttributeAt readAttribute
  rw [if_neg hlist, if_pos ⟨hname.1, hname.2⟩]
  simp only [readU16, readU32]
  rw [checked_of_le (by omega), checked_of_le (by omega)]
  simp only [Parse.ok_bind]
  by_cases hvalue : place + (u16At record (place + 20)).toNat +
      (u32At record (place + 16)).toNat ≤ record.length
  · have hfile : fileNameValue record place = some ((record.drop (place +
        (u16At record (place + 20)).toNat)).take (u32At record (place + 16)).toNat) :=
      if_pos ⟨hname, hvalue⟩
    rw [if_pos hvalue, nameAt, hfile, Option.bind_some]
    cases hparse : parseFileName ((record.drop (place + (u16At record (place + 20)).toNat)).take
        (u32At record (place + 16)).toNat) with
    | error failure => simp [malformedNameAt, hfile, hparse, Except.isOk, Except.toBool] at hwell
    | ok name => rfl
  · have hfile : fileNameValue record place = none := if_neg fun h ↦ hvalue h.2
    rw [if_neg hvalue, nameAt, hfile]
    rfl

theorem readAttributeAt_data (hfits : AttributeFits record place)
    (hname : ¬ IsFileName record place) (hlist : typeAt record place ≠ attributeList)
    (state : AttributeState) :
    readAttributeAt record place state =
      .ok (some ((sizesAt record place).elim state
        (fun sizes ↦ { state with sizeBytes := sizes.1, allocationBytes := sizes.2 }))) := by
  obtain ⟨-, -, hresidentFits, hnonResidentFits⟩ := hfits
  by_cases hresident : IsResidentData record place
  · have hlength := hresidentFits hresident
    rw [readAttributeAt_residentData hresident, readU32, checked_of_le (by omega), Parse.ok_bind,
      sizesAt, if_pos hresident]
    rfl
  by_cases hnonResident : IsNonResidentData record place
  · obtain ⟨hlength, hlength'⟩ := hnonResidentFits hnonResident
    rw [readAttributeAt_nonResidentData hnonResident, sizesAt, if_neg hresident]
    simp only [readU64]
    rw [checked_of_le (by omega), Parse.ok_bind]
    by_cases hvcn : u64At record (place + 16) = 0
    · have hlong := hlength' hvcn
      rw [if_pos hvcn, if_pos ⟨hnonResident, hvcn⟩, checked_of_le (by omega), Parse.ok_bind,
        checked_of_le (by omega), Parse.ok_bind]
      rfl
    · rw [if_neg hvcn, if_neg fun h ↦ hvcn h.2]
      rfl
  · have hsizes : sizesAt record place = none := by
      rw [sizesAt, if_neg hresident, if_neg fun h ↦ hnonResident h.1]
    unfold IsFileName at hname
    unfold IsResidentData at hresident
    unfold IsNonResidentData at hnonResident
    unfold readAttributeAt readAttribute
    rw [if_neg hlist, if_neg hname, if_neg hresident, if_neg hnonResident, hsizes]
    rfl

/-- Reading a fitting attribute with no malformed name adds it. -/
theorem readAttributeAt_eq (hfits : AttributeFits record place)
    (hwell : malformedNameAt record place = false) (state : AttributeState) :
    readAttributeAt record place state = .ok (some (addAttribute record state place)) := by
  unfold addAttribute
  by_cases hlist : typeAt record place = attributeList
  · rw [if_pos hlist]
    exact if_pos hlist
  rw [if_neg hlist]
  by_cases hname : IsFileName record place
  · rw [readAttributeAt_name hname (hfits.2.1 hname) hwell, sizesAt_of_isFileName hname]
    rfl
  · rw [readAttributeAt_data hfits hname hlist, nameAt_of_not_isFileName hname]
    rfl

end Scan

/-! ## Ordered records -/

/-- A record of a file in use whose attributes are ordered by type, with complete
headers, valid names and no more than one place for its sizes. -/
structure OrderedRecord (record : List UInt8) : Prop where
  length : record.length = ntfsRecordSize
  live : LiveRecord record
  base : baseRecordOf record = 0
  ascending : (attributesOf record).Pairwise (fun place next ↦
    typeAt record place ≤ typeAt record next)
  fits : ∀ place ∈ attributesOf record, AttributeFits record place
  named : ∃ place ∈ attributesOf record, typeAt record place = attributeFileName
  names : ∀ place ∈ attributesOf record, typeAt record place = attributeFileName →
    ∃ name, nameAt record place = some name
  data : ((attributesOf record).filterMap (sizesAt record)).length ≤ 1
  directory : isDirectoryRecord record = true →
    ((namesOf record (attributesOf record)).filter (fun name ↦ name.namespaceRank = 2)).length ≤ 1

/-- What an entry shows of the attributes. -/
structure SameEntry (isDirectory : Bool) (state other : AttributeState) : Prop where
  fileName : state.fileName = other.fileName
  hasAttributeList : state.hasAttributeList = other.hasAttributeList
  sizes : isDirectory = false →
    (state.sizeBytes, state.allocationBytes) = (other.sizeBytes, other.allocationBytes)

section Ordered

variable {earlier later : List ℕ}

theorem OrderedRecord.wellNamed (h : OrderedRecord record) {place : ℕ}
    (hplace : place ∈ attributesOf record) : malformedNameAt record place = false := by
  unfold malformedNameAt
  cases hvalue : fileNameValue record place with
  | none => rfl
  | some value =>
      have hname : typeAt record place = attributeFileName := by
        by_contra hne
        have hnone : fileNameValue record place = none := if_neg fun hboth ↦ hne hboth.1.1
        cases hnone.symm.trans hvalue
      obtain ⟨name, hsome⟩ := h.names place hplace hname
      rw [nameAt, hvalue, Option.bind_some] at hsome
      cases hparse : parseFileName value with
      | error failure =>
          rw [hparse] at hsome
          cases hsome
      | ok name => simp [hparse, Except.isOk, Except.toBool]

/-- An attribute of a higher type keeps those of lower types out of what follows. -/
theorem type_le_of_split (h : OrderedRecord record) (hsplit : attributesOf record = earlier ++ later)
    {place next : ℕ} (hplace : place ∈ earlier) (hnext : next ∈ later) :
    typeAt record place ≤ typeAt record next := by
  have hascending := h.ascending
  rw [hsplit, List.pairwise_append] at hascending
  exact hascending.2.2 place hplace next hnext

theorem exists_chosen {name : FileNameAttribute} {places : List ℕ}
    (h : chosenName (namesOf record places) = some name) :
    ∃ place ∈ places, nameAt record place = some name :=
  List.mem_filterMap.mp (lastBest_of_chosenName h).mem

theorem not_fileName_le_list : ¬ attributeFileName ≤ attributeList := by decide

theorem not_data_le_fileName : ¬ attributeData ≤ attributeFileName := by decide

/-- Behind a name of the highest rank come only lower ones, and no attribute list. -/
theorem same_of_chosen (h : OrderedRecord record) (hsplit : attributesOf record = earlier ++ later)
    {name : FileNameAttribute} (hname : chosenName (namesOf record earlier) = some name)
    (hlower : ∀ other ∈ namesOf record later, other.namespaceRank < name.namespaceRank) :
    (scanned record earlier).fileName = (scanned record (earlier ++ later)).fileName ∧
      (scanned record earlier).hasAttributeList =
        (scanned record (earlier ++ later)).hasAttributeList := by
  constructor
  · rw [scanned_fileName, scanned_fileName, namesOf_append, chosenName_append_of_lt hname hlower, hname]
  · obtain ⟨place, hplace, hplaceName⟩ := exists_chosen hname
    have hnone : later.any (fun next ↦ typeAt record next = attributeList) = false := by
      refine List.any_eq_false.mpr fun next hnext hlist ↦ ?_
      have hle := type_le_of_split h hsplit hplace hnext
      rw [type_of_nameAt hplaceName, of_decide_eq_true hlist] at hle
      exact not_fileName_le_list hle
    rw [scanned_hasAttributeList, scanned_hasAttributeList, List.any_append, hnone, Bool.or_false]

/-- A directory has no second long name. -/
theorem lower_of_directory (h : OrderedRecord record) (hsplit : attributesOf record = earlier ++ later)
    (hdirectory : isDirectoryRecord record = true) {name : FileNameAttribute}
    (hname : name ∈ namesOf record earlier) (hrank : name.namespaceRank = 2) :
    ∀ other ∈ namesOf record later, other.namespaceRank < name.namespaceRank := by
  intro other hother
  by_contra hnot
  have hle := namespaceRank_le other
  have hlong := h.directory hdirectory
  rw [hsplit, namesOf_append, List.filter_append, List.length_append] at hlong
  have hfirst := List.length_pos_of_mem
    (List.mem_filter.mpr ⟨hname, decide_eq_true hrank⟩ :
      name ∈ (namesOf record earlier).filter (fun name ↦ name.namespaceRank = 2))
  have hsecond := List.length_pos_of_mem
    (List.mem_filter.mpr ⟨hother, decide_eq_true (by omega)⟩ :
      other ∈ (namesOf record later).filter (fun name ↦ name.namespaceRank = 2))
  omega

/-- Behind the attribute that gives the sizes there are no names and no other sizes. -/
theorem after_sizes (h : OrderedRecord record) (hsplit : attributesOf record = earlier ++ later)
    {place : ℕ} (hplace : place ∈ earlier) {sizes : UInt64 × UInt64}
    (hsizes : sizesAt record place = some sizes) :
    namesOf record later = [] ∧ later.filterMap (sizesAt record) = [] := by
  constructor
  · refine List.filterMap_eq_nil_iff.mpr fun next hnext ↦ nameAt_of_ne fun hname ↦ ?_
    have hle := type_le_of_split h hsplit hplace hnext
    rw [type_of_sizesAt hsizes, hname] at hle
    exact not_data_le_fileName hle
  · have hdata := h.data
    have hfirst := List.length_pos_of_mem (List.mem_filterMap.mpr ⟨place, hplace, hsizes⟩)
    rw [hsplit, List.filterMap_append, List.length_append] at hdata
    exact List.length_eq_zero_iff.mp (by omega)

theorem exists_sizesAt {places : List ℕ} (h : sizesOf record places ≠ (0, 0)) :
    ∃ place ∈ places, ∃ sizes, sizesAt record place = some sizes := by
  by_contra hnone
  refine h ?_
  have hempty : places.filterMap (sizesAt record) = [] :=
    List.filterMap_eq_nil_iff.mpr fun place hplace ↦ by
      cases hsizes : sizesAt record place with
      | none => rfl
      | some sizes => exact (hnone ⟨place, hplace, sizes, hsizes⟩).elim
  rw [sizesOf, hempty]
  rfl

/-- What the walk leaves out would not change the entry. -/
theorem same_of_complete (h : OrderedRecord record) (hsplit : attributesOf record = earlier ++ later)
    (hcomplete : (scanned record earlier).complete (isDirectoryRecord record) 0 = true) :
    SameEntry (isDirectoryRecord record) (scanned record earlier)
      (scanned record (earlier ++ later)) := by
  unfold AttributeState.complete AttributeState.hasLongName at hcomplete
  rw [scanned_fileName] at hcomplete
  cases hname : chosenName (namesOf record earlier) with
  | none => simp [hname] at hcomplete
  | some name =>
      have hrank : name.namespaceRank = 2 := by
        simp only [hname, Option.any_some, Bool.and_eq_true, decide_eq_true_eq] at hcomplete
        exact hcomplete.1.2
      have hmem := (lastBest_of_chosenName hname).mem
      cases hdirectory : isDirectoryRecord record with
      | true =>
          obtain ⟨hfile, hlist⟩ := same_of_chosen h hsplit hname
            (lower_of_directory h hsplit hdirectory hmem hrank)
          exact ⟨hfile, hlist, fun hfalse ↦ by cases hfalse⟩
      | false =>
          have hsizes : sizesOf record earlier ≠ (0, 0) := by
            intro hzero
            rw [← scanned_sizes, Prod.mk.injEq] at hzero
            simp [hdirectory, hzero.1, hzero.2] at hcomplete
          obtain ⟨place, hplace, sizes, hplaceSizes⟩ := exists_sizesAt hsizes
          obtain ⟨hnames, hothers⟩ := after_sizes h hsplit hplace hplaceSizes
          obtain ⟨hfile, hlist⟩ := same_of_chosen h hsplit hname (by simp [hnames])
          refine ⟨hfile, hlist, fun _ ↦ ?_⟩
          rw [scanned_sizes, scanned_sizes, sizesOf, sizesOf, List.filterMap_append, hothers,
            List.append_nil]

theorem attributeWalk_scans (h : OrderedRecord record) (cursor : ℕ) (earlier : List ℕ)
    (hsplit : attributesOf record = earlier ++ attributeOffsets record cursor) :
    ∃ final, attributeWalk record (isDirectoryRecord record) (baseRecordOf record) cursor
        (scanned record earlier) = .ok (some final) ∧
      SameEntry (isDirectoryRecord record) final (scanned record (attributesOf record)) := by
  induction cursor using attributeOffsets.induct record generalizing earlier with
  | case1 cursor hheader ih =>
      rw [attributeOffsets, dif_pos hheader] at hsplit
      have hplace : cursor ∈ attributesOf record := by simp [hsplit]
      have hnext : attributesOf record =
          (earlier ++ [cursor]) ++ attributeOffsets record (cursor + lengthAt record cursor) := by
        rw [hsplit, List.append_assoc, List.singleton_append]
      rw [attributeWalk_of_fits hheader (h.fits cursor hplace),
        readAttributeAt_eq (h.fits cursor hplace) (h.wellNamed hplace), Parse.ok_bind,
        Option.elim_some, ← scanned_concat]
      split
      case isTrue hcomplete =>
        rw [h.base] at hcomplete
        refine ⟨_, rfl, ?_⟩
        rw [hnext]
        exact same_of_complete h hnext hcomplete
      case isFalse => exact ih _ hnext
  | case2 cursor hheader =>
      rw [attributeOffsets, dif_neg hheader, List.append_nil] at hsplit
      rw [attributeWalk_of_not_header hheader, hsplit]
      exact ⟨_, rfl, rfl, rfl, fun _ ↦ rfl⟩

end Ordered

/-! ## The entry -/

/-- The entry of a record, by its name and all of its attributes. -/
structure EntryOf (record : List UInt8) (name : FileNameAttribute) (entry : ParsedNtfsEntry) : Prop where
  fileId : entry.fileId = ⟨(u32At record 0x2C).toUInt64⟩
  name_eq : entry.name = name.name
  parent : entry.parentDirectoryId = name.parentReference
  created : entry.createdUtc = some name.createdUtc
  modified : entry.modifiedUtc = some name.modifiedUtc
  accessed : entry.accessedUtc = some name.accessedUtc
  isDirectory : entry.isDirectory = isDirectoryRecord record
  sizes : isDirectoryRecord record = false → ∀ place ∈ attributesOf record, ∀ sizes,
    sizesAt record place = some sizes → (entry.sizeBytes, entry.allocationBytes) = sizes
  noSizes : isDirectoryRecord record = false →
    (∀ place ∈ attributesOf record, sizesAt record place = none) →
      entry.sizeBytes = 0 ∧ entry.allocationBytes = 0
  hasAttributeList : entry.hasAttributeList = true ↔
    ∃ place ∈ attributesOf record, typeAt record place = attributeList

theorem sizesOf_of_mem (h : OrderedRecord record) {place : ℕ} (hplace : place ∈ attributesOf record)
    {sizes : UInt64 × UInt64} (hsizes : sizesAt record place = some sizes) :
    sizesOf record (attributesOf record) = sizes := by
  have hmem := List.mem_filterMap.mpr ⟨place, hplace, hsizes⟩
  have hdata := h.data
  have hpos := List.length_pos_of_mem hmem
  obtain ⟨only, honly⟩ := List.length_eq_one_iff.mp
    (by omega : ((attributesOf record).filterMap (sizesAt record)).length = 1)
  rw [honly] at hmem
  rw [sizesOf, honly, List.mem_singleton.mp hmem]
  rfl

theorem sizesOf_of_none {places : List ℕ} (h : ∀ place ∈ places, sizesAt record place = none) :
    sizesOf record places = (0, 0) := by
  rw [sizesOf, List.filterMap_eq_nil_iff.mpr h]
  rfl

/-- An ordered record gives the entry of the scan of all its attributes: the last
name of the highest rank, the sizes of the unnamed data, and whether there is an
attribute list anywhere. -/
theorem parseRecord_scans (h : OrderedRecord record) :
    ∃ entry name, parseRecord record = .ok (.entry entry) ∧
      LastBest (namesOf record (attributesOf record)) name ∧ EntryOf record name entry := by
  obtain ⟨final, hwalk, hsame⟩ := attributeWalk_scans h (firstAttrOffsetOf record) [] rfl
  obtain ⟨place, hplace, htype⟩ := h.named
  obtain ⟨first, hfirst⟩ := h.names place hplace htype
  have hnames : namesOf record (attributesOf record) ≠ [] :=
    List.ne_nil_of_mem (List.mem_filterMap.mpr ⟨place, hplace, hfirst⟩)
  obtain ⟨name, hname⟩ := exists_chosenName hnames
  have hfile : final.fileName = some name := by
    rw [hsame.fileName, scanned_fileName, hname]
  change attributeWalk record _ _ _ {} = _ at hwalk
  have hparse := parseRecord_of_live h.length.ge h.live
  rw [hwalk, Parse.ok_bind, Option.elim_some, recordOutcome, if_neg (not_not.mpr h.base), hfile]
    at hparse
  have hsizes : isDirectoryRecord record = false →
      (final.sizeBytes, final.allocationBytes) = sizesOf record (attributesOf record) :=
    fun hdirectory ↦ (hsame.sizes hdirectory).trans (scanned_sizes _)
  refine ⟨_, name, hparse, lastBest_of_chosenName hname, rfl, rfl, rfl, rfl, rfl, rfl, rfl,
    fun hdirectory place hplace sizes hplaceSizes ↦ ?_, fun hdirectory hnone ↦ ?_, ?_⟩
  · exact (hsizes hdirectory).trans (sizesOf_of_mem h hplace hplaceSizes)
  · have hzero := (hsizes hdirectory).trans (sizesOf_of_none hnone)
    exact ⟨congrArg Prod.fst hzero, congrArg Prod.snd hzero⟩
  · dsimp only
    rw [hsame.hasAttributeList, scanned_hasAttributeList]
    simp

/-- A file with an 8.3 name, a long name and five bytes of data. -/
def twoNamesRecord : List UInt8 :=
  recordWithAttributes 56 32 ([0x30, 0, 0, 0, 96, 0, 0, 0, 0, 0, 0, 0, 0, 0, 0, 0, 68, 0, 0, 0, 24, 0, 0, 0,
    5, 0, 0, 0, 0, 0, 0, 0] ++ List.replicate 56 0 ++ [1, 2, 0x41, 0, 0, 0, 0, 0] ++
    [0x30, 0, 0, 0, 96, 0, 0, 0, 0, 0, 0, 0, 0, 0, 0, 0, 68, 0, 0, 0, 24, 0, 0, 0,
    5, 0, 0, 0, 0, 0, 0, 0] ++ List.replicate 56 0 ++ [1, 1, 0x61, 0, 0, 0, 0, 0] ++
    [0x80, 0, 0, 0, 32, 0, 0, 0, 0, 0, 24, 0, 0, 0, 0, 0, 5, 0, 0, 0, 24, 0, 0, 0, 1, 2, 3, 4, 5, 0, 0, 0] ++
    [0xFF, 0xFF, 0xFF, 0xFF] ++ List.replicate 740 0)

theorem parseRecord_scans_twoNames :
    ∃ entry name, parseRecord twoNamesRecord = .ok (.entry entry) ∧
      LastBest (namesOf twoNamesRecord (attributesOf twoNamesRecord)) name ∧
        EntryOf twoNamesRecord name entry := by
  have hfirst : firstAttrOffsetOf twoNamesRecord = 56 := by decide +kernel
  have hoffsets : attributesOf twoNamesRecord = [56, 152, 248] := by
    rw [attributesOf, hfirst, attributeOffsets, dif_pos (by decide +kernel), attributeOffsets,
      dif_pos (by decide +kernel), attributeOffsets, dif_pos (by decide +kernel), attributeOffsets,
      dif_neg (by decide +kernel)]
    decide +kernel
  have hlive : LiveRecord twoNamesRecord := by
    unfold LiveRecord
    decide +kernel
  refine parseRecord_scans ⟨by decide +kernel, hlive, by decide +kernel, ?_, ?_, ?_, ?_, ?_, ?_⟩
  · rw [hoffsets]
    decide +kernel
  · rw [hoffsets]
    decide +kernel
  · rw [hoffsets]
    decide +kernel
  · rw [hoffsets]
    simp only [← Option.isSome_iff_exists]
    decide +kernel
  · rw [hoffsets]
    decide +kernel
  · rw [hoffsets]
    decide +kernel

end Ntfs

end WinBlaze
