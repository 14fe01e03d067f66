import WinBlaze.Scanner.Ntfs.RecordFits

/-!
# Parsing a range of records

A record parses exactly when its attributes fit. One record that does not ends
the parse of the whole range, so a range yields what its records yield alone
exactly when every live record in it fits.
-/

namespace WinBlaze

namespace Ntfs

variable {record : List UInt8} {cursor : ℕ}

/-! ## One step of the walk -/

section Walk

variable {isDirectory : Bool} {baseRecord : UInt64}

theorem attributeWalk_of_not_header (h : ¬ HeaderAt record cursor) (state : AttributeState) :
    attributeWalk record isDirectory baseRecord cursor state = .ok (some state) := by
  rw [attributeWalk]
  split
  case isFalse => rfl
  case isTrue hcursor =>
    simp only [leU32]
    rw [unchecked_of_le (by omega), unchecked_of_le (by omega)]
    simp only [Parse.ok_bind]
    by_cases htype : typeAt record cursor = .ofNat (2 ^ 32 - 1)
    · exact if_pos htype
    · have hlength : lengthAt record cursor = 0 ∨
          cursor + lengthAt record cursor > record.length := by
        by_contra hnot
        rw [not_or] at hnot
        exact h ⟨hcursor, htype, hnot.1, Nat.not_lt.mp hnot.2⟩
      exact (if_neg htype).trans (dif_pos hlength)

theorem attributeWalk_of_header (h : HeaderAt record cursor) (state : AttributeState) :
    attributeWalk record isDirectory baseRecord cursor state =
      (indexByte record (cursor + 8) >>= fun nonResident ↦
        indexByte record (cursor + 9) >>= fun nameLength ↦
          readAttribute record cursor (typeAt record cursor) nonResident nameLength state >>=
            fun next ↦ next.elim (.ok none) fun next ↦
              if next.complete isDirectory baseRecord then .ok (some next)
              else attributeWalk record isDirectory baseRecord
                (cursor + lengthAt record cursor) next) := by
  obtain ⟨hcursor, htype, hlength, hend⟩ := h
  have hnot : ¬ (lengthAt record cursor = 0 ∨
      cursor + lengthAt record cursor > record.length) := by
    rw [not_or]
    exact ⟨hlength, Nat.not_lt.mpr hend⟩
  rw [attributeWalk, dif_pos hcursor]
  simp only [leU32]
  rw [unchecked_of_le (by omega), unchecked_of_le (by omega)]
  simp only [Parse.ok_bind]
  refine (if_neg htype).trans ((dif_neg hnot).trans ?_)
  refine congrArg _ (funext fun nonResident ↦ congrArg _ (funext fun nameLength ↦
    congrArg _ (funext fun next ↦ ?_)))
  cases next <;> rfl

theorem attributeWalk_of_fits (h : HeaderAt record cursor) (hfits : AttributeFits record cursor)
    (state : AttributeState) :
    attributeWalk record isDirectory baseRecord cursor state =
      (readAttributeAt record cursor state >>= fun next ↦ next.elim (.ok none) fun next ↦
        if next.complete isDirectory baseRecord then .ok (some next)
        else attributeWalk record isDirectory baseRecord (cursor + lengthAt record cursor) next) := by
  have hlength := hfits.1
  rw [attributeWalk_of_header h]
  simp only [indexByte]
  rw [unchecked_of_le (by omega), Parse.ok_bind, unchecked_of_le (by omega), Parse.ok_bind]
  rfl

theorem attributeWalk_fails (h : HeaderAt record cursor) (hfits : ¬ AttributeFits record cursor)
    (state : AttributeState) :
    Fails (attributeWalk record isDirectory baseRecord cursor state) := by
  rw [attributeWalk_of_header h]
  simp only [indexByte]
  by_cases h₁ : cursor + 8 + 1 ≤ record.length
  · rw [unchecked_of_le h₁, Parse.ok_bind]
    by_cases h₂ : cursor + 9 + 1 ≤ record.length
    · rw [unchecked_of_le h₂, Parse.ok_bind]
      exact (readAttributeAt_fails h₂ hfits state).bind _
    · rw [unchecked_of_lt (by omega)]
      exact ⟨_, rfl⟩
  · rw [unchecked_of_lt (by omega)]
    exact ⟨_, rfl⟩

end Walk

/-! ## The whole walk -/

theorem complete_eq {offsets : List ℕ} {state : AttributeState}
    (htracks : Tracks record offsets state) :
    state.complete (isDirectoryRecord record) (baseRecordOf record) =
      (baseRecordOf record = 0 && offsets.any (longNameAt record) &&
        (isDirectoryRecord record || (sizesOf record offsets).1 ≠ 0 ||
          (sizesOf record offsets).2 ≠ 0)) := by
  unfold AttributeState.complete
  rw [htracks.longName, ← htracks.sizes]

/-- One step of the walk over an attribute that fits: the record is given up, or
the walk ends, or it goes on behind the attribute. -/
theorem attributeWalk_step {earlier : List ℕ} {state : AttributeState}
    (hheader : HeaderAt record cursor) (hfits : AttributeFits record cursor)
    (htracks : Tracks record earlier state) (hnames : earlier.any (malformedNameAt record) = false) :
    ((earlier ++ [cursor]).any (malformedNameAt record) = true ∧
        endsWalk record (earlier ++ [cursor]) = true ∧
        attributeWalk record (isDirectoryRecord record) (baseRecordOf record) cursor state =
          .ok none) ∨
      ∃ next, Tracks record (earlier ++ [cursor]) next ∧
        (earlier ++ [cursor]).any (malformedNameAt record) = false ∧
        attributeWalk record (isDirectoryRecord record) (baseRecordOf record) cursor state =
          if endsWalk record (earlier ++ [cursor]) then .ok (some next)
          else attributeWalk record (isDirectoryRecord record) (baseRecordOf record)
            (cursor + lengthAt record cursor) next := by
  rw [attributeWalk_of_fits hheader hfits]
  rcases readsAs_of_fits hfits state with ⟨hmalformed, hread⟩ | ⟨hwell, next, hread, hadds⟩
  · left
    rw [hread]
    exact ⟨by simp [hmalformed], by simp [endsWalk, hmalformed], rfl⟩
  · right
    have hnext := htracks.append hadds
    have hnames' : (earlier ++ [cursor]).any (malformedNameAt record) = false := by
      simp [hnames, hwell]
    have hends : endsWalk record (earlier ++ [cursor]) =
        next.complete (isDirectoryRecord record) (baseRecordOf record) := by
      rw [complete_eq hnext, endsWalk, hnames', Bool.false_or]
    refine ⟨next, hnext, hnames', ?_⟩
    rw [hread, Parse.ok_bind, Option.elim_some, hends]

/-- The result of a walk: none with a malformed name, otherwise what the attributes
that it came to give. -/
def WalkGives (record : List UInt8) (walked : List ℕ) (result : Parse (Option AttributeState)) :
    Prop :=
  (walked.any (malformedNameAt record) = true ∧ result = .ok none) ∨
    ∃ final, Tracks record walked final ∧ walked.any (malformedNameAt record) = false ∧
      result = .ok (some final)

/-- Where all attributes fit, the walk has a result. -/
theorem attributeWalk_gives (cursor : ℕ) {earlier : List ℕ} {state : AttributeState}
    (htracks : Tracks record earlier state) (hnames : earlier.any (malformedNameAt record) = false)
    (hfits : FitsAfter record earlier (attributeOffsets record cursor)) :
    WalkGives record (walkedAfter record earlier (attributeOffsets record cursor))
      (attributeWalk record (isDirectoryRecord record) (baseRecordOf record) cursor state) := by
  induction cursor using attributeOffsets.induct record generalizing earlier state with
  | case1 cursor hheader ih =>
      rw [attributeOffsets, dif_pos hheader] at hfits ⊢
      obtain ⟨hhere, hrest⟩ := hfits
      rw [walkedAfter]
      rcases attributeWalk_step hheader hhere htracks hnames with
        ⟨hmalformed, hends, hwalk⟩ | ⟨next, hnext, hnames', hwalk⟩
      · rw [if_pos hends, hwalk]
        exact Or.inl ⟨hmalformed, rfl⟩
      · rw [hwalk]
        by_cases hends : endsWalk record (earlier ++ [cursor]) = true
        · rw [if_pos hends, if_pos hends]
          exact Or.inr ⟨next, hnext, hnames', rfl⟩
        · rw [if_neg hends, if_neg hends]
          exact ih hnext hnames' (hrest.resolve_left hends)
  | case2 cursor hheader =>
      rw [attributeOffsets, dif_neg hheader, attributeWalk_of_not_header hheader]
      exact Or.inr ⟨state, htracks, hnames, rfl⟩

/-- Where the walk comes to an attribute that does not fit, it has none. -/
theorem attributeWalk_fails_of_not_fits (cursor : ℕ) {earlier : List ℕ} {state : AttributeState}
    (htracks : Tracks record earlier state) (hnames : earlier.any (malformedNameAt record) = false)
    (hfits : ¬ FitsAfter record earlier (attributeOffsets record cursor)) :
    Fails (attributeWalk record (isDirectoryRecord record) (baseRecordOf record) cursor state) := by
  induction cursor using attributeOffsets.induct record generalizing earlier state with
  | case1 cursor hheader ih =>
      rw [attributeOffsets, dif_pos hheader, FitsAfter] at hfits
      by_cases hhere : AttributeFits record cursor
      · rw [and_iff_right hhere, not_or] at hfits
        rcases attributeWalk_step hheader hhere htracks hnames with
          ⟨-, hends, -⟩ | ⟨next, hnext, hnames', hwalk⟩
        · exact absurd hends hfits.1
        · rw [hwalk, if_neg hfits.1]
          exact ih hnext hnames' hfits.2
      · exact attributeWalk_fails hheader hhere state
  | case2 cursor hheader =>
      rw [attributeOffsets, dif_neg hheader] at hfits
      exact absurd trivial hfits

/-! ## One record -/

/-- The header of a whole record is read without a failure. -/
theorem parseRecord_of_live (hlength : ntfsRecordSize ≤ record.length) (hlive : LiveRecord record) :
    parseRecord record =
      (attributeWalk record (isDirectoryRecord record) (baseRecordOf record)
        (firstAttrOffsetOf record) {} >>= fun walked ↦ .ok (walked.elim .none
          (recordOutcome (u32At record 0x2C) (isDirectoryRecord record) (baseRecordOf record)))) := by
  have hsize : ¬ (record.length < ntfsRecordSize ∨ record.take 4 ≠ fileRecordSignature) := by
    rw [not_or, not_not]
    exact ⟨Nat.not_lt.mpr hlength, hlive.1⟩
  unfold ntfsRecordSize at hlength
  unfold parseRecord
  rw [if_neg hsize]
  simp only [leU32, leU16, leU64]
  rw [unchecked_of_le (by omega), Parse.ok_bind, unchecked_of_le (by omega), Parse.ok_bind,
    if_neg hlive.2, unchecked_of_le (by omega), Parse.ok_bind, unchecked_of_le (by omega),
    Parse.ok_bind]
  refine congrArg _ (funext fun walked ↦ ?_)
  cases walked <;> rfl

/-- Records without the signature and records of deleted files yield nothing. -/
theorem parseRecord_of_not_live (hlive : ¬ LiveRecord record) : parseRecord record = .ok .none := by
  unfold parseRecord
  by_cases hsize : record.length < ntfsRecordSize ∨ record.take 4 ≠ fileRecordSignature
  · rw [if_pos hsize]
    rfl
  · rw [not_or, not_not] at hsize
    have hlength := hsize.1
    unfold ntfsRecordSize at hlength
    have hflags : u16At record 0x16 &&& fileRecordFlagInUse = 0 := by
      by_contra hne
      exact hlive ⟨hsize.2, hne⟩
    rw [if_neg (not_or.mpr ⟨hsize.1, not_not.mpr hsize.2⟩)]
    simp only [leU32, leU16]
    rw [unchecked_of_le (by omega), Parse.ok_bind, unchecked_of_le (by omega), Parse.ok_bind,
      if_pos hflags]
    rfl

theorem parseRecord_fails_iff (hlength : ntfsRecordSize ≤ record.length) :
    Fails (parseRecord record) ↔ LiveRecord record ∧ ¬ RecordFits record := by
  by_cases hlive : LiveRecord record
  · rw [parseRecord_of_live hlength hlive, and_iff_right hlive]
    refine ⟨?_, fun hfits ↦ ?_⟩
    · rintro ⟨failure, hfail⟩ hfits
      rcases attributeWalk_gives _ (tracks_nil record) rfl hfits with
        ⟨-, hwalk⟩ | ⟨final, -, -, hwalk⟩
      · rw [hwalk] at hfail
        cases hfail
      · rw [hwalk] at hfail
        cases hfail
    · exact (attributeWalk_fails_of_not_fits _ (tracks_nil record) rfl hfits).bind _
  · rw [parseRecord_of_not_live hlive]
    exact iff_of_false (not_fails_ok _) fun h ↦ hlive h.1

/-! ## A range of records -/

/-- What a record yields when it is parsed alone; a failing parse yields nothing. -/
def recordYield (record : List UInt8) : List ParsedNtfsEntry × List ExtensionSizes :=
  (parseRecord record).toOption.elim ([], []) (collectOutcome ([], []))

def RecordInside (shared : List UInt8) (index : ℕ) : Prop :=
  index * ntfsRecordSize + ntfsRecordSize ≤ shared.length

theorem length_recordSlice {shared : List UInt8} {index : ℕ} (h : RecordInside shared index) :
    (recordSlice shared index).length = ntfsRecordSize := by
  unfold RecordInside at h
  unfold recordSlice
  rw [List.length_take, List.length_drop]
  omega

theorem collectOutcome_eq (collected : List ParsedNtfsEntry × List ExtensionSizes)
    (outcome : ParsedRecordOutcome) :
    collectOutcome collected outcome =
      (collected.1 ++ (collectOutcome ([], []) outcome).1,
        collected.2 ++ (collectOutcome ([], []) outcome).2) := by
  cases outcome <;> simp [collectOutcome]

theorem parseRecordAt_eq {shared : List UInt8} {index : ℕ} (h : RecordInside shared index)
    (collected : List ParsedNtfsEntry × List ExtensionSizes) :
    parseRecordAt shared collected index =
      (parseRecord (recordSlice shared index) >>= fun outcome ↦
        .ok (collectOutcome collected outcome)) := by
  unfold parseRecordAt
  rw [if_neg (Nat.not_lt.mpr h)]
  by_cases hsignature : (recordSlice shared index).take 4 ≠ fileRecordSignature
  · rw [if_pos hsignature, parseRecord_of_not_live fun hlive ↦ hsignature hlive.1]
    rfl
  · rw [if_neg hsignature]
    rfl

theorem parseRecordAt_of_ok {shared : List UInt8} {index : ℕ} (h : RecordInside shared index)
    {outcome : ParsedRecordOutcome} (hok : parseRecord (recordSlice shared index) = .ok outcome)
    (collected : List ParsedNtfsEntry × List ExtensionSizes) :
    parseRecordAt shared collected index =
      .ok (collected.1 ++ (recordYield (recordSlice shared index)).1,
        collected.2 ++ (recordYield (recordSlice shared index)).2) := by
  rw [parseRecordAt_eq h, hok, Parse.ok_bind, collectOutcome_eq, recordYield, hok]
  rfl

theorem recordYield_of_not_live (hlive : ¬ LiveRecord record) : recordYield record = ([], []) := by
  rw [recordYield, parseRecord_of_not_live hlive]
  rfl

/-- What the walk has gathered is reported unless it is nothing. -/
theorem collectOutcome_recordOutcome_eq_nil_iff (fileIndex : UInt32) (isDirectory : Bool)
    (baseRecord : UInt64) (final : AttributeState) :
    collectOutcome ([], []) (recordOutcome fileIndex isDirectory baseRecord final) = ([], []) ↔
      (baseRecord = 0 ∧ final.fileName.isSome = false) ∨
        (baseRecord ≠ 0 ∧ (final.sizeBytes, final.allocationBytes) = (0, 0)) := by
  unfold recordOutcome
  by_cases hbase : baseRecord = 0
  · cases hname : final.fileName <;> simp [hbase, collectOutcome]
  · by_cases hsizes : final.sizeBytes = 0 ∧ final.allocationBytes = 0
    · simp [hbase, hsizes, collectOutcome]
    · have hsome : final.sizeBytes ≠ 0 ∨ final.allocationBytes ≠ 0 := not_and_or.mp hsizes
      simp [hbase, hsome, hsizes, collectOutcome]

/-- A live record that fits yields nothing exactly when its attributes hold nothing. -/
theorem recordYield_eq_nil_iff (hlength : ntfsRecordSize ≤ record.length) (hlive : LiveRecord record)
    (hfits : RecordFits record) : recordYield record = ([], []) ↔ HoldsNothing record := by
  have hgives : WalkGives record (walkedOffsets record) (attributeWalk record
      (isDirectoryRecord record) (baseRecordOf record) (firstAttrOffsetOf record) {}) :=
    attributeWalk_gives _ (tracks_nil record) rfl hfits
  rw [recordYield, parseRecord_of_live hlength hlive]
  rcases hgives with ⟨hmalformed, hwalk⟩ | ⟨final, htracks, hnames, hwalk⟩
  · rw [hwalk]
    exact iff_of_true rfl (Or.inl hmalformed)
  · rw [hwalk, Parse.ok_bind, HoldsNothing, hnames, ← htracks.name, ← htracks.sizes]
    refine (collectOutcome_recordOutcome_eq_nil_iff _ _ _ final).trans ?_
    simp

/-- The yields of the records at these indices, in order. -/
def yields (shared : List UInt8) (indices : List ℕ) :
    List ParsedNtfsEntry × List ExtensionSizes :=
  (indices.flatMap (fun index ↦ (recordYield (recordSlice shared index)).1),
    indices.flatMap (fun index ↦ (recordYield (recordSlice shared index)).2))

/-- A fold over records is the concatenation of their yields when they all
parse, and fails when one of them does. -/
theorem foldlM_parseRecordAt (shared : List UInt8) (indices : List ℕ)
    (hinside : ∀ index ∈ indices, RecordInside shared index)
    (collected : List ParsedNtfsEntry × List ExtensionSizes) :
    indices.foldlM (parseRecordAt shared) collected =
        .ok (collected.1 ++ (yields shared indices).1, collected.2 ++ (yields shared indices).2) ↔
      ∀ index ∈ indices, ¬ Fails (parseRecord (recordSlice shared index)) := by
  induction indices generalizing collected with
  | nil => simp [yields, pure, Except.pure]
  | cons index rest ih =>
      have hhead := hinside index List.mem_cons_self
      have htail := fun i hi ↦ hinside i (List.mem_cons_of_mem index hi)
      rw [List.foldlM_cons]
      cases hparse : parseRecord (recordSlice shared index) with
      | error failure =>
          have hfails : Fails (parseRecord (recordSlice shared index)) := ⟨failure, hparse⟩
          rw [parseRecordAt_eq hhead, hparse]
          refine iff_of_false (fun h ↦ ?_) fun h ↦ h index List.mem_cons_self hfails
          cases h
      | ok outcome =>
          rw [parseRecordAt_of_ok hhead hparse, Parse.ok_bind, List.forall_mem_cons, hparse,
            and_iff_right (not_fails_ok outcome),
            ← ih htail (collected.1 ++ (recordYield (recordSlice shared index)).1,
              collected.2 ++ (recordYield (recordSlice shared index)).2)]
          simp [yields]

/-- The range parses to the concatenation of what its records yield alone, and
malformed records yield nothing. -/
def YieldsEachRecord (shared : List UInt8) (startRecord endRecord : ℕ) : Prop :=
  parseRecordRange shared startRecord endRecord =
      .ok (yields shared (List.range' startRecord (endRecord - startRecord))) ∧
    ∀ index, startRecord ≤ index → index < endRecord →
      MalformedRecord (recordSlice shared index) →
        recordYield (recordSlice shared index) = ([], [])

theorem recordInside_of_lt {shared : List UInt8} {index endRecord : ℕ} (hindex : index < endRecord)
    (hwhole : endRecord * ntfsRecordSize ≤ shared.length) : RecordInside shared index := by
  have hmul := Nat.mul_le_mul_right ntfsRecordSize (Nat.succ_le_of_lt hindex)
  unfold RecordInside
  rw [Nat.succ_mul] at hmul
  exact hmul.trans hwhole

/-- A range of whole records parses exactly when every live record in it fits. -/
theorem parseRecordRange_eq_ok_iff (shared : List UInt8) (startRecord endRecord : ℕ)
    (hwhole : endRecord * ntfsRecordSize ≤ shared.length) :
    parseRecordRange shared startRecord endRecord =
        .ok (yields shared (List.range' startRecord (endRecord - startRecord))) ↔
      ∀ index, startRecord ≤ index → index < endRecord →
        LiveRecord (recordSlice shared index) → RecordFits (recordSlice shared index) := by
  have hmem : ∀ index, index ∈ List.range' startRecord (endRecord - startRecord) ↔
      startRecord ≤ index ∧ index < endRecord := by
    intro index
    rw [List.mem_range'_1]
    omega
  have hinside : ∀ index ∈ List.range' startRecord (endRecord - startRecord),
      RecordInside shared index :=
    fun index hindex ↦ recordInside_of_lt ((hmem index).mp hindex).2 hwhole
  have hfold := foldlM_parseRecordAt shared _ hinside ([], [])
  rw [List.nil_append, List.nil_append] at hfold
  refine hfold.trans ⟨fun h index hstart hend hlive ↦ ?_, fun h index hindex hfails ↦ ?_⟩
  · have hindex := (hmem index).mpr ⟨hstart, hend⟩
    have hlength := (length_recordSlice (hinside index hindex)).ge
    by_contra hfits
    exact h index hindex ((parseRecord_fails_iff hlength).mpr ⟨hlive, hfits⟩)
  · have hlength := (length_recordSlice (hinside index hindex)).ge
    obtain ⟨hlive, hfits⟩ := (parseRecord_fails_iff hlength).mp hfails
    exact hfits (h index ((hmem index).mp hindex).1 ((hmem index).mp hindex).2 hlive)

/-- A range of whole records yields what its records yield alone, and nothing for
malformed ones, exactly when every live record in it is well formed, or has the
bytes that the walk reads and holds nothing where the walk comes. -/
theorem yieldsEachRecord_iff (shared : List UInt8) (startRecord endRecord : ℕ)
    (hwhole : endRecord * ntfsRecordSize ≤ shared.length) :
    YieldsEachRecord shared startRecord endRecord ↔
      ∀ index, startRecord ≤ index → index < endRecord → LiveRecord (recordSlice shared index) →
        WellFormed (recordSlice shared index) ∨
          (RecordFits (recordSlice shared index) ∧ HoldsNothing (recordSlice shared index)) := by
  have hlength : ∀ index, index < endRecord →
      ntfsRecordSize ≤ (recordSlice shared index).length :=
    fun index hend ↦ (length_recordSlice (recordInside_of_lt hend hwhole)).ge
  rw [YieldsEachRecord, parseRecordRange_eq_ok_iff shared startRecord endRecord hwhole]
  constructor
  · rintro ⟨hfits, hmalformed⟩ index hstart hend hlive
    refine or_iff_not_imp_left.mpr fun hnot ↦ ⟨hfits index hstart hend hlive, ?_⟩
    exact (recordYield_eq_nil_iff (hlength index hend) hlive (hfits index hstart hend hlive)).mp
      (hmalformed index hstart hend (Or.inr hnot))
  · intro h
    refine ⟨fun index hstart hend hlive ↦ ?_, fun index hstart hend hmalformed ↦ ?_⟩
    · exact (h index hstart hend hlive).elim WellFormed.recordFits And.left
    · by_cases hlive : LiveRecord (recordSlice shared index)
      · obtain ⟨hfits, hnothing⟩ := (h index hstart hend hlive).resolve_left
          (hmalformed.resolve_left (not_not.mpr hlive.1))
        exact (recordYield_eq_nil_iff (hlength index hend) hlive hfits).mpr hnothing
      · exact recordYield_of_not_live hlive

/-- A live record of 1024 bytes, given the bytes from its first attribute on. -/
def recordWithAttributes (firstAttrOffset : UInt16) (before : ℕ) (attributes : List UInt8) :
    List UInt8 :=
  fileRecordSignature ++ List.replicate 16 0 ++ ByteCodec.leBytes 2 firstAttrOffset.toNat ++ [1, 0] ++
    List.replicate before 0 ++ attributes

theorem length_recordWithAttributes (firstAttrOffset : UInt16) (before : ℕ) (attributes : List UInt8) :
    (recordWithAttributes firstAttrOffset before attributes).length = 24 + before + attributes.length := by
  simp only [recordWithAttributes, fileRecordSignature, List.length_append, List.length_replicate,
    ByteCodec.length_leBytes, List.length_cons, List.length_nil]

/-- A file `a` under the root, given the bytes behind its name. -/
def recordNamed (behind : List UInt8) : List UInt8 :=
  recordWithAttributes 56 32 ([0x30, 0, 0, 0, 96, 0, 0, 0, 0, 0, 0, 0, 0, 0, 0, 0, 68, 0, 0, 0, 24, 0, 0, 0,
    5, 0, 0, 0, 0, 0, 0, 0] ++ List.replicate 56 0 ++ [1, 1, 0x61, 0, 0, 0, 0, 0] ++ behind)

theorem length_recordNamed (behind : List UInt8) : (recordNamed behind).length = 152 + behind.length := by
  rw [recordNamed, length_recordWithAttributes]
  simp only [List.length_append, List.length_replicate, List.length_cons, List.length_nil]
  omega

def namedRecord : List UInt8 := recordNamed ([0xFF, 0xFF, 0xFF, 0xFF] ++ List.replicate 868 0)

theorem length_namedRecord : namedRecord.length = ntfsRecordSize := by
  rw [namedRecord, length_recordNamed, List.length_append, List.length_replicate]
  rfl

theorem wellFormed_namedRecord : WellFormed namedRecord := by
  have hfirst : firstAttrOffsetOf namedRecord = 56 := by decide +kernel
  have hoffsets : attributeOffsets namedRecord 56 = [56] := by
    rw [attributeOffsets, dif_pos (by decide +kernel), attributeOffsets, dif_neg (by decide +kernel)]
  have hend : attributesEnd namedRecord 56 = 152 := by
    rw [attributesEnd, dif_pos (by decide +kernel), attributesEnd, dif_neg (by decide +kernel)]
    decide +kernel
  rw [WellFormed, hfirst, hoffsets, hend, List.forall_mem_singleton]
  unfold WholeAttribute EndMarkerAt
  decide +kernel

/-- The attribute behind the name ends far behind the record. -/
def cutRecord : List UInt8 := recordNamed ([0x80, 0, 0, 0, 0xFF, 0x0F, 0, 0] ++ List.replicate 864 0)

theorem length_cutRecord : cutRecord.length = ntfsRecordSize := by
  rw [cutRecord, length_recordNamed, List.length_append, List.length_replicate]
  rfl

/-- Its name is reported all the same. -/
theorem cutRecord_yields : MalformedRecord cutRecord ∧ recordYield cutRecord ≠ ([], []) := by
  have hfirst : firstAttrOffsetOf cutRecord = 56 := by decide +kernel
  have hoffsets : attributeOffsets cutRecord 56 = [56] := by
    rw [attributeOffsets, dif_pos (by decide +kernel), attributeOffsets, dif_neg (by decide +kernel)]
  have hend : attributesEnd cutRecord 56 = 152 := by
    rw [attributesEnd, dif_pos (by decide +kernel), attributesEnd, dif_neg (by decide +kernel)]
    decide +kernel
  constructor
  · refine Or.inr fun hwell ↦ ?_
    have hmarker := hwell.2
    rw [hfirst, hend] at hmarker
    exact absurd hmarker.2 (by decide +kernel)
  · have hlive : LiveRecord cutRecord := by
      unfold LiveRecord
      decide +kernel
    have hfits : RecordFits cutRecord := by
      rw [RecordFits, hfirst, hoffsets]
      exact ⟨by decide +kernel, Or.inr trivial⟩
    have hwalked : walkedOffsets cutRecord = [56] := by
      rw [walkedOffsets, hfirst, hoffsets]
      decide +kernel
    rw [Ne, recordYield_eq_nil_iff length_cutRecord.ge hlive hfits, HoldsNothing, hwalked]
    decide +kernel

/-- A live record whose only attribute header starts eight bytes before its end. -/
def shortRecord : List UInt8 := recordWithAttributes 1016 992 [0x10, 0, 0, 0, 8, 0, 0, 0]

theorem length_shortRecord : shortRecord.length = ntfsRecordSize := by
  rw [shortRecord, length_recordWithAttributes]
  rfl

theorem parseRecord_shortRecord : parseRecord shortRecord = .error .panic := by
  have hfirst : firstAttrOffsetOf shortRecord = 1016 := by decide +kernel
  have hlive : LiveRecord shortRecord := by
    unfold LiveRecord
    decide +kernel
  have hheader : HeaderAt shortRecord 1016 := by decide +kernel
  rw [parseRecord_of_live length_shortRecord.ge hlive, hfirst, attributeWalk_of_header hheader,
    indexByte, unchecked_of_lt (by rw [length_shortRecord]; decide)]
  rfl

theorem recordSlice_append (first second : List UInt8) (hfirst : first.length = ntfsRecordSize)
    (hsecond : second.length = ntfsRecordSize) :
    recordSlice (first ++ second) 0 = first ∧ recordSlice (first ++ second) 1 = second := by
  refine ⟨?_, ?_⟩
  · rw [recordSlice, Nat.zero_mul, List.drop_zero, List.take_left' hfirst]
  · rw [recordSlice, Nat.one_mul, List.drop_left' hfirst, List.take_of_length_le hsecond.le]

theorem yieldsEachRecord_namedRecord :
    YieldsEachRecord (namedRecord ++ List.replicate 1024 0) 0 2 := by
  have hlength : (namedRecord ++ List.replicate 1024 0).length = 2 * ntfsRecordSize := by
    rw [List.length_append, length_namedRecord, List.length_replicate]
    rfl
  obtain ⟨hfirst, hsecond⟩ := recordSlice_append namedRecord (List.replicate 1024 0)
    length_namedRecord List.length_replicate
  refine (yieldsEachRecord_iff _ 0 2 hlength.ge).mpr fun index _ hend hlive ↦ ?_
  obtain rfl | rfl : index = 0 ∨ index = 1 := by omega
  · rw [hfirst]
    exact Or.inl wellFormed_namedRecord
  · have hsignature := hlive.1
    rw [hsecond, List.take_replicate] at hsignature
    exact absurd hsignature (by decide)

/-- One record ends the parse of the healthy record before it, another one that is
cut off yields an entry. -/
theorem range_with_shortRecord_panics :
    (parseRecordRange (namedRecord ++ shortRecord) 0 2 = .error .panic ∧
      ¬ YieldsEachRecord (namedRecord ++ shortRecord) 0 2) ∧
    ¬ YieldsEachRecord cutRecord 0 1 := by
  have hlength : (namedRecord ++ shortRecord).length = 2 * ntfsRecordSize := by
    rw [List.length_append, length_namedRecord, length_shortRecord]
    rfl
  obtain ⟨hfirst, hsecond⟩ := recordSlice_append namedRecord shortRecord length_namedRecord
    length_shortRecord
  have hok : ¬ Fails (parseRecord namedRecord) := fun h ↦
    ((parseRecord_fails_iff length_namedRecord.ge).mp h).2 wellFormed_namedRecord.recordFits
  have hinside : ∀ index < 2, RecordInside (namedRecord ++ shortRecord) index := by
    intro index hindex
    unfold RecordInside
    rw [hlength]
    unfold ntfsRecordSize
    omega
  have hpanic : parseRecordRange (namedRecord ++ shortRecord) 0 2 = .error .panic := by
    cases hparse : parseRecord namedRecord with
    | error failure => exact (hok ⟨failure, hparse⟩).elim
    | ok outcome =>
        rw [← hfirst] at hparse
        have hrange : List.range' 0 (2 - 0) = [0, 1] := rfl
        rw [parseRecordRange, hrange, List.foldlM_cons,
          parseRecordAt_of_ok (hinside 0 (by decide)) hparse, Parse.ok_bind, List.foldlM_cons,
          parseRecordAt_eq (hinside 1 (by decide)), hsecond, parseRecord_shortRecord]
        rfl
  refine ⟨⟨hpanic, fun h ↦ ?_⟩, fun h ↦ ?_⟩
  · have hok' := h.1
    rw [hpanic] at hok'
    cases hok'
  · have hslice : recordSlice cutRecord 0 = cutRecord := by
      rw [recordSlice, Nat.zero_mul, List.drop_zero, List.take_of_length_le length_cutRecord.le]
    have hnothing := h.2 0 le_rfl Nat.one_pos
    rw [hslice] at hnothing
    exact cutRecord_yields.2 (hnothing cutRecord_yields.1)

end Ntfs

end WinBlaze
