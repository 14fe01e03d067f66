import WinBlaze.Scanner.Ntfs.ParserThread

/-!
# Every delivery parses to the same records

However a stream is cut into blocks and the blocks into chunks, what is parsed
are the whole records of the stream after their fixups, in order. A record that
does not parse ends the parse, wherever it lies.
-/

namespace WinBlaze

namespace Ntfs

open Saturating

/-! ## Fixups keep the records apart -/

section Fixups

variable {bytesPerSector usaOffset : ℕ} {usn record restored : List UInt8}

theorem length_fixupSector {index : ℕ}
    (h : fixupSector bytesPerSector usaOffset usn record index = some restored) :
    restored.length = record.length := by
  unfold fixupSector at h
  simp only at h
  split at h
  · cases h
  · split at h
    · cases h
    · obtain rfl := Option.some.inj h
      simp

theorem length_restoreSectors (indices : List ℕ) (record : List UInt8) :
    (restoreSectors bytesPerSector usaOffset usn indices record).1.length = record.length := by
  induction indices generalizing record with
  | nil => rfl
  | cons index rest ih =>
      rw [restoreSectors]
      split
      · rename_i restored hrestored
        exact (ih restored).trans (length_fixupSector hrestored)
      · rfl

theorem length_restoreRecord (bytesPerSector : ℕ) (record : List UInt8) :
    (restoreRecord bytesPerSector record).1.length = record.length := by
  unfold restoreRecord
  split
  · rfl
  · dsimp only
    split
    · rfl
    · exact length_restoreSectors _ _

/-- The check of the sectors and their repair in place agree. -/
theorem foldlM_fixupSector (indices : List ℕ) (record : List UInt8) :
    indices.foldlM (fixupSector bytesPerSector usaOffset usn) record =
      if (restoreSectors bytesPerSector usaOffset usn indices record).2 then
        some (restoreSectors bytesPerSector usaOffset usn indices record).1
      else none := by
  induction indices generalizing record with
  | nil => rfl
  | cons index rest ih =>
      rw [List.foldlM_cons, restoreSectors]
      cases hsector : fixupSector bytesPerSector usaOffset usn record index with
      | none => rfl
      | some restored => exact ih restored

theorem applyRecordFixups_eq (bytesPerSector : ℕ) (record : List UInt8) :
    applyRecordFixups record bytesPerSector =
      if (restoreRecord bytesPerSector record).2 then some (restoreRecord bytesPerSector record).1
      else none := by
  unfold applyRecordFixups restoreRecord
  by_cases hshort : record.length < 8 ∨ bytesPerSector < 2
  · simp only [if_pos hshort]
    rfl
  · simp only [if_neg hshort]
    by_cases hcount : (u16At record 6).toNat < 2 ∨
        (u16At record 4).toNat + (u16At record 6).toNat * 2 > record.length
    · simp only [if_pos hcount]
      rfl
    · simp only [if_neg hcount]
      exact foldlM_fixupSector _ record

theorem length_fixupRecord (bytesPerSector : ℕ) (record : List UInt8) :
    (fixupRecord bytesPerSector record).length = record.length := by
  have hlength := length_restoreRecord bytesPerSector record
  unfold fixupRecord
  split
  · rename_i hsignature
    have hfour : 4 ≤ record.length := by
      have htake := congrArg List.length hsignature
      rw [List.length_take, fileRecordSignature] at htake
      simp only [List.length_cons, List.length_nil] at htake
      omega
    dsimp only
    split
    · exact hlength
    · rw [List.length_append, List.length_drop, hlength, tornSignature]
      simp only [List.length_cons, List.length_nil]
      omega
  · rfl

theorem ntfsRecordSize_pos : 0 < ntfsRecordSize := by decide

theorem length_applyMftFixups (bytesPerSector : ℕ) (batch : List UInt8) :
    (applyMftFixups bytesPerSector batch).length = batch.length := by
  induction batch using applyMftFixups.induct with
  | case1 batch h ih =>
      rw [applyMftFixups, if_pos h, List.length_append, ih, length_fixupRecord, List.length_take,
        List.length_drop]
      omega
  | case2 batch h => rw [applyMftFixups, if_neg h]

/-- The fixups of a buffer are those of its records. -/
theorem blocks_applyMftFixups (bytesPerSector : ℕ) (batch : List UInt8) :
    Blocks.blocks ntfsRecordSize (applyMftFixups bytesPerSector batch) =
      (Blocks.blocks ntfsRecordSize batch).map (fixupRecord bytesPerSector) := by
  induction batch using applyMftFixups.induct with
  | case1 batch h ih =>
      have htake : (batch.take ntfsRecordSize).length = ntfsRecordSize := List.length_take_of_le h
      have hfixed : (fixupRecord bytesPerSector (batch.take ntfsRecordSize)).length =
          ntfsRecordSize := (length_fixupRecord _ _).trans htake
      have hbatch : Blocks.blocks ntfsRecordSize batch =
          [batch.take ntfsRecordSize] ++
            Blocks.blocks ntfsRecordSize (batch.drop ntfsRecordSize) := by
        have happend := Blocks.blocks_append ntfsRecordSize_pos (dvd_of_eq htake.symm)
          (batch.drop ntfsRecordSize)
        rwa [List.take_append_drop, Blocks.blocks_self ntfsRecordSize_pos htake] at happend
      rw [applyMftFixups, if_pos h, Blocks.blocks_append ntfsRecordSize_pos
        (dvd_of_eq hfixed.symm), Blocks.blocks_self ntfsRecordSize_pos hfixed, ih, hbatch]
      rfl
  | case2 batch h =>
      rw [applyMftFixups, if_neg h, Blocks.blocks_of_lt (not_le.mp h)]
      rfl

end Fixups

/-! ## Parses of records -/

/-- What records yield when each is parsed alone, in order. -/
def recordsYield (records : List (List UInt8)) : ParsedRecords :=
  (records.flatMap (fun record ↦ (recordYield record).1),
    records.flatMap (fun record ↦ (recordYield record).2))

/-- A parse of these records: it has what they yield, and fails when one of
them does not parse. -/
structure Delivers (parse : Parse ParsedRecords) (records : List (List UInt8)) : Prop where
  whole : (∀ record ∈ records, ¬Fails (parseRecord record)) → parse = .ok (recordsYield records)
  fails : (∃ record ∈ records, Fails (parseRecord record)) → Fails parse

theorem recordsYield_append (front rest : List (List UInt8)) :
    recordsYield (front ++ rest) =
      ((recordsYield front).1 ++ (recordsYield rest).1,
        (recordsYield front).2 ++ (recordsYield rest).2) := by
  simp [recordsYield]

theorem foldlM_parseRecordAt_fails (shared : List UInt8) (indices : List ℕ)
    (hinside : ∀ index ∈ indices, RecordInside shared index)
    (collected : ParsedRecords)
    (hfails : ∃ index ∈ indices, Fails (parseRecord (recordSlice shared index))) :
    Fails (indices.foldlM (parseRecordAt shared) collected) := by
  induction indices generalizing collected with
  | nil =>
      obtain ⟨index, hmem, -⟩ := hfails
      cases hmem
  | cons index rest ih =>
      have hhead := hinside index List.mem_cons_self
      have htail := fun i hi ↦ hinside i (List.mem_cons_of_mem index hi)
      rw [List.foldlM_cons, parseRecordAt_eq hhead]
      cases hparse : parseRecord (recordSlice shared index) with
      | error failure => exact ⟨failure, rfl⟩
      | ok outcome =>
          obtain ⟨other, hmem, hother⟩ := hfails
          rcases List.mem_cons.mp hmem with rfl | hrest
          · rw [hparse] at hother
            exact absurd hother (not_fails_ok outcome)
          · exact ih htail _ ⟨other, hrest, hother⟩

/-- A range of whole records is a parse of these records. -/
theorem delivers_parseRecordRange {shared : List UInt8} (startRecord : ℕ) {endRecord : ℕ}
    (hend : endRecord * ntfsRecordSize ≤ shared.length) :
    Delivers (parseRecordRange shared startRecord endRecord)
      ((List.range' startRecord (endRecord - startRecord)).map (recordSlice shared)) := by
  have hinside : ∀ index ∈ List.range' startRecord (endRecord - startRecord),
      RecordInside shared index := by
    intro index hindex
    have hlt : index + 1 ≤ endRecord := by
      have hbounds := List.mem_range'_1.mp hindex
      omega
    have hmul := Nat.mul_le_mul_right ntfsRecordSize hlt
    rw [Nat.succ_mul] at hmul
    exact hmul.trans hend
  constructor
  · intro hall
    have hfold := (foldlM_parseRecordAt shared _ hinside ([], [])).mpr fun index hindex ↦
      hall _ (List.mem_map_of_mem hindex)
    rw [parseRecordRange, hfold]
    simp [yields, recordsYield, List.flatMap_map]
  · rintro ⟨record, hrecord, hfails⟩
    obtain ⟨index, hindex, rfl⟩ := List.mem_map.mp hrecord
    exact foldlM_parseRecordAt_fails shared _ hinside ([], []) ⟨index, hindex, hfails⟩

theorem delivers_parseRecordRange_blocks {shared : List UInt8} {recordCount : ℕ}
    (hlength : shared.length = recordCount * ntfsRecordSize) :
    Delivers (parseRecordRange shared 0 recordCount) (Blocks.blocks ntfsRecordSize shared) := by
  have hcount : shared.length / ntfsRecordSize = recordCount := by
    rw [hlength, Nat.mul_div_cancel _ ntfsRecordSize_pos]
  have hrange := delivers_parseRecordRange 0 hlength.ge
  rw [Nat.sub_zero, ← List.range_eq_range'] at hrange
  rw [Blocks.blocks, hcount]
  exact hrange

/-- Fixups and parse of a buffer of whole records. -/
theorem delivers_applyMftFixups {batch : List UInt8} {recordCount : ℕ} (bytesPerSector : ℕ)
    (hlength : batch.length = recordCount * ntfsRecordSize) :
    Delivers (parseRecordRange (applyMftFixups bytesPerSector batch) 0 recordCount)
      ((Blocks.blocks ntfsRecordSize batch).map (fixupRecord bytesPerSector)) := by
  rw [← blocks_applyMftFixups]
  exact delivers_parseRecordRange_blocks ((length_applyMftFixups _ _).trans hlength)

/-! ## Workers -/

theorem Delivers.fails_or_whole {parse : Parse ParsedRecords} {records : List (List UInt8)}
    (h : Delivers parse records) :
    Fails parse ∧ (∃ record ∈ records, Fails (parseRecord record)) ∨
      parse = .ok (recordsYield records) ∧ ∀ record ∈ records, ¬Fails (parseRecord record) := by
  by_cases hall : ∀ record ∈ records, ¬Fails (parseRecord record)
  · exact Or.inr ⟨h.whole hall, hall⟩
  · simp only [not_forall, not_not] at hall
    obtain ⟨record, hmem, hfails⟩ := hall
    exact Or.inl ⟨h.fails ⟨record, hmem, hfails⟩, record, hmem, hfails⟩

/-- The joined workers parse the records of all of them. -/
theorem delivers_joinWorkers {handles : List (Parse ParsedRecords)}
    {pieces : List (List (List UInt8))} (h : List.Forall₂ Delivers handles pieces) :
    Delivers (joinWorkers handles) pieces.flatten := by
  induction h with
  | nil => exact ⟨fun _ ↦ rfl, by simp⟩
  | @cons handle piece handles pieces hhead htail ih =>
      rw [List.flatten_cons]
      rcases hhead.fails_or_whole with ⟨⟨failure, rfl⟩, hbad⟩ | ⟨rfl, hgood⟩
      · have hfails : Fails (joinWorkers (.error failure :: handles)) := by
          rw [joinWorkers]
          split <;> exact ⟨_, rfl⟩
        refine ⟨fun hall ↦ ?_, fun _ ↦ hfails⟩
        obtain ⟨record, hmem, hrecord⟩ := hbad
        exact absurd hrecord (hall record (List.mem_append_left _ hmem))
      · rw [joinWorkers]
        constructor
        · intro hall
          rw [ih.whole fun record hmem ↦ hall record (List.mem_append_right _ hmem),
            recordsYield_append]
          rfl
        · rintro ⟨record, hmem, hrecord⟩
          rcases List.mem_append.mp hmem with hfront | hrest
          · exact absurd hrecord (hgood record hfront)
          · exact (ih.fails ⟨record, hrest, hrecord⟩).bind _

/-- Workers on consecutive chunks get all whole records of the buffer. -/
theorem delivers_fixupWorkers (bytesPerSector : ℕ) {ranges : List (ℕ × ℕ)} {first stop : ℕ}
    (htiles : Blocks.Tiles ranges first stop) {remaining : List UInt8}
    (hlength : remaining.length = (stop - first) * ntfsRecordSize) :
    ∃ handles pieces, fixupWorkers bytesPerSector ranges remaining = .ok handles ∧
      List.Forall₂ Delivers handles pieces ∧
      pieces.flatten = (Blocks.blocks ntfsRecordSize remaining).map (fixupRecord bytesPerSector) := by
  induction ranges generalizing first remaining with
  | nil =>
      obtain rfl : first = stop := htiles
      rw [Nat.sub_self, Nat.zero_mul] at hlength
      refine ⟨[], [], rfl, List.Forall₂.nil, ?_⟩
      rw [Blocks.blocks_of_lt (by rw [hlength]; exact ntfsRecordSize_pos)]
      rfl
  | cons range rest ih =>
      obtain ⟨rfl, hle, hrest⟩ := htiles
      have hstop := hrest.le
      have hsplit : (stop - range.1) * ntfsRecordSize =
          (range.2 - range.1) * ntfsRecordSize + (stop - range.2) * ntfsRecordSize := by
        rw [← Nat.add_mul]
        congr 1
        omega
      have htake : (remaining.take ((range.2 - range.1) * ntfsRecordSize)).length =
          (range.2 - range.1) * ntfsRecordSize := List.length_take_of_le (by omega)
      have hdrop : (remaining.drop ((range.2 - range.1) * ntfsRecordSize)).length =
          (stop - range.2) * ntfsRecordSize := by
        rw [List.length_drop]
        omega
      obtain ⟨handles, pieces, hhandles, hdelivers, hpieces⟩ := ih hrest hdrop
      refine ⟨_, (Blocks.blocks ntfsRecordSize
          (remaining.take ((range.2 - range.1) * ntfsRecordSize))).map
            (fixupRecord bytesPerSector) :: pieces, ?_,
        List.Forall₂.cons (delivers_applyMftFixups bytesPerSector htake) hdelivers, ?_⟩
      · rw [fixupWorkers]
        simp only [if_neg (not_lt.mpr (show (range.2 - range.1) * ntfsRecordSize ≤
          remaining.length by omega)), hhandles]
        rfl
      · have hdvd : ntfsRecordSize ∣ (remaining.take ((range.2 - range.1) * ntfsRecordSize)).length := by
          rw [htake]
          exact Nat.dvd_mul_left _ _
        have happend := Blocks.blocks_append ntfsRecordSize_pos hdvd
          (remaining.drop ((range.2 - range.1) * ntfsRecordSize))
        rw [List.take_append_drop] at happend
        rw [List.flatten_cons, hpieces, ← List.map_append, ← happend]

theorem le_mul_ceilDiv {workers : ℕ} (hworkers : 0 < workers) (recordCount : ℕ) :
    recordCount ≤ workers * (recordCount ⌈/⌉ workers) :=
  le_smul_ceilDiv hworkers

theorem delivers_fixupAndParseBatch {batch : List UInt8} {recordCount : ℕ}
    (workers bytesPerSector : ℕ) (hlength : batch.length = recordCount * ntfsRecordSize) :
    Delivers (fixupAndParseBatch batch recordCount workers bytesPerSector)
      ((Blocks.blocks ntfsRecordSize batch).map (fixupRecord bytesPerSector)) := by
  rw [fixupAndParseBatch]
  split
  · exact delivers_applyMftFixups bytesPerSector hlength
  · have htiles := Blocks.tiles_chunkRanges_zero
      (le_mul_ceilDiv (by omega : 0 < workers) recordCount)
    obtain ⟨handles, pieces, hhandles, hdelivers, hpieces⟩ :=
      delivers_fixupWorkers bytesPerSector htiles (by rwa [Nat.sub_zero])
    simp only [hhandles, Parse.ok_bind]
    rw [← hpieces]
    exact delivers_joinWorkers hdelivers

/-! ## Blocks -/

/-- The stream that arrives: an empty block ends it. -/
def deliveredStream (blocks : List (List UInt8)) : List UInt8 :=
  (blocks.takeWhile (fun block ↦ !block.isEmpty)).flatten

/-- The records of a stream after their fixups. -/
def streamRecords (bytesPerSector : ℕ) (stream : List UInt8) : List (List UInt8) :=
  (Blocks.blocks ntfsRecordSize stream).map (fixupRecord bytesPerSector)

/-- What was sent, in the order it was sent. -/
def forwarded (messages : List ParsedBatch) : ParsedRecords :=
  (messages.flatMap ParsedBatch.entries, messages.flatMap ParsedBatch.extensions)

/-- A run over these records: it sends what they yield and ends well, or fails
when one of them does not parse. -/
structure Forwards (run : List ParsedBatch × Option ParseFailure) (records : List (List UInt8)) :
    Prop where
  whole : (∀ record ∈ records, ¬Fails (parseRecord record)) →
    run.2 = none ∧ forwarded run.1 = recordsYield records
  fails : (∃ record ∈ records, Fails (parseRecord record)) → run.2 ≠ none

/-- Both ways of taking records out of a block are one. -/
theorem takeRecords_eq (carry block : List UInt8) :
    takeRecords carry block =
      ((carry ++ block).take ((carry ++ block).length / ntfsRecordSize * ntfsRecordSize),
        (carry ++ block).length / ntfsRecordSize,
        (carry ++ block).drop ((carry ++ block).length / ntfsRecordSize * ntfsRecordSize)) := by
  unfold takeRecords
  by_cases hdirect : carry.isEmpty ∧ block.length % ntfsRecordSize = 0
  · obtain ⟨hcarry, hmod⟩ := hdirect
    obtain rfl := List.isEmpty_iff.mp hcarry
    have hlength : block.length / ntfsRecordSize * ntfsRecordSize = block.length :=
      Nat.div_mul_cancel (Nat.dvd_of_mod_eq_zero hmod)
    simp [hmod, hlength]
  · rw [if_neg hdirect]

theorem deliveredStream_cons {block : List UInt8} (hblock : block ≠ []) (rest : List (List UInt8)) :
    deliveredStream (block :: rest) = block ++ deliveredStream rest := by
  simp [deliveredStream, hblock]

theorem streamRecords_take (bytesPerSector : ℕ) (joined rest : List UInt8) :
    streamRecords bytesPerSector (joined ++ rest) =
      (Blocks.blocks ntfsRecordSize
        (joined.take (joined.length / ntfsRecordSize * ntfsRecordSize))).map
          (fixupRecord bytesPerSector) ++
        streamRecords bytesPerSector
          (joined.drop (joined.length / ntfsRecordSize * ntfsRecordSize) ++ rest) := by
  have happend := Blocks.blocks_append ntfsRecordSize_pos
    (Blocks.dvd_length_take ntfsRecordSize joined)
    (joined.drop (joined.length / ntfsRecordSize * ntfsRecordSize) ++ rest)
  rw [← List.append_assoc, List.take_append_drop] at happend
  rw [streamRecords, happend, List.map_append, streamRecords]

theorem forwards_nil (bytesPerSector : ℕ) {carry : List UInt8}
    (hcarry : carry.length < ntfsRecordSize) :
    Forwards ([], none) (streamRecords bytesPerSector (carry ++ [])) := by
  rw [List.append_nil, streamRecords, Blocks.blocks_of_lt hcarry]
  exact ⟨fun _ ↦ ⟨rfl, rfl⟩, by simp⟩

/-- One block adds the whole records it completes, and the rest is carried on. -/
theorem forwards_runParser (workers bytesPerSector : ℕ) (blocks : List (List UInt8))
    {carry : List UInt8} (hcarry : carry.length < ntfsRecordSize) (processedRecords : UInt64) :
    Forwards (runParser workers bytesPerSector (blocks.map .ok) carry processedRecords)
      (streamRecords bytesPerSector (carry ++ deliveredStream blocks)) := by
  induction blocks generalizing carry processedRecords with
  | nil => exact forwards_nil bytesPerSector hcarry
  | cons block rest ih =>
      rw [List.map_cons, runParser]
      by_cases hempty : block = []
      · subst hempty
        exact forwards_nil bytesPerSector hcarry
      · have hjoined : (carry ++ block).length / ntfsRecordSize * ntfsRecordSize ≤
            (carry ++ block).length := Nat.div_mul_le_self _ _
        have hbatch : ((carry ++ block).take
            ((carry ++ block).length / ntfsRecordSize * ntfsRecordSize)).length =
              (carry ++ block).length / ntfsRecordSize * ntfsRecordSize :=
          List.length_take_of_le hjoined
        have hrest : ((carry ++ block).drop
            ((carry ++ block).length / ntfsRecordSize * ntfsRecordSize)).length <
              ntfsRecordSize := by
          have hmod := Nat.mod_lt (carry ++ block).length ntfsRecordSize_pos
          have hdiv := Nat.div_add_mod' (carry ++ block).length ntfsRecordSize
          rw [List.length_drop]
          omega
        rw [deliveredStream_cons hempty, ← List.append_assoc, streamRecords_take]
        simp only [List.isEmpty_iff, hempty, if_false, takeRecords_eq]
        have hdelivers := delivers_fixupAndParseBatch workers bytesPerSector hbatch
        rcases hdelivers.fails_or_whole with ⟨⟨failure, hfailure⟩, hbad⟩ | ⟨hok, hgood⟩
        · rw [hfailure]
          refine ⟨fun hall ↦ ?_, fun _ ↦ Option.some_ne_none failure⟩
          obtain ⟨record, hmem, hrecord⟩ := hbad
          exact absurd hrecord (hall record (List.mem_append_left _ hmem))
        · rw [hok]
          have hlater := ih hrest (satAdd processedRecords
            (.ofNat ((carry ++ block).length / ntfsRecordSize)))
          constructor
          · intro hall
            obtain ⟨hnone, hyield⟩ :=
              hlater.whole fun record hmem ↦ hall record (List.mem_append_right _ hmem)
            refine ⟨hnone, ?_⟩
            rw [recordsYield_append, ← hyield]
            rfl
          · rintro ⟨record, hmem, hrecord⟩
            rcases List.mem_append.mp hmem with hfront | hlast
            · exact absurd hrecord (hgood record hfront)
            · exact hlater.fails ⟨record, hlast, hrecord⟩

/-- The thread ends well and has sent what the records yield. -/
def ForwardsEachRecord (workers bytesPerSector : ℕ) (blocks : List (List UInt8)) : Prop :=
  (runParser workers bytesPerSector (blocks.map .ok) [] 0).2 = none ∧
    forwarded (runParser workers bytesPerSector (blocks.map .ok) [] 0).1 =
      recordsYield (streamRecords bytesPerSector (deliveredStream blocks))

theorem length_of_mem_streamRecords {bytesPerSector : ℕ} {stream record : List UInt8}
    (h : record ∈ streamRecords bytesPerSector stream) : record.length = ntfsRecordSize := by
  obtain ⟨block, hblock, rfl⟩ := List.mem_map.mp h
  exact (length_fixupRecord _ _).trans (Blocks.length_of_mem_blocks hblock)

theorem forwardsEachRecord_iff_fits (workers bytesPerSector : ℕ) (blocks : List (List UInt8)) :
    ForwardsEachRecord workers bytesPerSector blocks ↔
      ∀ record ∈ streamRecords bytesPerSector (deliveredStream blocks),
        LiveRecord record → RecordFits record := by
  have hcarry : ([] : List UInt8).length < ntfsRecordSize := ntfsRecordSize_pos
  have hrun := forwards_runParser workers bytesPerSector blocks hcarry 0
  rw [List.nil_append] at hrun
  constructor
  · intro h record hmem hlive
    by_contra hfits
    have hfails := (parseRecord_fails_iff (length_of_mem_streamRecords hmem).ge).mpr ⟨hlive, hfits⟩
    exact hrun.fails ⟨record, hmem, hfails⟩ h.1
  · intro hall
    refine hrun.whole fun record hmem hfails ↦ ?_
    obtain ⟨hlive, hfits⟩ :=
      (parseRecord_fails_iff (length_of_mem_streamRecords hmem).ge).mp hfails
    exact hfits (hall record hmem hlive)

/-! ## One buffer, with and without workers -/

/-- The collection with the entries and extensions of more records. -/
def CollectedRecords.addAll (collected : CollectedRecords) (parsed : ParsedRecords) :
    CollectedRecords where
  entries := parsed.1.foldl KeyedArena.insert collected.entries
  extensions := collected.extensions ++ parsed.2

/-- A collection of these records: it adds what they yield, and fails when one
of them does not parse. -/
structure Collects (parse : Parse CollectedRecords) (collected : CollectedRecords)
    (records : List (List UInt8)) : Prop where
  whole : (∀ record ∈ records, ¬Fails (parseRecord record)) →
    parse = .ok (collected.addAll (recordsYield records))
  fails : (∃ record ∈ records, Fails (parseRecord record)) → Fails parse

theorem CollectedRecords.addAll_append (collected : CollectedRecords)
    (front rest : List (List UInt8)) :
    collected.addAll (recordsYield (front ++ rest)) =
      (collected.addAll (recordsYield front)).addAll (recordsYield rest) := by
  simp [CollectedRecords.addAll, recordsYield_append]

/-- Two collections of the same records hand over the same entries, if any. -/
theorem Collects.handedEntries_eq {parse parse' : Parse CollectedRecords}
    {collected : CollectedRecords} {records : List (List UInt8)}
    (h : Collects parse collected records) (h' : Collects parse' collected records) :
    (handedEntries parse).toOption = (handedEntries parse').toOption := by
  by_cases hall : ∀ record ∈ records, ¬Fails (parseRecord record)
  · rw [h.whole hall, h'.whole hall]
  · simp only [not_forall, not_not] at hall
    obtain ⟨record, hmem, hfails⟩ := hall
    obtain ⟨failure, rfl⟩ := h.fails ⟨record, hmem, hfails⟩
    obtain ⟨failure', rfl⟩ := h'.fails ⟨record, hmem, hfails⟩
    rfl

theorem collects_collectWorkers {handles : List (Parse ParsedRecords)}
    {pieces : List (List (List UInt8))} (h : List.Forall₂ Delivers handles pieces)
    (collected : CollectedRecords) :
    Collects (collectWorkers collected handles) collected pieces.flatten := by
  induction h generalizing collected with
  | nil =>
      refine ⟨fun _ ↦ ?_, by simp⟩
      simp [collectWorkers, CollectedRecords.addAll, recordsYield]
  | @cons handle piece handles pieces hhead htail ih =>
      rw [List.flatten_cons]
      rcases hhead.fails_or_whole with ⟨⟨failure, rfl⟩, hbad⟩ | ⟨rfl, hgood⟩
      · have hfails : Fails (collectWorkers collected (.error failure :: handles)) := by
          rw [collectWorkers]
          split <;> exact ⟨_, rfl⟩
        refine ⟨fun hall ↦ ?_, fun _ ↦ hfails⟩
        obtain ⟨record, hmem, hrecord⟩ := hbad
        exact absurd hrecord (hall record (List.mem_append_left _ hmem))
      · have hrest := ih (collected.addAll (recordsYield piece))
        rw [collectWorkers]
        constructor
        · intro hall
          rw [CollectedRecords.addAll_append]
          exact hrest.whole fun record hmem ↦ hall record (List.mem_append_right _ hmem)
        · rintro ⟨record, hmem, hrecord⟩
          rcases List.mem_append.mp hmem with hfront | hlast
          · exact absurd hrecord (hgood record hfront)
          · exact hrest.fails ⟨record, hlast, hrecord⟩

theorem collectRecord_of_length {record : List UInt8} (hlength : record.length = ntfsRecordSize)
    (collected : CollectedRecords) :
    collectRecord collected record =
      (parseRecord record >>= fun outcome ↦ .ok (collected.add outcome)) := by
  unfold collectRecord
  by_cases hskip : record.length < ntfsRecordSize ∨ record.take 4 ≠ fileRecordSignature
  · have hsignature := hskip.resolve_left (not_lt.mpr hlength.ge)
    rw [if_pos hskip, parseRecord_of_not_live fun hlive ↦ hsignature hlive.1]
    rfl
  · rw [if_neg hskip]
    rfl

theorem CollectedRecords.add_eq {record : List UInt8} {outcome : ParsedRecordOutcome}
    (hparse : parseRecord record = .ok outcome) (collected : CollectedRecords) :
    collected.add outcome = collected.addAll (recordsYield [record]) := by
  cases outcome <;>
    simp [CollectedRecords.add, CollectedRecords.addAll, recordsYield, recordYield, hparse,
      Except.toOption, collectOutcome]

/-- The sequential loop, record by record. -/
theorem collects_foldlM {records : List (List UInt8)}
    (hlength : ∀ record ∈ records, record.length = ntfsRecordSize) (collected : CollectedRecords) :
    Collects (records.foldlM collectRecord collected) collected records := by
  induction records generalizing collected with
  | nil =>
      refine ⟨fun _ ↦ ?_, by simp⟩
      simp [CollectedRecords.addAll, recordsYield, pure, Except.pure]
  | cons record rest ih =>
      have hrest := fun next ↦
        ih (fun other hmem ↦ hlength other (List.mem_cons_of_mem record hmem)) next
      rw [List.foldlM_cons, collectRecord_of_length (hlength record List.mem_cons_self)]
      cases hparse : parseRecord record with
      | error failure =>
          refine ⟨fun hall ↦ ?_, fun _ ↦ ⟨failure, rfl⟩⟩
          exact absurd ⟨failure, hparse⟩ (hall record List.mem_cons_self)
      | ok outcome =>
          rw [Parse.ok_bind, Parse.ok_bind, CollectedRecords.add_eq hparse]
          constructor
          · intro hall
            rw [(hrest _).whole fun other hmem ↦ hall other (List.mem_cons_of_mem record hmem),
              ← CollectedRecords.addAll_append, List.singleton_append]
          · rintro ⟨other, hmem, hother⟩
            rcases List.mem_cons.mp hmem with rfl | hlast
            · rw [hparse] at hother
              exact absurd hother (not_fails_ok outcome)
            · exact (hrest _).fails ⟨other, hlast, hother⟩

theorem foldlM_collectRecord_short {chunks : List (List UInt8)}
    (hshort : ∀ chunk ∈ chunks, chunk.length < ntfsRecordSize) (collected : CollectedRecords) :
    chunks.foldlM collectRecord collected = .ok collected := by
  induction chunks with
  | nil => rfl
  | cons chunk rest ih =>
      have hskip : collectRecord collected chunk = .ok collected :=
        if_pos (Or.inl (hshort chunk List.mem_cons_self))
      rw [List.foldlM_cons, hskip]
      exact ih fun other hmem ↦ hshort other (List.mem_cons_of_mem chunk hmem)

/-- The pieces of a buffer are its records, and a shorter one at most. -/
theorem recordChunks_eq (bytes : List UInt8) :
    ∃ rest, recordChunks bytes = Blocks.blocks ntfsRecordSize bytes ++ rest ∧
      ∀ chunk ∈ rest, chunk.length < ntfsRecordSize := by
  have hpos := ntfsRecordSize_pos
  have hcount : (bytes.length + ntfsRecordSize - 1) / ntfsRecordSize =
      bytes.length / ntfsRecordSize +
        ((bytes.length + ntfsRecordSize - 1) / ntfsRecordSize - bytes.length / ntfsRecordSize) := by
    have hle : bytes.length / ntfsRecordSize ≤ (bytes.length + ntfsRecordSize - 1) / ntfsRecordSize :=
      Nat.div_le_div_right (by omega)
    omega
  refine ⟨((List.range ((bytes.length + ntfsRecordSize - 1) / ntfsRecordSize -
    bytes.length / ntfsRecordSize)).map (bytes.length / ntfsRecordSize + ·)).map
      (recordSlice bytes), ?_, ?_⟩
  · rw [recordChunks, hcount, List.range_add, List.map_append, Nat.add_sub_cancel_left]
    rfl
  · intro chunk hchunk
    obtain ⟨index, hindex, rfl⟩ := List.mem_map.mp hchunk
    obtain ⟨offset, -, rfl⟩ := List.mem_map.mp hindex
    have hmod := Nat.mod_lt bytes.length hpos
    have hdiv := Nat.div_add_mod' bytes.length ntfsRecordSize
    have hstart : bytes.length / ntfsRecordSize * ntfsRecordSize ≤
        (bytes.length / ntfsRecordSize + offset) * ntfsRecordSize :=
      Nat.mul_le_mul_right _ (Nat.le_add_right _ _)
    rw [recordSlice, List.length_take, List.length_drop]
    omega

theorem collects_collectMftRecords {bytes : List UInt8} (hlength : ntfsRecordSize ≤ bytes.length) :
    Collects (collectMftRecords bytes) {} (Blocks.blocks ntfsRecordSize bytes) := by
  obtain ⟨rest, hchunks, hshort⟩ := recordChunks_eq bytes
  have hblocks : ∀ record ∈ Blocks.blocks ntfsRecordSize bytes, record.length = ntfsRecordSize :=
    fun record hmem ↦ Blocks.length_of_mem_blocks hmem
  have hfold := collects_foldlM hblocks {}
  have hsame : collectMftRecords bytes =
      (Blocks.blocks ntfsRecordSize bytes).foldlM collectRecord {} := by
    rw [collectMftRecords, if_neg (not_lt.mpr hlength), hchunks, List.foldlM_append]
    cases (Blocks.blocks ntfsRecordSize bytes).foldlM collectRecord {} with
    | error failure => rfl
    | ok collected => exact foldlM_collectRecord_short hshort collected
  rwa [hsame]

/-- Workers on consecutive ranges collect all records. -/
theorem collects_parallel {bytes : List UInt8} {ranges : List (ℕ × ℕ)}
    (htiles : Blocks.Tiles ranges 0 (bytes.length / ntfsRecordSize)) :
    Collects
      (collectWorkers {} (ranges.map (fun range ↦ parseRecordRange bytes range.1 range.2))) {}
      (Blocks.blocks ntfsRecordSize bytes) := by
  have hdelivers : List.Forall₂ Delivers
      (ranges.map (fun range ↦ parseRecordRange bytes range.1 range.2))
      (ranges.map (fun range ↦
        (List.range' range.1 (range.2 - range.1)).map (recordSlice bytes))) := by
    rw [List.forall₂_map_left_iff, List.forall₂_map_right_iff, List.forall₂_same]
    intro range hrange
    refine delivers_parseRecordRange range.1 ?_
    exact (Nat.mul_le_mul_right _ (htiles.snd_le hrange)).trans (Nat.div_mul_le_self _ _)
  have hcollects := collects_collectWorkers hdelivers {}
  rwa [← List.flatMap_def, ← List.map_flatMap, htiles.flatMap_range', Nat.sub_zero,
    ← List.range_eq_range'] at hcollects

/-- With workers the same entries are handed over, if any. -/
theorem handedEntries_parallel (bytes : List UInt8) (workerCount : ℕ) :
    (handedEntries (collectMftRecordsParallel bytes workerCount)).toOption =
      (handedEntries (collectMftRecords bytes)).toOption := by
  unfold collectMftRecordsParallel
  dsimp only
  split
  · rfl
  · rename_i hmany
    split
    · rfl
    · split
      · rfl
      · have hpos := ntfsRecordSize_pos
        have hlength : ntfsRecordSize ≤ bytes.length := by omega
        exact (collects_parallel (Blocks.tiles_chunkRanges_zero
          (le_mul_ceilDiv (by omega) _))).handedEntries_eq (collects_collectMftRecords hlength)

/-- However the stream is cut and however many workers there are, the thread
sends what each record yields alone exactly when all live records parse; and a
buffer gives the same entries with workers as without. -/
theorem forwardsEachRecord_iff (workers bytesPerSector : ℕ) (blocks : List (List UInt8))
    (bytes : List UInt8) (workerCount : ℕ) :
    (ForwardsEachRecord workers bytesPerSector blocks ↔
      ∀ record ∈ streamRecords bytesPerSector (deliveredStream blocks),
        LiveRecord record → RecordFits record) ∧
    (handedEntries (collectMftRecordsParallel bytes workerCount)).toOption =
      (handedEntries (collectMftRecords bytes)).toOption :=
  ⟨forwardsEachRecord_iff_fits workers bytesPerSector blocks,
    handedEntries_parallel bytes workerCount⟩

/-- A record as it lies on disk: its update sequence array starts at byte 48,
with a number and two sectors, all zero. -/
def storedRecord (record : List UInt8) : List UInt8 := (record.set 4 48).set 6 3

/-- One record that does not parse takes the healthy record in its block with
it, and leaves it alone in another block. -/
theorem short_record_drops_block :
    runParser 1 512 [.ok (storedRecord namedRecord ++ storedRecord shortRecord)] [] 0 =
        ([], some .panic) ∧
      (runParser 1 512 [.ok (storedRecord namedRecord), .ok (storedRecord shortRecord)] [] 0).1.map
        (fun message ↦ message.entries.map ParsedNtfsEntry.name) = [["a"]] ∧
      (recordsYield (streamRecords 512
        (storedRecord namedRecord ++ storedRecord shortRecord))).1.map ParsedNtfsEntry.name =
          ["a"] ∧
      ¬ForwardsEachRecord 1 512 [storedRecord namedRecord ++ storedRecord shortRecord] := by
  have hrun : runParser 1 512 [.ok (storedRecord namedRecord ++ storedRecord shortRecord)] [] 0 =
      ([], some .panic) := by
    decide +kernel
  refine ⟨hrun, by decide +kernel, by decide +kernel, fun h ↦ ?_⟩
  have hnone := h.1
  rw [List.map_singleton, hrun] at hnone
  cases hnone

end Ntfs

end WinBlaze
