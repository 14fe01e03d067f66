import WinBlaze.Index.SnapshotRoundTrip

/-!
# Reopening version-1 snapshots

In the first version of the format every file path is a plain string. The
reader still accepts that version, and bounds the announced number of files by
the bytes that are left, at 57 bytes a file. A version-1 file without name,
path and times takes 55 bytes, so the bound holds back snapshots whose files
and later sections are short.
-/

namespace WinBlaze

namespace Snapshot

open ByteCodec

/-! ## The version-1 layout -/

def fileBufferVersionOne (file : FileRecord) : List UInt8 :=
  let buffer := pushU64 [] file.id.val
  let buffer := pushU64 buffer file.parentDirectoryId.val
  let buffer := pushString buffer file.name
  let buffer := pushString buffer file.fullPath
  let buffer := pushU64 buffer file.sizeBytes
  let buffer := pushU64 buffer file.allocationBytes
  let buffer := pushU32 buffer file.attributes.bits
  let buffer := pushOptionI64 buffer file.timestamps.created
  let buffer := pushOptionI64 buffer file.timestamps.modified
  pushOptionI64 buffer file.timestamps.accessed

def writeFileRecordsVersionOne (files : List FileRecord) : Writer Unit := do
  writeLen files.length
  files.forM fun file ↦ writeAll (fileBufferVersionOne file)

/-- `writeState` as it was before file paths got a presence byte. -/
def writeStateVersionOne (state : BufferedIndexTransaction) : Writer Unit := do
  writeAll indexMagic
  writeU32 1
  writeVolumeRecords state.snapshotVolumes
  writeSessionRecords state.snapshotSessions
  writeDirectoryRecords state.snapshotDirectories
  writeFileRecordsVersionOne state.snapshotFiles
  writeLineageRecords state.lineages
  writeChangeSets state.fileChanges

theorem fileBufferVersionOne_eq (file : FileRecord) :
    fileBufferVersionOne file =
      u64Bytes file.id.val ++ (u64Bytes file.parentDirectoryId.val ++
        (pushString [] file.name ++ (pushString [] file.fullPath ++
          (u64Bytes file.sizeBytes ++ (u64Bytes file.allocationBytes ++
            (u32Bytes file.attributes.bits ++ (pushOptionI64 [] file.timestamps.created ++
              (pushOptionI64 [] file.timestamps.modified ++
                pushOptionI64 [] file.timestamps.accessed)))))))) := by
  simp only [fileBufferVersionOne, pushU64, pushU32]
  rw [pushOptionI64_eq, pushOptionI64_eq (pushOptionI64 _ _), pushOptionI64_eq (_ ++ _),
    pushString_eq, pushString_eq (_ ++ _)]
  simp only [List.nil_append, List.append_assoc]

theorem roundTrips_fileBufferVersionOne {file : FileRecord} (hfile : FileStorable file) :
    RoundTrips True 55 (writeAll (fileBufferVersionOne file)) (readFileRecord 1) file := by
  rw [fileBufferVersionOne_eq]
  refine (roundTrips_u64 _).appendBytes ?_
  refine (roundTrips_u64 _).appendBytes ?_
  refine (roundTrips_pushString hfile.name).appendBytes ?_
  refine (roundTrips_pushString hfile.fullPath).appendBytes ?_
  refine (roundTrips_u64 _).appendBytes ?_
  refine (roundTrips_u64 _).appendBytes ?_
  refine (roundTrips_u32 _).appendBytes ?_
  refine RoundTrips.last (a := file.timestamps) ?_ rfl
  refine (roundTrips_pushOptionI64 _).appendBytes ?_
  refine (roundTrips_pushOptionI64 _).appendBytes ?_
  exact (roundTrips_pushOptionI64 _).last rfl

/-! ## Sizes of the layout -/

def stringBytes (value : String) : ℕ := 8 + (asBytes value).length

def optionStringBytes : Option String → ℕ
  | some value => 1 + stringBytes value
  | none => 1

def optionI64Bytes : Option Int64 → ℕ
  | some _ => 9
  | none => 1

def fileBytesVersionOne (file : FileRecord) : ℕ :=
  36 + stringBytes file.name + stringBytes file.fullPath + optionI64Bytes file.timestamps.created +
    optionI64Bytes file.timestamps.modified + optionI64Bytes file.timestamps.accessed

def lineageBytes (lineage : FileLineageRecord) : ℕ :=
  26 + stringBytes lineage.previousFullPath + stringBytes lineage.currentFullPath

def changeBytes (change : FileChangeRecord) : ℕ :=
  9 + optionStringBytes change.previousFullPath + optionStringBytes change.currentFullPath

def changeSetBytes (changeSet : FileChangeSet) : ℕ :=
  8 + (changeSet.changes.map changeBytes).sum

/-- The bytes of a version-1 snapshot behind its number of files. -/
def bytesAfterFileCount (files : List FileRecord) (lineages : List FileLineageRecord)
    (fileChanges : List FileChangeSet) : ℕ :=
  (files.map fileBytesVersionOne).sum + ((8 + (lineages.map lineageBytes).sum) +
    (8 + (fileChanges.map changeSetBytes).sum))

theorem length_pushString (value : String) : (pushString [] value).length = stringBytes value := by
  simp [pushString, pushU64, u64Bytes, stringBytes]

theorem length_pushOptionI64 (value : Option Int64) :
    (pushOptionI64 [] value).length = optionI64Bytes value := by
  cases value <;> simp [pushOptionI64, i64Bytes, u64Bytes, optionI64Bytes]

theorem length_fileBufferVersionOne (file : FileRecord) :
    (fileBufferVersionOne file).length = fileBytesVersionOne file := by
  simp only [fileBufferVersionOne_eq, List.length_append, length_pushString,
    length_pushOptionI64, u64Bytes, u32Bytes, length_leBytes, fileBytesVersionOne]
  omega

theorem adds_u8 (value : UInt8) : Adds (writeU8 value) 1 := adds_writeAll rfl

theorem adds_u64 (value : UInt64) : Adds (writeU64 value) 8 := adds_writeAll (length_leBytes 8 _)

theorem adds_len (value : ℕ) : Adds (writeLen value) 8 := by
  unfold writeLen
  split
  · exact adds_u64 _
  · exact adds_throw _ _

theorem adds_string (value : String) : Adds (writeString value) (stringBytes value) :=
  (adds_len _).seq (adds_writeAll rfl)

theorem adds_optionString (value : Option String) :
    Adds (writeOptionString value) (optionStringBytes value) := by
  cases value with
  | none => exact adds_u8 0
  | some text => exact (adds_u8 1).seq (adds_string text)

theorem adds_lineageRecord (lineage : FileLineageRecord) :
    Adds (writeLineageRecord lineage) (lineageBytes lineage) := by
  refine Adds.of_eq ((adds_u64 _).seq ((adds_u64 _).seq ((adds_u64 _).seq
    ((adds_string _).seq ((adds_string _).seq ((adds_u8 _).seq (adds_u8 _))))))) ?_
  unfold lineageBytes
  omega

theorem adds_fileChange (change : FileChangeRecord) :
    Adds (writeFileChange change) (changeBytes change) := by
  refine Adds.of_eq ((adds_u64 _).seq ((adds_u8 _).seq
    ((adds_optionString _).seq (adds_optionString _)))) ?_
  unfold changeBytes
  omega

theorem adds_changeSet (changeSet : FileChangeSet) :
    Adds (writeChangeSet changeSet) (changeSetBytes changeSet) :=
  (adds_len _).seq (adds_forM _ fun change _ ↦ adds_fileChange change)

/-! ## What the reader accepts fits its limits -/

theorem yields_exact (count : ℕ) : Yields (readExact count) fun value ↦ value.length = count := by
  intro reader result hrun
  simp only [StateT.run, readExact] at hrun
  split at hrun
  case isTrue => cases hrun
  case isFalse =>
    split at hrun
    case isTrue => cases hrun
    case isFalse hlength =>
      cases hrun
      exact List.length_take_of_le (Nat.not_lt.mp hlength)

theorem yields_utf8 (value : List UInt8) :
    Yields (decodeUtf8 value) fun text ↦ asBytes text = value := by
  unfold decodeUtf8 String.fromUTF8?
  split
  case h_2 => exact yields_throw _ _
  case h_1 text htext =>
    apply yields_pure
    split at htext
    case isTrue =>
      cases htext
      rfl
    case isFalse => cases htext

theorem yields_string : Yields readString Storable := by
  refine Yields.after fun len ↦ ?_
  split
  case isTrue => exact yields_throw _ _
  case isFalse hlen =>
    refine Yields.after fun remaining ↦ ?_
    split
    case isTrue => exact yields_throw _ _
    case isFalse =>
      refine (yields_exact len).bind fun value hvalue ↦ ?_
      intro reader result hrun
      have htext : asBytes result.1 = value := yields_utf8 value reader result hrun
      rw [Storable, htext, hvalue]
      exact Nat.not_lt.mp hlen

theorem yields_optionString : Yields readOptionString OptionStorable := by
  refine Yields.after fun flag ↦ ?_
  split
  · exact yields_pure (by simp [OptionStorable])
  · refine yields_string.bind fun text htext ↦ yields_pure ?_
    simpa [OptionStorable] using htext
  · exact yields_throw _ _

theorem storable_empty : Storable "" := by
  unfold Storable
  decide

theorem yields_snapshotPath (version : UInt32) : Yields (readSnapshotPath version) Storable := by
  unfold readSnapshotPath
  split
  · exact yields_string
  · refine Yields.after fun flag ↦ ?_
    split
    · exact yields_pure storable_empty
    · exact yields_string
    · exact yields_throw _ _

theorem yields_volumeRecord : Yields readVolumeRecord VolumeStorable := by
  refine Yields.after fun id ↦ ?_
  refine yields_string.bind fun mountPoint hmountPoint ↦ ?_
  refine yields_optionString.bind fun label hlabel ↦ ?_
  refine Yields.after fun kind ↦ Yields.after fun fileSystem ↦ ?_
  refine Yields.after fun totalBytes ↦ Yields.after fun freeBytes ↦ ?_
  exact Yields.after fun root ↦ yields_pure ⟨hmountPoint, hlabel⟩

theorem yields_sessionRecord :
    Yields readSessionRecord fun session ↦ Storable session.rootPath := by
  refine Yields.after fun sessionId ↦ Yields.after fun volumeId ↦ ?_
  refine yields_string.bind fun rootPath hrootPath ↦ ?_
  refine Yields.after fun kind ↦ Yields.after fun state ↦ ?_
  exact Yields.after fun progress ↦ yields_pure hrootPath

theorem yields_directoryRecord : Yields readDirectoryRecord DirectoryStorable := by
  refine Yields.after fun id ↦ Yields.after fun parent ↦ ?_
  refine yields_string.bind fun name hname ↦ ?_
  refine yields_string.bind fun fullPath hfullPath ↦ ?_
  refine Yields.after fun directBytes ↦ Yields.after fun totalBytes ↦ ?_
  refine Yields.after fun directEntries ↦ Yields.after fun totalEntries ↦ ?_
  exact yields_pure ⟨hname, hfullPath⟩

theorem yields_fileRecord (version : UInt32) : Yields (readFileRecord version) FileStorable := by
  refine Yields.after fun id ↦ Yields.after fun parent ↦ ?_
  refine yields_string.bind fun name hname ↦ ?_
  refine (yields_snapshotPath version).bind fun fullPath hfullPath ↦ ?_
  refine Yields.after fun sizeBytes ↦ Yields.after fun allocationBytes ↦ ?_
  exact Yields.after fun attributes ↦ Yields.after fun timestamps ↦ yields_pure ⟨hname, hfullPath⟩

theorem yields_lineageRecord : Yields readLineageRecord LineageStorable := by
  refine Yields.after fun fileId ↦ Yields.after fun previous ↦ Yields.after fun current ↦ ?_
  refine yields_string.bind fun previousFullPath hprevious ↦ ?_
  refine yields_string.bind fun currentFullPath hcurrent ↦ ?_
  exact Yields.after fun renamed ↦ Yields.after fun moved ↦ yields_pure ⟨hprevious, hcurrent⟩

theorem yields_fileChange : Yields readFileChange ChangeStorable := by
  refine Yields.after fun fileId ↦ Yields.after fun flag ↦ Yields.after fun kind ↦ ?_
  refine yields_optionString.bind fun previous hprevious ↦ ?_
  exact yields_optionString.bind fun current hcurrent ↦ yields_pure ⟨hprevious, hcurrent⟩

/-- A section reader returns what its record reader returns. -/
theorem yields_section {α : Type} {P : α → Prop} {d : SnapshotReader α} (hd : Yields d P)
    (minBytesPerItem : ℕ) (label : String) :
    Yields (do
      let len ← readLen
      validateCollectionLen len minBytesPerItem label
      readMany d len) fun records ↦ ∀ record ∈ records, P record :=
  Yields.after fun len ↦ Yields.after fun _ ↦ hd.readMany len

theorem yields_arena {κ ρ : Type} [DecidableEq κ] {key : ρ → κ} {P : ρ → Prop}
    {d : SnapshotReader ρ} (hd : Yields d P) (minBytesPerItem : ℕ) (label : String) :
    Yields (do
      let len ← readLen
      validateCollectionLen len minBytesPerItem label
      let records ← readMany d len
      pure (KeyedArena.ofList records : KeyedArena key)) fun arena ↦
        ∀ record ∈ arena.records, P record := by
  refine Yields.after fun len ↦ Yields.after fun _ ↦ ?_
  refine (hd.readMany len).bind fun records hrecords ↦ yields_pure fun record hrecord ↦ ?_
  exact hrecords record (KeyedArena.mem_of_mem_ofList hrecord)

theorem yields_changeSet :
    Yields readChangeSet fun changeSet ↦ ∀ change ∈ changeSet.changes, ChangeStorable change := by
  refine Yields.after fun len ↦ Yields.after fun _ ↦ ?_
  exact (yields_fileChange.readMany len).bind fun changes hchanges ↦ yields_pure hchanges

/-- Whatever bytes are decoded, every string of the result is storable. -/
theorem yields_state : Yields readState BufferedIndexTransaction.StringsStorable := by
  refine Yields.after fun magic ↦ ?_
  split
  · exact yields_throw _ _
  refine Yields.after fun version ↦ ?_
  split
  · exact yields_throw _ _
  refine (yields_section yields_volumeRecord 34 _).bind fun volumes hvolumes ↦ ?_
  refine (yields_section yields_sessionRecord 41 _).bind fun sessions hsessions ↦ ?_
  refine (yields_arena yields_directoryRecord 41 _).bind fun directories hdirectories ↦ ?_
  refine (yields_arena (yields_fileRecord version) _ _).bind fun files hfiles ↦ ?_
  refine (yields_section yields_lineageRecord 34 _).bind fun lineages hlineages ↦ ?_
  refine (yields_section yields_changeSet 8 _).bind fun fileChanges hfileChanges ↦ yields_pure ?_
  refine ⟨?_, ?_, hdirectories, hfiles, hlineages, hfileChanges⟩
  · exact fun volume hvolume ↦ hvolumes volume (KeyedArena.mem_of_mem_ofList hvolume)
  · exact fun session hsession ↦ hsessions session (KeyedArena.mem_of_mem_ofList hsession)

theorem stringsStorable_of_deserialize {bytes : List UInt8} {len : ℕ}
    {reopened : BufferedIndexTransaction}
    (h : deserializeStateFromReader bytes len = .ok reopened) : reopened.StringsStorable := by
  unfold deserializeStateFromReader at h
  cases hrun : readState.run ⟨bytes, len⟩ with
  | error error =>
      rw [hrun] at h
      cases h
  | ok result =>
      rw [hrun] at h
      cases h
      exact yields_state _ _ hrun

theorem stringsStorable_of_sameIndex {a b : BufferedIndexTransaction} (hsame : a.SameIndex b)
    (ha : a.StringsStorable) : b.StringsStorable := by
  have h := recordsStorable_of_perm hsame.volumes.symm hsame.sessions.symm hsame.directories.symm
    hsame.files.symm ha
  rwa [hsame.lineages, hsame.fileChanges] at h

/-! ## Reopening -/

theorem validateCollectionLen_run_error {len minBytesPerItem : ℕ} (label : String)
    {reader : ByteReader} (hmin : 0 < minBytesPerItem)
    (hlen : reader.remaining < len * minBytesPerItem) :
    (validateCollectionLen len minBytesPerItem label).run reader =
      .error (.corruptSnapshot (label ++ " length exceeds remaining snapshot data")) := by
  have hbound : reader.remaining / minBytesPerItem < len := (Nat.div_lt_iff_lt_mul hmin).mpr hlen
  rw [validateCollectionLen, if_neg hmin.ne']
  calc
    _ = StateT.run (if reader.remaining / minBytesPerItem < len then
        corrupt (label ++ " length exceeds remaining snapshot data")
      else pure ()) reader := rfl
    _ = _ := by rw [if_pos hbound]; rfl

def writeBeforeFiles (volumes : List VolumeRecord) (sessions : List ScanSession)
    (directories : List DirectoryRecord) (fileCount : ℕ) : Writer Unit := do
  writeAll indexMagic
  writeU32 1
  writeVolumeRecords volumes
  writeSessionRecords sessions
  writeDirectoryRecords directories
  writeLen fileCount

def writeFromFiles (files : List FileRecord) (lineages : List FileLineageRecord)
    (fileChanges : List FileChangeSet) : Writer Unit := do
  files.forM fun file ↦ writeAll (fileBufferVersionOne file)
  writeLineageRecords lineages
  writeChangeSets fileChanges

theorem writeStateVersionOne_eq (state : BufferedIndexTransaction) :
    writeStateVersionOne state =
      (writeBeforeFiles state.snapshotVolumes state.snapshotSessions state.snapshotDirectories
        state.snapshotFiles.length >>= fun _ ↦
          writeFromFiles state.snapshotFiles state.lineages state.fileChanges) := by
  simp only [writeStateVersionOne, writeFileRecordsVersionOne, writeBeforeFiles, writeFromFiles,
    bind_assoc]

/-- How the reader goes on once it has passed the bound on the number of files. -/
def readFromFiles (volumes : List VolumeRecord) (sessions : List ScanSession)
    (directories : List DirectoryRecord) (fileCount : ℕ) :
    SnapshotReader BufferedIndexTransaction := do
  let files ← readMany (readFileRecord 1) fileCount
  let lineages ← readLineageRecords
  let fileChanges ← readChangeSets
  pure (ofRecords volumes sessions directories files lineages fileChanges)

section Records

variable {volumes : List VolumeRecord} {sessions : List ScanSession}
  {directories : List DirectoryRecord} {files : List FileRecord}
  {lineages : List FileLineageRecord} {fileChanges : List FileChangeSet}

theorem continues_beforeFiles
    (h : RecordsStorable volumes sessions directories files lineages fileChanges) :
    Continues (volumes.length < 2 ^ 64 ∧ sessions.length < 2 ^ 64 ∧
        directories.length < 2 ^ 64 ∧ files.length < 2 ^ 64)
      (writeBeforeFiles volumes sessions directories files.length) readState
      (validateCollectionLen files.length 57 "file records" >>= fun _ ↦
        readFromFiles volumes sessions directories files.length) := by
  have hpath : (readFileRecords 1 : SnapshotReader FileRecords) = (do
      let len ← readLen
      validateCollectionLen len 57 "file records"
      let files ← readMany (readFileRecord 1) len
      pure (.ofList files)) := rfl
  refine Continues.mono ?_ (p := True ∧ True ∧ volumes.length < 2 ^ 64 ∧
    sessions.length < 2 ^ 64 ∧ directories.length < 2 ^ 64 ∧ files.length < 2 ^ 64) (by simp)
  refine ((roundTrips_bytes indexMagic rfl).continues _).trans ?_
  refine ((roundTrips_u32 1).continues _).trans ?_
  refine ((roundTrips_volumeRecords h.volumes).continues _).trans ?_
  refine ((roundTrips_sessionRecords h.sessions).continues _).trans ?_
  refine ((roundTrips_directoryRecords h.directories).continues _).trans ?_
  simp only [hpath, bind_assoc, pure_bind]
  exact (roundTrips_len files.length).continues _

theorem roundTrips_fromFiles
    (h : RecordsStorable volumes sessions directories files lineages fileChanges) :
    RoundTrips (lineages.length < 2 ^ 64 ∧ fileChanges.length < 2 ^ 64 ∧
        ∀ changeSet ∈ fileChanges, changeSet.changes.length < 2 ^ 64) 0
      (writeFromFiles files lineages fileChanges)
      (readFromFiles volumes sessions directories files.length)
      (ofRecords volumes sessions directories files lineages fileChanges) := by
  have hfiles := roundTrips_forM files fun file hfile ↦
    roundTrips_fileBufferVersionOne (h.files file hfile)
  have hfiles' := hfiles.mono (iff_of_true (by simp) trivial) (Nat.le_refl _)
  refine (hfiles'.mono Iff.rfl (Nat.zero_le _)).append ?_
  refine (roundTrips_lineageRecords h.lineages).seq ?_
  refine RoundTrips.last (a := fileChanges) ?_ rfl
  exact (roundTrips_changeSets h.fileChanges).mono Iff.rfl (by omega)

theorem adds_fromFiles : Adds (writeFromFiles files lineages fileChanges)
    (bytesAfterFileCount files lineages fileChanges) := by
  refine Adds.seq (adds_forM files fun file _ ↦ ?_) (Adds.seq ?_ ?_)
  · exact adds_writeAll (length_fileBufferVersionOne file)
  · exact (adds_len _).seq (adds_forM lineages fun lineage _ ↦ adds_lineageRecord lineage)
  · exact (adds_len _).seq (adds_forM fileChanges fun changeSet _ ↦ adds_changeSet changeSet)

end Records

theorem run_of_written {writer : Writer Unit} {bytes : List UInt8}
    (h : written writer = .ok bytes) : writer.run [] = .ok ((), bytes) := by
  unfold written at h
  cases hrun : writer.run [] with
  | error error =>
      rw [hrun] at h
      cases h
  | ok result =>
      rw [hrun] at h
      cases h
      rfl

/-- The records behind the file count take at least 57 bytes a file. -/
def FitsVersionOne (state : BufferedIndexTransaction) : Prop :=
  state.files.records.length * 57 ≤
    bytesAfterFileCount state.files.records state.lineages state.fileChanges

theorem bytesAfterFileCount_perm {files files' : List FileRecord} (h : files.Perm files')
    (lineages : List FileLineageRecord) (fileChanges : List FileChangeSet) :
    bytesAfterFileCount files lineages fileChanges =
      bytesAfterFileCount files' lineages fileChanges := by
  unfold bytesAfterFileCount
  rw [(h.map fileBytesVersionOne).sum_nat]

/-- A written version-1 snapshot that the reader can hold: what the reader does
with it is decided by the bound on the number of files. -/
theorem deserialize_versionOne {state : BufferedIndexTransaction} {bytes : List UInt8}
    (h : state.StringsStorable) (hwritten : written (writeStateVersionOne state) = .ok bytes) :
    (FitsVersionOne state → deserializeStateFromReader bytes bytes.length =
      .ok (ofRecords state.snapshotVolumes state.snapshotSessions state.snapshotDirectories
        state.snapshotFiles state.lineages state.fileChanges)) ∧
    (¬FitsVersionOne state → deserializeStateFromReader bytes bytes.length =
      .error (.corruptSnapshot "file records length exceeds remaining snapshot data")) := by
  have hfiles : state.snapshotFiles.Perm state.files.records := KeyOrder.sortByKey_perm _ _
  have hvolumes : state.snapshotVolumes.Perm state.volumes.records := KeyOrder.sortByKey_perm _ _
  have hsessions : state.snapshotSessions.Perm state.sessions.records :=
    KeyOrder.sortByKey_perm _ _
  have hdirectories : state.snapshotDirectories.Perm state.directories.records :=
    KeyOrder.sortByKey_perm _ _
  have hstorable := recordsStorable_of_perm hvolumes hsessions hdirectories hfiles h
  have hrun := run_of_written hwritten
  rw [writeStateVersionOne_eq] at hrun
  obtain ⟨rest, hgoesOn, hrest, hreads⟩ :=
    (continues_beforeFiles hstorable).split_run (roundTrips_fromFiles hstorable) hrun
  have hlength : rest.length =
      bytesAfterFileCount state.files.records state.lineages state.fileChanges := by
    have hadds := adds_fromFiles [] rest hrest
    rw [bytesAfterFileCount_perm hfiles] at hadds
    simpa using hadds
  unfold deserializeStateFromReader
  change (_ → Except.map Prod.fst (readState.run (.ofBytes bytes)) = _) ∧
    (_ → Except.map Prod.fst (readState.run (.ofBytes bytes)) = _)
  rw [hgoesOn, StateT.run_bind]
  unfold FitsVersionOne
  rw [← hlength, ← hfiles.length_eq]
  refine ⟨fun hfits ↦ ?_, fun hfits ↦ ?_⟩
  · have hpass : (validateCollectionLen state.snapshotFiles.length 57 "file records").run
        (.ofBytes rest) = .ok ((), .ofBytes rest) := validateCollectionLen_run _ hfits
    rw [hpass]
    exact congrArg (Except.map Prod.fst) hreads
  · have hshort : (ByteReader.ofBytes rest).remaining < state.snapshotFiles.length * 57 :=
      Nat.not_le.mp hfits
    rw [validateCollectionLen_run_error "file records" (by decide) hshort]
    rfl

theorem written_versionOne_ok {state : BufferedIndexTransaction} (h : state.StringsStorable)
    (hfit : state.Addressable) : ∃ bytes, written (writeStateVersionOne state) = .ok bytes := by
  have hvolumes : state.snapshotVolumes.Perm state.volumes.records := KeyOrder.sortByKey_perm _ _
  have hsessions : state.snapshotSessions.Perm state.sessions.records :=
    KeyOrder.sortByKey_perm _ _
  have hdirectories : state.snapshotDirectories.Perm state.directories.records :=
    KeyOrder.sortByKey_perm _ _
  have hfiles : state.snapshotFiles.Perm state.files.records := KeyOrder.sortByKey_perm _ _
  have hstorable := recordsStorable_of_perm hvolumes hsessions hdirectories hfiles h
  obtain ⟨before, hbefore, _⟩ := continues_beforeFiles hstorable
  obtain ⟨after, _, hafter, _⟩ := roundTrips_fromFiles hstorable
  have hready := (hbefore.seq hafter).writes ⟨⟨?_, ?_, ?_, ?_⟩, ?_, ?_, hfit.changes⟩ []
  · rw [← writeStateVersionOne_eq] at hready
    exact ⟨_, congrArg (Except.map Prod.snd) hready⟩
  · exact hvolumes.length_eq ▸ hfit.volumes
  · exact hsessions.length_eq ▸ hfit.sessions
  · exact hdirectories.length_eq ▸ hfit.directories
  · exact hfiles.length_eq ▸ hfit.files
  · exact hfit.lineages
  · exact hfit.fileChanges

/-- A version-1 snapshot reopens as the state it was written from exactly when
the state's strings fit the limit of the reader and its files and history take
the bytes the reader asks for. -/
theorem reopen_versionOne_iff (state : BufferedIndexTransaction) {bytes : List UInt8}
    (hwritten : written (writeStateVersionOne state) = .ok bytes) :
    (∃ reopened, deserializeStateFromReader bytes bytes.length = .ok reopened ∧
      reopened.SameIndex state) ↔ state.StringsStorable ∧ FitsVersionOne state := by
  constructor
  · rintro ⟨reopened, hreopened, hsame⟩
    have hstrings := stringsStorable_of_sameIndex hsame (stringsStorable_of_deserialize hreopened)
    refine ⟨hstrings, by_contra fun hfits ↦ ?_⟩
    rw [(deserialize_versionOne hstrings hwritten).2 hfits] at hreopened
    cases hreopened
  · rintro ⟨hstrings, hfits⟩
    have hread := (deserialize_versionOne hstrings hwritten).1 hfits
    refine ⟨_, hread, ofRecords_sameIndex ?_ ?_ ?_ ?_⟩ <;> exact KeyOrder.sortByKey_perm _ _

theorem reopen_versionOne_iff_sampleIndex :
    ∃ bytes reopened, written (writeStateVersionOne sampleIndex) = .ok bytes ∧
      deserializeStateFromReader bytes bytes.length = .ok reopened ∧
        reopened.SameIndex sampleIndex := by
  obtain ⟨bytes, hbytes⟩ := written_versionOne_ok storable_sampleIndex addressable_sampleIndex
  have hfits : FitsVersionOne sampleIndex := by
    unfold FitsVersionOne
    decide
  obtain ⟨reopened, hreopened, hsame⟩ :=
    (reopen_versionOne_iff sampleIndex hbytes).mpr ⟨storable_sampleIndex, hfits⟩
  exact ⟨bytes, reopened, hbytes, hreopened, hsame⟩

/-- An index of nine files without names, paths and times. -/
def nineEmptyFiles : BufferedIndexTransaction where
  files := .ofList ((List.range 9).map fun index ↦
    ⟨⟨UInt64.ofNat index⟩, ⟨5⟩, "", "", 0, 0, ⟨0⟩, ⟨none, none, none⟩⟩)

theorem storable_nineEmptyFiles : nineEmptyFiles.StringsStorable := by
  refine ⟨?_, ?_, ?_, ?_, ?_, ?_⟩ <;> rintro record hrecord
  case refine_4 =>
    have hmem := KeyedArena.mem_of_mem_ofList hrecord
    obtain ⟨index, _, rfl⟩ := List.mem_map.mp hmem
    exact ⟨storable_empty, storable_empty⟩
  all_goals cases hrecord

theorem nineEmptyFiles_rejected :
    ∃ bytes, written (writeStateVersionOne nineEmptyFiles) = .ok bytes ∧
      deserializeStateFromReader bytes bytes.length =
        .error (.corruptSnapshot "file records length exceeds remaining snapshot data") := by
  have haddressable : nineEmptyFiles.Addressable := by
    refine ⟨by decide, by decide, by decide, by decide, by decide, ?_, by decide⟩
    rintro changeSet ⟨⟩
  have hfits : ¬FitsVersionOne nineEmptyFiles := by
    unfold FitsVersionOne
    decide
  obtain ⟨bytes, hbytes⟩ := written_versionOne_ok storable_nineEmptyFiles haddressable
  exact ⟨bytes, hbytes, (deserialize_versionOne storable_nineEmptyFiles hbytes).2 hfits⟩

end Snapshot

end WinBlaze
