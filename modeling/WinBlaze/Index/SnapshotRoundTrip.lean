import WinBlaze.Index.Snapshot

/-!
# Writing and reopening a snapshot

Each writer of the snapshot format is matched with its reader, field by field
and section by section. The section readers bound the announced number of
records by the bytes that are left; the bound never rejects a section that
was written, since a record of the section is at least as long as the bound's
record size.
-/

namespace WinBlaze

namespace Snapshot

open ByteCodec

/-! ## Fields -/

theorem decodes_readExact (bytes : List UInt8) : Decodes (readExact bytes.length) bytes bytes := by
  intro rest
  have hlength : ¬(bytes ++ rest).length < bytes.length := by simp
  have hrest : (bytes ++ rest).length - bytes.length = rest.length := by simp
  simp [StateT.run, readExact, ByteReader.ofBytes]

theorem roundTrips_bytes (bytes : List UInt8) {count : ℕ} (hcount : bytes.length = count) :
    RoundTrips True count (writeAll bytes) (readExact count) bytes := by
  subst hcount
  exact ⟨bytes, Nat.le_refl _, encodesWhen_writeAll bytes, fun _ ↦ decodes_readExact bytes⟩

theorem roundTrips_u8 (value : UInt8) : RoundTrips True 1 (writeU8 value) readU8 value :=
  (roundTrips_bytes [value] rfl).last rfl

theorem roundTrips_u32 (value : UInt32) : RoundTrips True 4 (writeU32 value) readU32 value := by
  have hvalue : UInt32.ofNat (ofLeBytes (u32Bytes value)) = value := by
    rw [u32Bytes, ofLeBytes_leBytes value.toNat_lt]
    exact UInt32.ofNat_toNat
  exact (roundTrips_bytes (u32Bytes value) (length_leBytes 4 _)).last (congrArg pure hvalue)

theorem ofLeBytes_u64Bytes (value : UInt64) : UInt64.ofNat (ofLeBytes (u64Bytes value)) = value := by
  rw [u64Bytes, ofLeBytes_leBytes value.toNat_lt]
  exact UInt64.ofNat_toNat

theorem roundTrips_u64 (value : UInt64) : RoundTrips True 8 (writeU64 value) readU64 value :=
  (roundTrips_bytes (u64Bytes value) (length_leBytes 8 _)).last
    (congrArg pure (ofLeBytes_u64Bytes value))

theorem roundTrips_i64 (value : Int64) :
    RoundTrips True 8 (writeAll (i64Bytes value)) readI64 value := by
  have hvalue : (UInt64.ofNat (ofLeBytes (i64Bytes value))).toInt64 = value := by
    rw [i64Bytes, ofLeBytes_u64Bytes]
    rfl
  exact (roundTrips_bytes (i64Bytes value) (length_leBytes 8 _)).last (congrArg pure hvalue)

theorem roundTrips_len (value : ℕ) :
    RoundTrips (value < 2 ^ 64) 8 (writeLen value) readLen value := by
  obtain ⟨bytes, hwidth, hencodes, hdecodes⟩ := roundTrips_u64 (UInt64.ofNat value)
  refine ⟨bytes, hwidth, ⟨?_, ?_⟩, ?_⟩
  · intro hvalue written
    rw [writeLen, if_pos hvalue]
    exact hencodes.writes trivial written
  · intro hvalue written
    rw [writeLen, if_neg hvalue]
    exact ⟨_, rfl⟩
  · intro hvalue
    exact (hdecodes trivial).last (congrArg pure (UInt64.toNat_ofNat_of_lt' hvalue))

/-- The strings a snapshot can hold. -/
def Storable (value : String) : Prop := (asBytes value).length ≤ maxSnapshotStringBytes

theorem fromUTF8_asBytes (value : String) : String.fromUTF8? ⟨(asBytes value).toArray⟩ = some value := by
  have hbytes : (⟨(asBytes value).toArray⟩ : ByteArray) = value.toByteArray := by
    simp [asBytes]
  rw [hbytes, String.fromUTF8?, dif_pos value.isValidUTF8]
  rfl

theorem decodeUtf8_asBytes (value : String) : decodeUtf8 (asBytes value) = pure value := by
  rw [decodeUtf8, fromUTF8_asBytes]

/-- A test on the number of bytes left that the bytes of the field pass. -/
theorem decodes_of_remaining {α : Type} {bytes : List UInt8} {a : α} {d : ℕ → SnapshotReader α}
    (h : ∀ remaining, bytes.length ≤ remaining → Decodes (d remaining) bytes a) :
    Decodes (remainingBytes >>= d) bytes a := by
  intro rest
  have hlength : bytes.length ≤ (bytes ++ rest).length := by simp
  exact h (bytes ++ rest).length hlength rest

theorem roundTrips_string {value : String} (hvalue : Storable value) :
    RoundTrips True 8 (writeString value) readString value := by
  have hready : (asBytes value).length < 2 ^ 64 := hvalue.trans_lt (by decide)
  have hbytes := roundTrips_bytes (asBytes value) rfl
  have htext : RoundTrips True 0 (writeAll (asBytes value))
      (do
        let remaining ← remainingBytes
        if remaining < (asBytes value).length then
          corrupt "string length exceeds remaining snapshot data"
        else
          let bytes ← readExact (asBytes value).length
          decodeUtf8 bytes) value := by
    refine ⟨asBytes value, Nat.zero_le _, encodesWhen_writeAll _, fun _ ↦ ?_⟩
    refine decodes_of_remaining fun remaining hremaining ↦ ?_
    rw [if_neg (Nat.not_lt.mpr hremaining)]
    exact (decodes_readExact (asBytes value)).last (decodeUtf8_asBytes value)
  have hlen : RoundTrips True 8 (writeLen (asBytes value).length) readLen (asBytes value).length :=
    (roundTrips_len _).mono (iff_true_intro hready) (Nat.le_refl _)
  refine hlen.append ?_
  rw [if_neg (Nat.not_lt.mpr hvalue)]
  exact htext

def OptionStorable (value : Option String) : Prop := ∀ text ∈ value, Storable text

theorem roundTrips_optionString {value : Option String} (hvalue : OptionStorable value) :
    RoundTrips True 1 (writeOptionString value) readOptionString value := by
  cases value with
  | none => exact (roundTrips_u8 0).last rfl
  | some text =>
      refine (roundTrips_u8 1).append ?_
      have htext := roundTrips_string (hvalue text rfl)
      exact (htext.last (f := fun value ↦ pure (some value)) rfl).mono Iff.rfl (by decide)

theorem decode_encodeFileSystemKind (kind : FileSystemKind) :
    decodeFileSystemKind (encodeFileSystemKind kind) = .ok kind := by
  cases kind <;> rfl

theorem decode_encodeScanState (state : ScanState) :
    decodeScanState (encodeScanState state) = .ok state := by
  cases state <;> rfl

theorem decode_encodeFileChangeKind (kind : FileChangeKind) :
    decodeFileChangeKind (encodeFileChangeKind kind) = .ok kind := by
  cases kind <;> rfl

/-! ## Records written field by field -/

structure VolumeStorable (volume : VolumeRecord) : Prop where
  mountPoint : Storable volume.mountPoint
  label : OptionStorable volume.label

theorem roundTrips_volumeRecord {volume : VolumeRecord} (hvolume : VolumeStorable volume) :
    RoundTrips True 42 (writeVolumeRecord volume) readVolumeRecord volume := by
  refine (roundTrips_u64 _).append ?_
  refine (roundTrips_string hvolume.mountPoint).append ?_
  refine (roundTrips_optionString hvolume.label).append ?_
  refine (roundTrips_u8 _).append ?_
  refine RoundTrips.lift (decode_encodeFileSystemKind volume.fileSystem) ?_
  refine (roundTrips_u64 _).append ?_
  refine (roundTrips_u64 _).append ?_
  exact (roundTrips_u64 _).last rfl

theorem roundTrips_sessionRecord {session : ScanSession} (hpath : Storable session.rootPath) :
    RoundTrips True 57 (writeSessionRecord session) readSessionRecord session := by
  refine (roundTrips_u64 _).append ?_
  refine (roundTrips_u64 _).append ?_
  refine (roundTrips_string hpath).append ?_
  refine (roundTrips_u8 _).append ?_
  refine RoundTrips.lift (decode_encodeScanState session.state) ?_
  refine RoundTrips.last (a := session.progress) ?_ rfl
  refine (roundTrips_u64 _).append ?_
  refine (roundTrips_u64 _).append ?_
  refine (roundTrips_u64 _).append ?_
  exact (roundTrips_u64 _).last rfl

structure LineageStorable (lineage : FileLineageRecord) : Prop where
  previousFullPath : Storable lineage.previousFullPath
  currentFullPath : Storable lineage.currentFullPath

theorem toUInt8_ne_zero (flag : Bool) : decide (flag.toUInt8 ≠ 0) = flag := by
  cases flag <;> rfl

theorem roundTrips_lineageRecord {lineage : FileLineageRecord}
    (hlineage : LineageStorable lineage) :
    RoundTrips True 42 (writeLineageRecord lineage) readLineageRecord lineage := by
  refine (roundTrips_u64 _).append ?_
  refine (roundTrips_u64 _).append ?_
  refine (roundTrips_u64 _).append ?_
  refine (roundTrips_string hlineage.previousFullPath).append ?_
  refine (roundTrips_string hlineage.currentFullPath).append ?_
  refine (roundTrips_u8 _).append ?_
  refine (roundTrips_u8 _).last ?_
  rw [toUInt8_ne_zero, toUInt8_ne_zero]

structure ChangeStorable (change : FileChangeRecord) : Prop where
  previousFullPath : OptionStorable change.previousFullPath
  currentFullPath : OptionStorable change.currentFullPath

theorem roundTrips_fileChange {change : FileChangeRecord} (hchange : ChangeStorable change) :
    RoundTrips True 11 (writeFileChange change) readFileChange change := by
  refine (roundTrips_u64 _).append ?_
  refine (roundTrips_u8 _).append ?_
  refine RoundTrips.lift (decode_encodeFileChangeKind change.kind) ?_
  refine (roundTrips_optionString hchange.previousFullPath).append ?_
  exact (roundTrips_optionString hchange.currentFullPath).last rfl

/-! ## Records written through a buffer -/

theorem pushString_eq (buffer : List UInt8) (value : String) :
    pushString buffer value = buffer ++ pushString [] value := by
  simp [pushString, pushU64]

theorem pushSnapshotPath_eq (buffer : List UInt8) (value : String) :
    pushSnapshotPath buffer value = buffer ++ pushSnapshotPath [] value := by
  unfold pushSnapshotPath
  split
  · rfl
  · rw [pushString_eq, pushString_eq ([] ++ [1]), List.nil_append, List.append_assoc]

theorem pushOptionI64_eq (buffer : List UInt8) (value : Option Int64) :
    pushOptionI64 buffer value = buffer ++ pushOptionI64 [] value := by
  cases value <;> simp [pushOptionI64]

theorem pushParent_eq (buffer : List UInt8) (parent : Option DirectoryId) :
    pushParent buffer parent = buffer ++ pushParent [] parent := by
  cases parent <;> simp [pushParent, pushU64]

/-- A buffered string is laid out as a string written field by field. -/
theorem writeString_eq_writeAll {value : String} (hvalue : Storable value) :
    writeString value = writeAll (pushString [] value) := by
  have hready : (asBytes value).length < 2 ^ 64 := hvalue.trans_lt (by decide)
  rw [writeString, writeLen, if_pos hready, pushString, writeAll_append]
  rfl

theorem roundTrips_pushString {value : String} (hvalue : Storable value) :
    RoundTrips True 8 (writeAll (pushString [] value)) readString value :=
  writeString_eq_writeAll hvalue ▸ roundTrips_string hvalue

theorem roundTrips_pushSnapshotPath {value : String} (hvalue : Storable value) :
    RoundTrips True 1 (writeAll (pushSnapshotPath [] value)) (readSnapshotPath indexFormatVersion)
      value := by
  unfold pushSnapshotPath
  split
  case isTrue hempty =>
    have hvalue : value = "" := String.isEmpty_iff.mp hempty
    subst hvalue
    exact (roundTrips_u8 0).last rfl
  case isFalse =>
    rw [pushString_eq]
    refine (roundTrips_u8 1).appendBytes ?_
    exact (roundTrips_pushString hvalue).mono Iff.rfl (by decide)

theorem roundTrips_pushOptionI64 (value : Option Int64) :
    RoundTrips True 1 (writeAll (pushOptionI64 [] value)) readOptionI64 value := by
  cases value with
  | none => exact (roundTrips_u8 0).last rfl
  | some time =>
      refine (roundTrips_u8 1).appendBytes ?_
      have htime := (roundTrips_i64 time).last (f := fun value ↦ pure (some value)) rfl
      exact htime.mono Iff.rfl (by decide)

theorem roundTrips_pushParent (parent : Option DirectoryId) :
    RoundTrips True 1 (writeAll (pushParent [] parent)) readParent parent := by
  cases parent with
  | none => exact (roundTrips_u8 0).last rfl
  | some id =>
      refine (roundTrips_u8 1).appendBytes ?_
      have hid := (roundTrips_u64 id.val).last (f := fun value ↦ pure (some (DirectoryId.mk value))) rfl
      exact hid.mono Iff.rfl (by decide)

structure DirectoryStorable (directory : DirectoryRecord) : Prop where
  name : Storable directory.name
  fullPath : Storable directory.fullPath

theorem directoryBuffer_eq (directory : DirectoryRecord) :
    directoryBuffer directory =
      u64Bytes directory.id.val ++ (pushParent [] directory.parentDirectoryId ++
        (pushString [] directory.name ++ (pushString [] directory.fullPath ++
          (u64Bytes directory.directBytes ++ (u64Bytes directory.totalBytes ++
            (u64Bytes directory.directEntries ++ u64Bytes directory.totalEntries)))))) := by
  simp only [directoryBuffer, pushU64]
  rw [pushString_eq, pushString_eq (pushParent _ _), pushParent_eq]
  simp only [List.nil_append, List.append_assoc]

theorem roundTrips_directoryBuffer {directory : DirectoryRecord}
    (hdirectory : DirectoryStorable directory) :
    RoundTrips True 57 (writeAll (directoryBuffer directory)) readDirectoryRecord directory := by
  rw [directoryBuffer_eq]
  refine (roundTrips_u64 _).appendBytes ?_
  refine (roundTrips_pushParent _).appendBytes ?_
  refine (roundTrips_pushString hdirectory.name).appendBytes ?_
  refine (roundTrips_pushString hdirectory.fullPath).appendBytes ?_
  refine (roundTrips_u64 _).appendBytes ?_
  refine (roundTrips_u64 _).appendBytes ?_
  refine (roundTrips_u64 _).appendBytes ?_
  exact (roundTrips_u64 _).last rfl

structure FileStorable (file : FileRecord) : Prop where
  name : Storable file.name
  fullPath : Storable file.fullPath

theorem fileBuffer_eq (file : FileRecord) :
    fileBuffer file =
      u64Bytes file.id.val ++ (u64Bytes file.parentDirectoryId.val ++
        (pushString [] file.name ++ (pushSnapshotPath [] file.fullPath ++
          (u64Bytes file.sizeBytes ++ (u64Bytes file.allocationBytes ++
            (u32Bytes file.attributes.bits ++ (pushOptionI64 [] file.timestamps.created ++
              (pushOptionI64 [] file.timestamps.modified ++
                pushOptionI64 [] file.timestamps.accessed)))))))) := by
  simp only [fileBuffer, pushU64, pushU32]
  rw [pushOptionI64_eq, pushOptionI64_eq (pushOptionI64 _ _), pushOptionI64_eq (_ ++ _),
    pushSnapshotPath_eq, pushString_eq]
  simp only [List.nil_append, List.append_assoc]

theorem roundTrips_fileBuffer {file : FileRecord} (hfile : FileStorable file) :
    RoundTrips True 48 (writeAll (fileBuffer file)) (readFileRecord indexFormatVersion) file := by
  rw [fileBuffer_eq]
  refine (roundTrips_u64 _).appendBytes ?_
  refine (roundTrips_u64 _).appendBytes ?_
  refine (roundTrips_pushString hfile.name).appendBytes ?_
  refine (roundTrips_pushSnapshotPath hfile.fullPath).appendBytes ?_
  refine (roundTrips_u64 _).appendBytes ?_
  refine (roundTrips_u64 _).appendBytes ?_
  refine (roundTrips_u32 _).appendBytes ?_
  refine RoundTrips.last (a := file.timestamps) ?_ rfl
  refine (roundTrips_pushOptionI64 _).appendBytes ?_
  refine (roundTrips_pushOptionI64 _).appendBytes ?_
  exact (roundTrips_pushOptionI64 _).last rfl

/-! ## Sections -/

theorem validateCollectionLen_run {len minBytesPerItem : ℕ} (label : String) {reader : ByteReader}
    (hlen : len * minBytesPerItem ≤ reader.remaining) :
    (validateCollectionLen len minBytesPerItem label).run reader = .ok ((), reader) := by
  unfold validateCollectionLen
  split
  case isTrue => rfl
  case isFalse hmin =>
    have hbound : ¬reader.remaining / minBytesPerItem < len :=
      Nat.not_lt.mpr ((Nat.le_div_iff_mul_le (Nat.pos_of_ne_zero hmin)).mpr hlen)
    calc
      _ = StateT.run (if reader.remaining / minBytesPerItem < len then
          corrupt (label ++ " length exceeds remaining snapshot data")
        else pure ()) reader := rfl
      _ = .ok ((), reader) := by rw [if_neg hbound]; rfl

/-- A section whose records are at least as long as its bound assumes passes
the bound on the announced number of records. -/
theorem roundTrips_section {α β : Type} {q : Prop} {w minBytesPerItem : ℕ} {label : String}
    {l : List α} {e : α → Writer Unit} {k : ℕ → SnapshotReader β} {b : β}
    (hmin : minBytesPerItem ≤ w)
    (hk : RoundTrips q (l.length * w) (l.forM e) (k l.length) b) :
    RoundTrips (l.length < 2 ^ 64 ∧ q) 8 (do writeLen l.length; l.forM e)
      (do let len ← readLen; validateCollectionLen len minBytesPerItem label; k len) b := by
  have hrecords := hk.guard fun reader hreader ↦
    validateCollectionLen_run label ((Nat.mul_le_mul_left l.length hmin).trans hreader)
  exact (roundTrips_len l.length).seq (hrecords.mono Iff.rfl (by omega))

theorem roundTrips_volumeRecords {volumes : List VolumeRecord}
    (h : ∀ volume ∈ volumes, VolumeStorable volume) :
    RoundTrips (volumes.length < 2 ^ 64) 8 (writeVolumeRecords volumes) readVolumeRecords
      volumes := by
  have hrecords := roundTrips_forM volumes fun volume hvolume ↦
    roundTrips_volumeRecord (h volume hvolume)
  exact (roundTrips_section (by decide) hrecords).mono (by simp) (Nat.le_refl _)

theorem roundTrips_sessionRecords {sessions : List ScanSession}
    (h : ∀ session ∈ sessions, Storable session.rootPath) :
    RoundTrips (sessions.length < 2 ^ 64) 8 (writeSessionRecords sessions) readSessionRecords
      sessions := by
  have hrecords := roundTrips_forM sessions fun session hsession ↦
    roundTrips_sessionRecord (h session hsession)
  exact (roundTrips_section (by decide) hrecords).mono (by simp) (Nat.le_refl _)

theorem roundTrips_directoryRecords {directories : List DirectoryRecord}
    (h : ∀ directory ∈ directories, DirectoryStorable directory) :
    RoundTrips (directories.length < 2 ^ 64) 8 (writeDirectoryRecords directories)
      readDirectoryRecords (.ofList directories) := by
  have hrecords := roundTrips_forM directories fun directory hdirectory ↦
    roundTrips_directoryBuffer (h directory hdirectory)
  have hmap := hrecords.last
    (f := fun directories ↦ pure (KeyedArena.ofList directories : DirectoryRecords)) rfl
  exact (roundTrips_section (by decide) hmap).mono (by simp) (Nat.le_refl _)

theorem roundTrips_fileRecords {files : List FileRecord}
    (h : ∀ file ∈ files, FileStorable file) :
    RoundTrips (files.length < 2 ^ 64) 8 (writeFileRecords files)
      (readFileRecords indexFormatVersion) (.ofList files) := by
  have hrecords := roundTrips_forM files fun file hfile ↦ roundTrips_fileBuffer (h file hfile)
  have hmap := hrecords.last (f := fun files ↦ pure (KeyedArena.ofList files : FileRecords)) rfl
  exact (roundTrips_section (by decide) hmap).mono (by simp) (Nat.le_refl _)

theorem roundTrips_lineageRecords {lineages : List FileLineageRecord}
    (h : ∀ lineage ∈ lineages, LineageStorable lineage) :
    RoundTrips (lineages.length < 2 ^ 64) 8 (writeLineageRecords lineages) readLineageRecords
      lineages := by
  have hrecords := roundTrips_forM lineages fun lineage hlineage ↦
    roundTrips_lineageRecord (h lineage hlineage)
  exact (roundTrips_section (by decide) hrecords).mono (by simp) (Nat.le_refl _)

theorem roundTrips_changeSet {changeSet : FileChangeSet}
    (h : ∀ change ∈ changeSet.changes, ChangeStorable change) :
    RoundTrips (changeSet.changes.length < 2 ^ 64) 8 (writeChangeSet changeSet) readChangeSet
      changeSet := by
  have hrecords := roundTrips_forM changeSet.changes fun change hchange ↦
    roundTrips_fileChange (h change hchange)
  have hmap := hrecords.last (f := fun changes ↦ pure (FileChangeSet.mk changes)) rfl
  exact (roundTrips_section (by decide) hmap).mono (by simp) (Nat.le_refl _)

theorem roundTrips_changeSets {changeSets : List FileChangeSet}
    (h : ∀ changeSet ∈ changeSets, ∀ change ∈ changeSet.changes, ChangeStorable change) :
    RoundTrips (changeSets.length < 2 ^ 64 ∧
        ∀ changeSet ∈ changeSets, changeSet.changes.length < 2 ^ 64) 8
      (writeChangeSets changeSets) readChangeSets changeSets := by
  have hrecords := roundTrips_forM changeSets fun changeSet hchangeSet ↦
    roundTrips_changeSet (h changeSet hchangeSet)
  exact roundTrips_section (by decide) hrecords

/-! ## Whole snapshots -/

/-- Every string of the records fits the limit of the snapshot reader. -/
structure RecordsStorable (volumes : List VolumeRecord) (sessions : List ScanSession)
    (directories : List DirectoryRecord) (files : List FileRecord)
    (lineages : List FileLineageRecord) (fileChanges : List FileChangeSet) : Prop where
  volumes : ∀ volume ∈ volumes, VolumeStorable volume
  sessions : ∀ session ∈ sessions, Storable session.rootPath
  directories : ∀ directory ∈ directories, DirectoryStorable directory
  files : ∀ file ∈ files, FileStorable file
  lineages : ∀ lineage ∈ lineages, LineageStorable lineage
  fileChanges : ∀ changeSet ∈ fileChanges, ∀ change ∈ changeSet.changes, ChangeStorable change

/-- The numbers of records fit a 64-bit length. -/
structure LengthsFit (volumes : List VolumeRecord) (sessions : List ScanSession)
    (directories : List DirectoryRecord) (files : List FileRecord)
    (lineages : List FileLineageRecord) (fileChanges : List FileChangeSet) : Prop where
  volumes : volumes.length < 2 ^ 64
  sessions : sessions.length < 2 ^ 64
  directories : directories.length < 2 ^ 64
  files : files.length < 2 ^ 64
  lineages : lineages.length < 2 ^ 64
  changes : ∀ changeSet ∈ fileChanges, changeSet.changes.length < 2 ^ 64
  fileChanges : fileChanges.length < 2 ^ 64

/-- The transaction a snapshot of these records is read as. -/
def ofRecords (volumes : List VolumeRecord) (sessions : List ScanSession)
    (directories : List DirectoryRecord) (files : List FileRecord)
    (lineages : List FileLineageRecord) (fileChanges : List FileChangeSet) :
    BufferedIndexTransaction where
  volumes := .ofList volumes
  sessions := .ofList sessions
  directories := .ofList directories
  files := .ofList files
  lineages := lineages
  fileChanges := fileChanges
  committed := false

section Records

variable {volumes : List VolumeRecord} {sessions : List ScanSession}
  {directories : List DirectoryRecord} {files : List FileRecord}
  {lineages : List FileLineageRecord} {fileChanges : List FileChangeSet}

theorem LengthsFit.iff :
    (volumes.length < 2 ^ 64 ∧ sessions.length < 2 ^ 64 ∧ directories.length < 2 ^ 64 ∧
      files.length < 2 ^ 64 ∧ lineages.length < 2 ^ 64 ∧ fileChanges.length < 2 ^ 64 ∧
        ∀ changeSet ∈ fileChanges, changeSet.changes.length < 2 ^ 64) ↔
      LengthsFit volumes sessions directories files lineages fileChanges := by
  constructor
  · rintro ⟨hvolumes, hsessions, hdirectories, hfiles, hlineages, hfileChanges, hchanges⟩
    exact ⟨hvolumes, hsessions, hdirectories, hfiles, hlineages, hchanges, hfileChanges⟩
  · intro h
    exact ⟨h.volumes, h.sessions, h.directories, h.files, h.lineages, h.fileChanges, h.changes⟩

theorem roundTrips_sortedRecords
    (h : RecordsStorable volumes sessions directories files lineages fileChanges) :
    RoundTrips (LengthsFit volumes sessions directories files lineages fileChanges) 0
      (writeSortedRecords volumes sessions directories files lineages fileChanges) readState
      (ofRecords volumes sessions directories files lineages fileChanges) := by
  refine RoundTrips.mono (w := 0) ?_ LengthsFit.iff (Nat.le_refl _)
  refine (roundTrips_bytes indexMagic rfl).append ?_
  refine (roundTrips_u32 indexFormatVersion).append ?_
  refine (roundTrips_volumeRecords h.volumes).seq ?_
  refine (roundTrips_sessionRecords h.sessions).seq ?_
  refine (roundTrips_directoryRecords h.directories).seq ?_
  refine (roundTrips_fileRecords h.files).seq ?_
  refine (roundTrips_lineageRecords h.lineages).seq ?_
  refine RoundTrips.last (a := fileChanges) ?_ rfl
  exact (roundTrips_changeSets h.fileChanges).mono Iff.rfl (by omega)

/-- Whatever order the records are written in, reading the written bytes gives
the records back. -/
theorem deserialize_written {bytes : List UInt8}
    (h : RecordsStorable volumes sessions directories files lineages fileChanges)
    (hwritten : written (writeSortedRecords volumes sessions directories files lineages
      fileChanges) = .ok bytes) :
    deserializeStateFromReader bytes bytes.length =
      .ok (ofRecords volumes sessions directories files lineages fileChanges) := by
  unfold written at hwritten
  cases hrun : (writeSortedRecords volumes sessions directories files lineages fileChanges).run [] with
  | error error =>
      rw [hrun] at hwritten
      cases hwritten
  | ok result =>
      obtain ⟨⟨⟩, result⟩ := result
      rw [hrun] at hwritten
      have hresult : result = bytes := Except.ok.inj hwritten
      subst hresult
      have hread := (roundTrips_sortedRecords h).read_back hrun
      exact congrArg (Except.map Prod.fst) hread

theorem written_ok
    (h : RecordsStorable volumes sessions directories files lineages fileChanges)
    (hfit : LengthsFit volumes sessions directories files lineages fileChanges) :
    ∃ bytes, written (writeSortedRecords volumes sessions directories files lineages
      fileChanges) = .ok bytes := by
  obtain ⟨bytes, hrun⟩ := (roundTrips_sortedRecords h).run_ok hfit
  exact ⟨bytes, congrArg (Except.map Prod.snd) hrun⟩

end Records

end Snapshot

namespace BufferedIndexTransaction

/-- The transactions describe the same index: equal as maps from ids to
records, with the same history. -/
structure SameIndex (a b : BufferedIndexTransaction) : Prop where
  volumes : a.volumes.Same b.volumes
  sessions : a.sessions.Same b.sessions
  directories : a.directories.Same b.directories
  files : a.files.Same b.files
  lineages : a.lineages = b.lineages
  fileChanges : a.fileChanges = b.fileChanges

/-- Every string of the transaction is at most `maxSnapshotStringBytes` long. -/
def StringsStorable (tx : BufferedIndexTransaction) : Prop :=
  Snapshot.RecordsStorable tx.volumes.records tx.sessions.records tx.directories.records
    tx.files.records tx.lineages tx.fileChanges

/-- The numbers of records of the transaction fit the 64-bit address space. -/
def Addressable (tx : BufferedIndexTransaction) : Prop :=
  Snapshot.LengthsFit tx.volumes.records tx.sessions.records tx.directories.records
    tx.files.records tx.lineages tx.fileChanges

end BufferedIndexTransaction

namespace Snapshot

theorem ofRecords_sameIndex {tx : BufferedIndexTransaction} {volumes : List VolumeRecord}
    {sessions : List ScanSession} {directories : List DirectoryRecord} {files : List FileRecord}
    (hvolumes : volumes.Perm tx.volumes.records) (hsessions : sessions.Perm tx.sessions.records)
    (hdirectories : directories.Perm tx.directories.records)
    (hfiles : files.Perm tx.files.records) :
    (ofRecords volumes sessions directories files tx.lineages tx.fileChanges).SameIndex tx := by
  refine ⟨?_, ?_, ?_, ?_, rfl, rfl⟩
  · exact KeyedArena.same_ofList hvolumes
  · exact KeyedArena.same_ofList hsessions
  · exact KeyedArena.same_ofList hdirectories
  · exact KeyedArena.same_ofList hfiles

theorem recordsStorable_of_perm {tx : BufferedIndexTransaction} {volumes : List VolumeRecord}
    {sessions : List ScanSession} {directories : List DirectoryRecord} {files : List FileRecord}
    (hvolumes : volumes.Perm tx.volumes.records) (hsessions : sessions.Perm tx.sessions.records)
    (hdirectories : directories.Perm tx.directories.records)
    (hfiles : files.Perm tx.files.records) (h : tx.StringsStorable) :
    RecordsStorable volumes sessions directories files tx.lineages tx.fileChanges where
  volumes volume hmem := h.volumes volume (hvolumes.mem_iff.mp hmem)
  sessions session hmem := h.sessions session (hsessions.mem_iff.mp hmem)
  directories directory hmem := h.directories directory (hdirectories.mem_iff.mp hmem)
  files file hmem := h.files file (hfiles.mem_iff.mp hmem)
  lineages := h.lineages
  fileChanges := h.fileChanges

theorem lengthsFit_of_perm {tx : BufferedIndexTransaction} {volumes : List VolumeRecord}
    {sessions : List ScanSession} {directories : List DirectoryRecord} {files : List FileRecord}
    (hvolumes : volumes.Perm tx.volumes.records) (hsessions : sessions.Perm tx.sessions.records)
    (hdirectories : directories.Perm tx.directories.records)
    (hfiles : files.Perm tx.files.records) (h : tx.Addressable) :
    LengthsFit volumes sessions directories files tx.lineages tx.fileChanges where
  volumes := hvolumes.length_eq ▸ h.volumes
  sessions := hsessions.length_eq ▸ h.sessions
  directories := hdirectories.length_eq ▸ h.directories
  files := hfiles.length_eq ▸ h.files
  lineages := h.lineages
  changes := h.changes
  fileChanges := h.fileChanges

theorem writeState_eq (tx : BufferedIndexTransaction) :
    writeState tx = writeSortedRecords tx.snapshotVolumes tx.snapshotSessions
      tx.snapshotDirectories tx.snapshotFiles tx.lineages tx.fileChanges := rfl

/-- The records of a transaction can be written in any order, and reading them
gives the transaction back. -/
theorem reopen_writtenRecords {tx : BufferedIndexTransaction} {volumes : List VolumeRecord}
    {sessions : List ScanSession} {directories : List DirectoryRecord} {files : List FileRecord}
    (hstrings : tx.StringsStorable) (hvolumes : volumes.Perm tx.volumes.records)
    (hsessions : sessions.Perm tx.sessions.records)
    (hdirectories : directories.Perm tx.directories.records)
    (hfiles : files.Perm tx.files.records) :
    (tx.Addressable → ∃ bytes, written (writeSortedRecords volumes sessions directories files
      tx.lineages tx.fileChanges) = .ok bytes) ∧
    ∀ bytes, written (writeSortedRecords volumes sessions directories files tx.lineages
        tx.fileChanges) = .ok bytes →
      ∃ reopened, deserializeStateFromReader bytes bytes.length = .ok reopened ∧
        reopened.SameIndex tx := by
  have hstorable := recordsStorable_of_perm hvolumes hsessions hdirectories hfiles hstrings
  constructor
  · intro hfit
    apply written_ok hstorable
    exact lengthsFit_of_perm hvolumes hsessions hdirectories hfiles hfit
  · intro bytes hwritten
    exact ⟨_, deserialize_written hstorable hwritten,
      ofRecords_sameIndex hvolumes hsessions hdirectories hfiles⟩

/-- Reopening a snapshot gives back the transaction that was written, by
`writeState` or by `writeSortedRecords` over the same records in any order.
No string of the transaction may be longer than the reader's limit. -/
theorem reopen_written_snapshot (tx : BufferedIndexTransaction) (hstrings : tx.StringsStorable) :
    (tx.Addressable → ∃ bytes, written (writeState tx) = .ok bytes) ∧
    (∀ bytes, written (writeState tx) = .ok bytes →
      ∃ reopened, deserializeStateFromReader bytes bytes.length = .ok reopened ∧
        reopened.SameIndex tx) ∧
    (∀ volumes sessions directories files,
      volumes.Perm tx.volumes.records → sessions.Perm tx.sessions.records →
      directories.Perm tx.directories.records → files.Perm tx.files.records →
      (tx.Addressable → ∃ bytes, written (writeSortedRecords volumes sessions directories files
        tx.lineages tx.fileChanges) = .ok bytes) ∧
      ∀ bytes, written (writeSortedRecords volumes sessions directories files tx.lineages
          tx.fileChanges) = .ok bytes →
        ∃ reopened, deserializeStateFromReader bytes bytes.length = .ok reopened ∧
          reopened.SameIndex tx) := by
  have hvolumes : tx.snapshotVolumes.Perm tx.volumes.records := KeyOrder.sortByKey_perm _ _
  have hsessions : tx.snapshotSessions.Perm tx.sessions.records := KeyOrder.sortByKey_perm _ _
  have hdirectories : tx.snapshotDirectories.Perm tx.directories.records :=
    KeyOrder.sortByKey_perm _ _
  have hfiles : tx.snapshotFiles.Perm tx.files.records := KeyOrder.sortByKey_perm _ _
  obtain ⟨hwrites, hreads⟩ :=
    reopen_writtenRecords hstrings hvolumes hsessions hdirectories hfiles
  rw [writeState_eq]
  refine ⟨hwrites, hreads, ?_⟩
  intro volumes sessions directories files hvolumes hsessions hdirectories hfiles
  exact reopen_writtenRecords hstrings hvolumes hsessions hdirectories hfiles

/-- One record of every kind. -/
def sampleIndex : BufferedIndexTransaction :=
  let tx : BufferedIndexTransaction := {
    lineages := [⟨⟨7⟩, ⟨5⟩, ⟨5⟩, "C:\\b.txt", "C:\\a.txt", true, true⟩]
    fileChanges := [⟨[⟨⟨7⟩, .moved, some "C:\\b.txt", some "C:\\a.txt"⟩]⟩] }
  let tx := tx.insertVolume ⟨⟨1⟩, "C:\\", some "System", .ntfs, 1000, 400, ⟨5⟩⟩
  let tx := tx.upsertSession ⟨1, ⟨1⟩, "C:\\", .completed, ⟨2, 2, 7, 7⟩⟩
  let tx := tx.insertDirectory {
    id := ⟨5⟩, parentDirectoryId := none, name := "C:\\", fullPath := "C:\\" }
  tx.insertFile ⟨⟨7⟩, ⟨5⟩, "a.txt", "", 7, 4096, .archive, ⟨none, some 3, none⟩⟩

theorem storable_sampleIndex : sampleIndex.StringsStorable := by
  refine ⟨?_, ?_, ?_, ?_, ?_, ?_⟩
  · intro volume hvolume
    obtain rfl := List.mem_singleton.mp hvolume
    refine ⟨by unfold Storable; decide, ?_⟩
    rintro label ⟨⟩
    unfold Storable
    decide
  · intro session hsession
    obtain rfl := List.mem_singleton.mp hsession
    unfold Storable
    decide
  · intro directory hdirectory
    obtain rfl := List.mem_singleton.mp hdirectory
    exact ⟨by unfold Storable; decide, by unfold Storable; decide⟩
  · intro file hfile
    obtain rfl := List.mem_singleton.mp hfile
    exact ⟨by unfold Storable; decide, by unfold Storable; decide⟩
  · intro lineage hlineage
    obtain rfl := List.mem_singleton.mp hlineage
    exact ⟨by unfold Storable; decide, by unfold Storable; decide⟩
  · intro changeSet hchangeSet change hchange
    obtain rfl := List.mem_singleton.mp hchangeSet
    obtain rfl := List.mem_singleton.mp hchange
    refine ⟨?_, ?_⟩ <;> rintro path ⟨⟩ <;> unfold Storable <;> decide

theorem addressable_sampleIndex : sampleIndex.Addressable := by
  refine ⟨by decide, by decide, by decide, by decide, by decide, ?_, by decide⟩
  intro changeSet hchangeSet
  obtain rfl := List.mem_singleton.mp hchangeSet
  decide

theorem reopen_written_snapshot_sampleIndex :
    ∃ bytes reopened, written (writeState sampleIndex) = .ok bytes ∧
      deserializeStateFromReader bytes bytes.length = .ok reopened ∧
        reopened.SameIndex sampleIndex := by
  obtain ⟨hwrites, hreads, _⟩ := reopen_written_snapshot sampleIndex storable_sampleIndex
  obtain ⟨bytes, hbytes⟩ := hwrites addressable_sampleIndex
  obtain ⟨reopened, hreopened, hsame⟩ := hreads bytes hbytes
  exact ⟨bytes, reopened, hbytes, hreopened, hsame⟩

end Snapshot

end WinBlaze
