import WinBlaze.Index.MultipleRoots
import WinBlaze.Index.TreeTotals
import WinBlaze.Lib.Offsets

/-!
# What combining catalogs keeps

The records of every catalog form a block of the combined records. Its root keeps
its totals when no other directory of the catalog lacks a parent; the synthetic
root is the root unless the directory with number 5 is its own parent.
-/

namespace WinBlaze

namespace MultipleRoots

open Offsets ParentChain TreeSweep

/-! ## The combined records -/

/-- The numbers of directories and files. -/
def span (scan : TreeCatalog) : ℕ × ℕ := (scan.tree.directories.length, scan.tree.files.length)

def numbering (start : ℕ) (directories : List DirectoryRecord) : DirectoryNumbers :=
  .ofPairs (directories.zipIdx.map fun entry ↦ (entry.1.id, ⟨.ofNat (start + entry.2)⟩))

/-- The directories of a catalog behind `start.1` others. -/
def directoryBlock (start : ℕ × ℕ) (scan : TreeCatalog) : List DirectoryRecord :=
  scan.tree.directories.map (combinedDirectory (numbering (1 + start.1) scan.tree.directories))

def combinedFile (ids : DirectoryNumbers) (number : ℕ) (file : FileRecord) : FileRecord :=
  { file with
    id := ⟨.ofNat number⟩
    parentDirectoryId := (ids.find? file.parentDirectoryId).getD ⟨0⟩ }

def fileBlock (start : ℕ × ℕ) (scan : TreeCatalog) : List FileRecord :=
  scan.tree.files.zipIdx.map fun entry ↦
    combinedFile (numbering (1 + start.1) scan.tree.directories) (1 + start.2 + entry.2) entry.1

def metadataEntry (scan : TreeCatalog) (number : ℕ) (file : FileRecord) :
    Option (UInt64 × FileExportMetadata) :=
  (scan.exportMetadata.find? file.id.val).map fun value ↦ (.ofNat number, value)

def metadataBlock (start : ℕ × ℕ) (scan : TreeCatalog) : List (UInt64 × FileExportMetadata) :=
  scan.tree.files.zipIdx.filterMap fun entry ↦ metadataEntry scan (1 + start.2 + entry.2) entry.1

def combinedDirectories (scans : List TreeCatalog) : List DirectoryRecord :=
  multipleRoots :: atOffsets span directoryBlock 0 scans

def combinedFiles (scans : List TreeCatalog) : List FileRecord := atOffsets span fileBlock 0 scans

/-- The parent of every file is a directory of its catalog. -/
def FilesPlaced (scans : List TreeCatalog) : Prop :=
  ∀ scan ∈ scans, ∀ file ∈ scan.tree.files,
    file.parentDirectoryId ∈ scan.tree.directories.map DirectoryRecord.id

theorem ofNat_add_one (n : ℕ) : UInt64.ofNat n + 1 = UInt64.ofNat (n + 1) := by
  rw [UInt64.ofNat_add]
  rfl

theorem assignNumbers_eq (directories : List DirectoryRecord) (start : ℕ) :
    assignNumbers directories (.ofNat start) =
      (numbering start directories, .ofNat (start + directories.length)) := by
  unfold numbering IdMap.ofPairs KeyedArena.ofList
  induction directories using List.reverseRecOn with
  | nil => rfl
  | append_singleton front directory ih =>
      rw [assignNumbers, List.foldl_append, ← assignNumbers, ih, List.foldl_cons, List.foldl_nil,
        List.zipIdx_append, List.map_append, List.foldl_append, ofNat_add_one, List.length_append]
      simp [IdMap.set, Nat.add_assoc]

section Fold

variable {scan : TreeCatalog} {ids : DirectoryNumbers}

/-- What adding files to a state changes. -/
structure AddsFiles (scan : TreeCatalog) (ids : DirectoryNumbers) (start : ℕ)
    (entries : List (FileRecord × ℕ)) (state result : CombineState) : Prop where
  nextDirectory : result.nextDirectory = state.nextDirectory
  nextFile : result.nextFile = state.nextFile + .ofNat entries.length
  directories : result.transaction.directories = state.transaction.directories
  files : result.transaction.files = (entries.map fun entry ↦
    combinedFile ids (start + entry.2) entry.1).foldl KeyedArena.insert state.transaction.files
  supplemental : result.supplemental = state.supplemental ++
    entries.filterMap fun entry ↦ metadataEntry scan (start + entry.2) entry.1
  known : ∀ entry ∈ entries, ∃ parent, ids.find? entry.1.parentDirectoryId = some parent

/-- One more file gets the next number. -/
theorem addsFiles_addFile {state result : CombineState} {file : FileRecord} {number : ℕ}
    (hnext : state.nextFile = .ofNat number)
    (h : addFile (fun _ file ↦ file) scan ids state file = .ok result) :
    result.nextDirectory = state.nextDirectory ∧ result.nextFile = .ofNat (number + 1) ∧
      result.transaction.directories = state.transaction.directories ∧
      result.transaction.files = state.transaction.files.insert (combinedFile ids number file) ∧
      result.supplemental = state.supplemental ++ (metadataEntry scan number file).toList ∧
      ∃ parent, ids.find? file.parentDirectoryId = some parent := by
  unfold addFile at h
  dsimp only at h
  cases hparent : ids.find? file.parentDirectoryId with
  | none =>
      rw [hparent] at h
      cases h
  | some parent =>
      rw [hparent] at h
      obtain rfl := Except.ok.inj h
      refine ⟨rfl, ?_, rfl, ?_, ?_, parent, rfl⟩
      · simp only [hnext, ofNat_add_one]
      · simp only [BufferedIndexTransaction.insertFile, combinedFile, hparent, hnext, Option.getD_some]
      · unfold metadataEntry
        cases scan.exportMetadata.find? file.id.val with
        | none => simp
        | some value => simp [hnext]

/-- The files of a catalog are added under the next numbers, with their metadata. -/
theorem foldlM_addFile {files : List FileRecord} {state result : CombineState} (start k : ℕ)
    (h : files.foldlM (addFile (fun _ file ↦ file) scan ids) state = .ok result)
    (hnext : state.nextFile = .ofNat (start + k)) :
    AddsFiles scan ids start (files.zipIdx k) state result := by
  induction files generalizing state k with
  | nil =>
      cases h
      refine ⟨rfl, ?_, rfl, rfl, (List.append_nil _).symm, by simp⟩
      simp
  | cons file rest ih =>
      rw [List.foldlM_cons] at h
      cases hadd : addFile (fun _ file ↦ file) scan ids state file with
      | error error =>
          rw [hadd] at h
          cases h
      | ok middle =>
          rw [hadd] at h
          obtain ⟨hdirectory, hfile, hdirectories, hfiles, hsupplemental, hparent⟩ :=
            addsFiles_addFile hnext hadd
          have hrest := ih (k + 1) h hfile
          refine ⟨hrest.nextDirectory.trans hdirectory, ?_, hrest.directories.trans hdirectories, ?_, ?_,
            ?_⟩
          · rw [hrest.nextFile, hfile, hnext]
            simp only [List.length_zipIdx, List.length_cons, ← UInt64.ofNat_add]
            exact congrArg UInt64.ofNat (by omega)
          · rw [hrest.files, hfiles]
            rfl
          · rw [hrest.supplemental, hsupplemental, List.zipIdx_cons, List.filterMap_cons,
              List.append_assoc]
            cases metadataEntry scan (start + k) file <;> rfl
          · intro entry hentry
            rcases List.mem_cons.mp hentry with rfl | hmem
            · exact hparent
            · exact hrest.known entry hmem

theorem foldl_insertDirectory (directories : List DirectoryRecord)
    (transaction : BufferedIndexTransaction) (ids : DirectoryNumbers) :
    let result := directories.foldl (fun transaction directory ↦
      transaction.insertDirectory (combinedDirectory ids directory)) transaction
    result.directories = (directories.map (combinedDirectory ids)).foldl KeyedArena.insert
      transaction.directories ∧ result.files = transaction.files := by
  induction directories generalizing transaction with
  | nil => exact ⟨rfl, rfl⟩
  | cons directory rest ih => exact ih (transaction.insertDirectory (combinedDirectory ids directory))

/-- Volumes change neither directories nor files. -/
theorem foldl_addVolume (volumes : List VolumeRecord) (ids : DirectoryNumbers) (root : DirectoryId)
    (state : CombineState) :
    let result := volumes.foldl (addVolume ids root) state
    result.nextDirectory = state.nextDirectory ∧ result.nextFile = state.nextFile ∧
      result.transaction.directories = state.transaction.directories ∧
      result.transaction.files = state.transaction.files ∧
      result.supplemental = state.supplemental := by
  induction volumes generalizing state with
  | nil => exact ⟨rfl, rfl, rfl, rfl, rfl⟩
  | cons volume rest ih => exact ih (addVolume ids root state volume)

end Fold

/-- The records after some catalogs. -/
structure Combines (scans : List TreeCatalog) (state : CombineState) : Prop where
  nextDirectory : state.nextDirectory = .ofNat (1 + (scans.map span).sum.1)
  nextFile : state.nextFile = .ofNat (1 + (scans.map span).sum.2)
  directories : state.transaction.directories = .ofList (combinedDirectories scans)
  files : state.transaction.files = .ofList (combinedFiles scans)
  supplemental : state.supplemental = atOffsets span metadataBlock 0 scans
  placed : FilesPlaced scans

theorem ofList_append {κ ρ : Type*} [DecidableEq κ] {key : ρ → κ} (l m : List ρ) :
    (KeyedArena.ofList (l ++ m) : KeyedArena key) = m.foldl KeyedArena.insert (.ofList l) := by
  rw [KeyedArena.ofList, KeyedArena.ofList, List.foldl_append]

theorem find?_numbering_isSome {start : ℕ} {directories : List DirectoryRecord}
    {id parent : DirectoryId} (h : (numbering start directories).find? id = some parent) :
    id ∈ directories.map DirectoryRecord.id := by
  obtain ⟨⟨directory, k⟩, hmem, heq⟩ := List.mem_map.mp (IdMap.mem_of_find?_ofPairs h)
  have hdirectory := (Prod.mk.inj heq).1
  exact hdirectory ▸ List.mem_map_of_mem
    (List.mem_of_getElem? (List.mk_mem_zipIdx_iff_getElem?.mp hmem))

/-- One more catalog. -/
theorem Combines.addScan {front : List TreeCatalog} {state result : CombineState}
    (h : Combines front state) {scan : TreeCatalog}
    (hadd : MultipleRoots.addScan (fun _ file ↦ file) state scan = .ok result) :
    Combines (front ++ [scan]) result := by
  unfold MultipleRoots.addScan at hadd
  rw [h.nextDirectory, assignNumbers_eq] at hadd
  dsimp only at hadd
  set ids := numbering (1 + (front.map span).sum.1) scan.tree.directories with hids
  obtain ⟨hdirectory, hfile, hdirectories, hfiles, hsupplemental⟩ := foldl_addVolume scan.tree.volumes
    ids (sourceRoot ids scan) { state with
      nextDirectory := .ofNat (1 + (front.map span).sum.1 + scan.tree.directories.length) }
  set middle := scan.tree.volumes.foldl (addVolume ids (sourceRoot ids scan)) { state with
    nextDirectory := .ofNat (1 + (front.map span).sum.1 + scan.tree.directories.length) }
  obtain ⟨hinserted, hkept⟩ := foldl_insertDirectory scan.tree.directories middle.transaction ids
  have hadds := foldlM_addFile (1 + (front.map span).sum.2) 0 hadd (hfile.trans h.nextFile)
  have hsum : ((front ++ [scan]).map span).sum = (front.map span).sum + span scan := by simp
  refine ⟨?_, ?_, ?_, ?_, ?_, ?_⟩
  · rw [hadds.nextDirectory, hdirectory, hsum, Prod.fst_add, ← Nat.add_assoc]
    rfl
  · rw [hadds.nextFile, hfile, h.nextFile, hsum, Prod.snd_add, ← UInt64.ofNat_add, ← Nat.add_assoc,
      List.length_zipIdx]
    rfl
  · rw [hadds.directories, hinserted, hdirectories, combinedDirectories, atOffsets_concat,
      ← List.cons_append, ofList_append, zero_add, ← combinedDirectories, ← h.directories]
    rfl
  · rw [hadds.files, hkept, hfiles, combinedFiles, atOffsets_concat, ofList_append, zero_add,
      ← combinedFiles, ← h.files]
    rfl
  · rw [hadds.supplemental, hsupplemental, atOffsets_concat, zero_add, ← h.supplemental]
    rfl
  · intro other hother file hmem
    rcases List.mem_append.mp hother with hfront | hlast
    · exact h.placed other hfront file hmem
    · obtain rfl := List.mem_singleton.mp hlast
      obtain ⟨i, hi, rfl⟩ := List.mem_iff_getElem.mp hmem
      obtain ⟨parent, hparent⟩ := hadds.known (other.tree.files[i], i)
        (List.mk_mem_zipIdx_iff_getElem?.mpr (List.getElem?_eq_getElem hi))
      exact find?_numbering_isSome hparent

theorem combines_combinedState {scans : List TreeCatalog} {state : CombineState}
    (h : combinedState (fun _ file ↦ file) scans = .ok state) : Combines scans state := by
  induction scans using List.reverseRecOn generalizing state with
  | nil =>
      cases h
      refine ⟨rfl, rfl, rfl, rfl, rfl, ?_⟩
      simp [FilesPlaced]
  | append_singleton front scan ih =>
      rw [combinedState, List.foldlM_append] at h
      cases hfront : front.foldlM (MultipleRoots.addScan fun _ file ↦ file)
          { transaction := BufferedIndexTransaction.insertDirectory {} multipleRoots } with
      | error error =>
          rw [hfront] at h
          cases h
      | ok middle =>
          rw [hfront] at h
          have hlast : [scan].foldlM (MultipleRoots.addScan fun _ file ↦ file) middle = .ok state := h
          rw [List.foldlM_cons] at hlast
          cases hadd : MultipleRoots.addScan (fun _ file ↦ file) middle scan with
          | error error =>
              rw [hadd] at hlast
              cases hlast
          | ok last =>
              rw [hadd] at hlast
              cases hlast
              exact (ih hfront).addScan hadd

/-! ## Places -/

def directoryCount (scan : TreeCatalog) : ℕ := scan.tree.directories.length

def fileCount (scan : TreeCatalog) : ℕ := scan.tree.files.length

/-- The place of a catalog's directory among the combined ones. -/
def directoryPlace (scans : List TreeCatalog) (i k : ℕ) : ℕ := 1 + offset directoryCount scans i + k

/-- The place of a catalog's file among the combined ones. -/
def filePlace (scans : List TreeCatalog) (i k : ℕ) : ℕ := offset fileCount scans i + k

theorem offset_span (scans : List TreeCatalog) (i : ℕ) :
    offset span scans i = (offset directoryCount scans i, offset fileCount scans i) := by
  have hfst : (((scans.take i).map span).sum).1 = (((scans.take i).map span).map Prod.fst).sum :=
    map_list_sum (AddMonoidHom.fst ℕ ℕ) _
  have hsnd : (((scans.take i).map span).sum).2 = (((scans.take i).map span).map Prod.snd).sum :=
    map_list_sum (AddMonoidHom.snd ℕ ℕ) _
  rw [List.map_map] at hfst hsnd
  exact Prod.ext hfst hsnd

section Places

variable {scans : List TreeCatalog} {scan : TreeCatalog} {i k : ℕ}

theorem length_directoryBlock (start : ℕ × ℕ) (scan : TreeCatalog) :
    (directoryBlock start scan).length = directoryCount scan := List.length_map _

theorem length_fileBlock (start : ℕ × ℕ) (scan : TreeCatalog) :
    (fileBlock start scan).length = fileCount scan := by
  rw [fileBlock, List.length_map, List.length_zipIdx, fileCount]

theorem length_combinedDirectories (scans : List TreeCatalog) :
    (combinedDirectories scans).length = 1 + (scans.map directoryCount).sum := by
  rw [combinedDirectories, List.length_cons, length_atOffsets length_directoryBlock, Nat.add_comm]

theorem length_combinedFiles (scans : List TreeCatalog) :
    (combinedFiles scans).length = (scans.map fileCount).sum := length_atOffsets length_fileBlock 0 scans

theorem getElem?_combinedDirectories (hscan : scans[i]? = some scan) {directory : DirectoryRecord}
    (hget : scan.tree.directories[k]? = some directory) :
    (combinedDirectories scans)[directoryPlace scans i k]? =
      some (combinedDirectory (numbering (directoryPlace scans i 0) scan.tree.directories)
        directory) := by
  have hk : k < directoryCount scan := (List.getElem?_eq_some_iff.mp hget).1
  have hplace : directoryPlace scans i k = (offset directoryCount scans i + k) + 1 := by
    unfold directoryPlace
    omega
  rw [hplace, combinedDirectories, List.getElem?_cons_succ,
    getElem?_atOffsets length_directoryBlock 0 hscan hk, zero_add, offset_span, directoryBlock,
    List.getElem?_map, hget]
  rfl

theorem getElem?_combinedFiles (hscan : scans[i]? = some scan) {file : FileRecord}
    (hget : scan.tree.files[k]? = some file) :
    (combinedFiles scans)[filePlace scans i k]? =
      some (combinedFile (numbering (directoryPlace scans i 0) scan.tree.directories)
        (1 + filePlace scans i k) file) := by
  have hk : k < fileCount scan := (List.getElem?_eq_some_iff.mp hget).1
  rw [combinedFiles, filePlace, getElem?_atOffsets length_fileBlock 0 hscan hk, zero_add, offset_span,
    fileBlock, List.getElem?_map, List.getElem?_zipIdx, hget, ← Nat.add_assoc]
  simp [directoryPlace]

theorem directoryPlace_lt (hscan : scans[i]? = some scan) (hk : k < scan.tree.directories.length) :
    directoryPlace scans i k < (combinedDirectories scans).length := by
  have hle : offset directoryCount scans i + directoryCount scan ≤ (scans.map directoryCount).sum :=
    offset_add_le hscan
  rw [length_combinedDirectories]
  unfold directoryPlace
  unfold directoryCount at hle
  unfold directoryCount
  omega

/-- Every place but the first belongs to a catalog. -/
theorem exists_directoryPlace {place : ℕ} (h : place < (combinedDirectories scans).length) :
    place = 0 ∨ ∃ i scan k directory, scans[i]? = some scan ∧
      scan.tree.directories[k]? = some directory ∧ place = directoryPlace scans i k := by
  rw [length_combinedDirectories] at h
  cases place with
  | zero => exact Or.inl rfl
  | succ place =>
      obtain ⟨i, scan, k, hscan, hk, rfl⟩ :=
        exists_block scans directoryCount (show place < _ by omega)
      refine Or.inr ⟨i, scan, k, _, hscan, List.getElem?_eq_getElem hk, ?_⟩
      unfold directoryPlace
      omega

theorem directoryPlace_inj {j l : ℕ} {other : TreeCatalog} (hscan : scans[i]? = some scan)
    (hother : scans[j]? = some other) (hk : k < scan.tree.directories.length)
    (hl : l < other.tree.directories.length)
    (heq : directoryPlace scans i k = directoryPlace scans j l) : i = j ∧ k = l := by
  have hoffsets : offset directoryCount scans i + k = offset directoryCount scans j + l := by
    unfold directoryPlace at heq
    omega
  exact offset_inj hscan hother hk hl hoffsets

theorem directoryPlace_zero_add (scans : List TreeCatalog) (i k : ℕ) :
    directoryPlace scans i 0 + k = directoryPlace scans i k := rfl

end Places

/-! ## Numbers -/

/-- The catalogs are trees that were built. -/
def AllBuilt (scans : List TreeCatalog) : Prop := ∀ scan ∈ scans, scan.tree.IsBuilt

theorem find?_numbering {directories : List DirectoryRecord}
    (hids : (directories.map DirectoryRecord.id).Nodup) (start : ℕ) (id : DirectoryId) :
    (numbering start directories).find? id =
      (directoryIndex directories id.val).map fun k ↦ ⟨.ofNat (start + k)⟩ := by
  have hkeys : ((directories.zipIdx.map fun entry ↦
      (entry.1.id, (⟨.ofNat (start + entry.2)⟩ : DirectoryId))).map Prod.fst).Nodup := by
    rw [List.map_map]
    have hfst : (directories.zipIdx.map fun entry ↦ entry.1.id) =
        directories.map DirectoryRecord.id := by
      conv_rhs => rw [← List.zipIdx_map_fst 0 directories]
      rw [List.map_map]
      rfl
    exact hfst ▸ hids
  apply Option.ext
  intro number
  rw [numbering, IdMap.find?_ofPairs_iff hkeys, Option.map_eq_some_iff]
  simp only [List.mem_map, Prod.exists, List.mk_mem_zipIdx_iff_getElem?, Prod.mk.injEq,
    directoryIndex_eq_some_iff hids]
  constructor
  · rintro ⟨directory, k, hget, rfl, rfl⟩
    exact ⟨k, ⟨directory, hget, rfl⟩, rfl⟩
  · rintro ⟨k, ⟨directory, hget, hid⟩, rfl⟩
    exact ⟨directory, k, hget, DirectoryId.val_injective hid, rfl⟩

theorem directoryIndex_self {directories : List DirectoryRecord}
    (hids : (directories.map DirectoryRecord.id).Nodup) {k : ℕ} {directory : DirectoryRecord}
    (hget : directories[k]? = some directory) :
    directoryIndex directories directory.id.val = some k :=
  (directoryIndex_eq_some_iff hids _ k).mpr ⟨directory, hget, rfl⟩

section Numbers

variable {scans : List TreeCatalog} {scan : TreeCatalog} {i k : ℕ}

/-- Places are numbers. -/
theorem id_combinedDirectories (hbuilt : AllBuilt scans) {place : ℕ} {directory : DirectoryRecord}
    (hget : (combinedDirectories scans)[place]? = some directory) :
    directory.id = ⟨.ofNat place⟩ := by
  have hlt := (List.getElem?_eq_some_iff.mp hget).1
  rcases exists_directoryPlace hlt with rfl | ⟨i, scan, k, source, hscan, hsource, rfl⟩
  · obtain rfl := Option.some.inj hget
    rfl
  · rw [getElem?_combinedDirectories hscan hsource] at hget
    obtain rfl := Option.some.inj hget
    have hids := (hbuilt scan (List.mem_of_getElem? hscan)).ids
    simp only [combinedDirectory, find?_numbering hids, directoryIndex_self hids hsource,
      Option.map_some, Option.getD_some]
    rfl

theorem nodup_combinedDirectories (hbuilt : AllBuilt scans)
    (hcount : (combinedDirectories scans).length < 2 ^ 32) :
    ((combinedDirectories scans).map DirectoryRecord.id).Nodup := by
  rw [List.nodup_iff_injective_get]
  rintro ⟨a, ha⟩ ⟨b, hb⟩ heq
  rw [List.length_map] at ha hb
  simp only [List.get_eq_getElem, List.getElem_map] at heq
  rw [id_combinedDirectories hbuilt (List.getElem?_eq_getElem ha),
    id_combinedDirectories hbuilt (List.getElem?_eq_getElem hb)] at heq
  have hval := congrArg (fun id ↦ id.val.toNat) heq
  simp only [UInt64.toNat_ofNat'] at hval
  apply Fin.ext
  change a = b
  omega

theorem directoryIndex_combinedDirectories (hbuilt : AllBuilt scans)
    (hcount : (combinedDirectories scans).length < 2 ^ 32) {place : ℕ}
    (hplace : place < (combinedDirectories scans).length) :
    directoryIndex (combinedDirectories scans) (.ofNat place) = some place := by
  have hself := directoryIndex_self (nodup_combinedDirectories hbuilt hcount)
    (List.getElem?_eq_getElem hplace)
  rwa [id_combinedDirectories hbuilt (List.getElem?_eq_getElem hplace)] at hself

end Numbers

/-! ## Parents -/

section Parents

variable {scans : List TreeCatalog} {scan : TreeCatalog} {i k : ℕ} {directory : DirectoryRecord}

theorem structuralParent_none (hget : scan.tree.directories[k]? = some directory) :
    structuralParent scan.tree.directories none k =
      (directory.parentDirectoryId.filter fun parent ↦ parent ≠ directory.id).bind
        fun parent ↦ directoryIndex scan.tree.directories parent.val := by
  simp [structuralParent, hget]

/-- Either the parent is the directory itself, or it is the structural one, or
the synthetic root. -/
theorem parent_cases (hbuilt : AllBuilt scans) (hcount : (combinedDirectories scans).length < 2 ^ 32)
    (hscan : scans[i]? = some scan) (hget : scan.tree.directories[k]? = some directory) :
    ∃ kept place, (combinedDirectories scans)[directoryPlace scans i k]? = some kept ∧
      kept.parentDirectoryId = some ⟨.ofNat place⟩ ∧ place < (combinedDirectories scans).length ∧
      (place = directoryPlace scans i k ↔ directory.parentDirectoryId = some directory.id) ∧
      (directory.parentDirectoryId ≠ some directory.id →
        some place = ((structuralParent scan.tree.directories none k).map
          (directoryPlace scans i)).or (some 0)) := by
  have hids := (hbuilt scan (List.mem_of_getElem? hscan)).ids
  have hk := (List.getElem?_eq_some_iff.mp hget).1
  have hpositive : directoryPlace scans i k ≠ 0 := by
    unfold directoryPlace
    omega
  refine ⟨_, ((directory.parentDirectoryId.bind fun parent ↦
    directoryIndex scan.tree.directories parent.val).map (directoryPlace scans i)).getD 0,
    getElem?_combinedDirectories hscan hget, ?_, ?_, ?_, ?_⟩
  · simp only [combinedDirectory, Option.some.injEq]
    cases hparent : directory.parentDirectoryId with
    | none => rfl
    | some parent =>
        simp only [Option.bind_some, find?_numbering hids, directoryPlace_zero_add]
        cases directoryIndex scan.tree.directories parent.val <;> rfl
  · cases hplace : directory.parentDirectoryId.bind fun parent ↦
        directoryIndex scan.tree.directories parent.val with
    | none =>
        have hlt := directoryPlace_lt hscan hk
        rw [Option.map_none, Option.getD_none]
        omega
    | some l =>
        obtain ⟨parent, -, hl⟩ := Option.bind_eq_some_iff.mp hplace
        exact directoryPlace_lt hscan (directoryIndex_lt hl)
  · constructor
    · intro hself
      cases hplace : directory.parentDirectoryId.bind fun parent ↦
          directoryIndex scan.tree.directories parent.val with
      | none =>
          rw [hplace] at hself
          exact (hpositive hself.symm).elim
      | some l =>
          rw [hplace] at hself
          obtain ⟨parent, hparent, hl⟩ := Option.bind_eq_some_iff.mp hplace
          obtain ⟨-, rfl⟩ := directoryPlace_inj hscan hscan (directoryIndex_lt hl) hk hself
          obtain ⟨found, hfound, hval⟩ := (directoryIndex_eq_some_iff hids _ _).mp hl
          obtain rfl := Option.some.inj (hget.symm.trans hfound)
          rw [hparent, DirectoryId.val_injective hval]
    · intro hself
      rw [hself, Option.bind_some, directoryIndex_self hids hget]
      rfl
  · intro hne
    rw [structuralParent_none hget]
    cases hparent : directory.parentDirectoryId with
    | none => rfl
    | some parent =>
        have hother : parent ≠ directory.id := fun heq ↦ hne (heq ▸ hparent)
        simp only [Option.bind_some, Option.filter_some, decide_eq_true hother, if_true]
        cases directoryIndex scan.tree.directories parent.val <;> rfl

/-- Beneath the synthetic root every directory keeps its parent in its catalog. -/
theorem structuralParent_combined (hbuilt : AllBuilt scans)
    (hcount : (combinedDirectories scans).length < 2 ^ 32) (hscan : scans[i]? = some scan)
    (hk : k < scan.tree.directories.length) :
    structuralParent (combinedDirectories scans) (some 0) (directoryPlace scans i k) =
      ((structuralParent scan.tree.directories none k).map (directoryPlace scans i)).or (some 0) := by
  have hget := List.getElem?_eq_getElem hk
  obtain ⟨kept, place, hkept, hparent, hplace, hself, hother⟩ := parent_cases hbuilt hcount hscan hget
  have hnotRoot : some (directoryPlace scans i k) ≠ some 0 := by
    simp [directoryPlace]
  have hid := id_combinedDirectories hbuilt hkept
  rw [structuralParent, if_neg hnotRoot, hkept, Option.bind_some, hparent, hid]
  by_cases hsame : scan.tree.directories[k].parentDirectoryId = some scan.tree.directories[k].id
  · rw [hself.mpr hsame, structuralParent_none hget, hsame]
    simp [Option.filter_some]
  · have hne : (⟨.ofNat place⟩ : DirectoryId) ≠ ⟨.ofNat (directoryPlace scans i k)⟩ := by
      intro heq
      have hval := congrArg (fun id ↦ id.val.toNat) heq
      have hlt := directoryPlace_lt hscan hk
      simp only [UInt64.toNat_ofNat'] at hval
      exact hsame (hself.mp (by omega))
    rw [Option.filter_some, if_pos (decide_eq_true hne), Option.bind_some,
      directoryIndex_combinedDirectories hbuilt hcount hplace, hother hsame]
    cases structuralParent scan.tree.directories none k <;> rfl

/-- A combined directory is like a root only when it is its own parent. -/
theorem rootLike_combined (hbuilt : AllBuilt scans)
    (hcount : (combinedDirectories scans).length < 2 ^ 32) (hscan : scans[i]? = some scan)
    (hget : scan.tree.directories[k]? = some directory) {kept : DirectoryRecord}
    (hkept : (combinedDirectories scans)[directoryPlace scans i k]? = some kept) :
    RootLike (combinedDirectories scans) kept ↔ directory.parentDirectoryId = some directory.id := by
  obtain ⟨other, place, hother, hparent, hplace, hself, -⟩ := parent_cases hbuilt hcount hscan hget
  obtain rfl := Option.some.inj (hkept.symm.trans hother)
  have hid := id_combinedDirectories hbuilt hkept
  have hlt := directoryPlace_lt hscan (List.getElem?_eq_some_iff.mp hget).1
  rw [← hself]
  constructor
  · intro hlike
    rcases hlike _ hparent with hsame | hunknown
    · rw [hid] at hsame
      have hval := congrArg (fun id ↦ id.val.toNat) hsame
      simp only [UInt64.toNat_ofNat'] at hval
      omega
    · rw [directoryIndex_combinedDirectories hbuilt hcount hplace] at hunknown
      cases hunknown
  · rintro rfl parent hparentOf
    left
    rw [hid]
    exact Option.some.inj (hparentOf.symm.trans hparent)

end Parents

/-! ## The root -/

/-- All directories of the catalogs, in the order of their numbers. -/
def allDirectories (scans : List TreeCatalog) : List DirectoryRecord :=
  scans.flatMap fun scan ↦ scan.tree.directories

/-- The directory that gets number 5 is its own parent. -/
def FifthIsOwnParent (scans : List TreeCatalog) : Prop :=
  ∃ directory, (allDirectories scans)[4]? = some directory ∧
    directory.parentDirectoryId = some directory.id

section Root

variable {scans : List TreeCatalog}

theorem getElem?_allDirectories {scan : TreeCatalog} {i k : ℕ} (hscan : scans[i]? = some scan)
    (hk : k < scan.tree.directories.length) :
    (allDirectories scans)[offset directoryCount scans i + k]? = scan.tree.directories[k]? := by
  have hjoined : allDirectories scans =
      atOffsets directoryCount (fun _ scan ↦ scan.tree.directories) 0 scans :=
    (atOffsets_const _ 0 scans).symm
  have hlength : ∀ (_ : ℕ) (scan : TreeCatalog), scan.tree.directories.length = directoryCount scan :=
    fun _ _ ↦ rfl
  rw [hjoined, getElem?_atOffsets hlength 0 hscan hk]

theorem length_allDirectories (scans : List TreeCatalog) :
    (allDirectories scans).length = (scans.map directoryCount).sum := by
  rw [allDirectories, List.length_flatMap]
  rfl

/-- The synthetic root comes first and is like a root. -/
theorem chooseRoot_combined (hbuilt : AllBuilt scans)
    (hcount : (combinedDirectories scans).length < 2 ^ 32) :
    chooseRoot (combinedDirectories scans) (DirectoryLookup.new (combinedDirectories scans)) =
        some 5 ∧ FifthIsOwnParent scans ∨
      chooseRoot (combinedDirectories scans) (DirectoryLookup.new (combinedDirectories scans)) =
        some 0 ∧ ¬ FifthIsOwnParent scans := by
  have hids := nodup_combinedDirectories hbuilt hcount
  have hzero : isRootLike (DirectoryLookup.new (combinedDirectories scans)) multipleRoots = true := rfl
  have hfirst : (combinedDirectories scans).findIdx?
      (isRootLike (DirectoryLookup.new (combinedDirectories scans))) = some 0 := by
    rw [combinedDirectories, List.findIdx?_cons, ← combinedDirectories, hzero]
    rfl
  have hfive : (5 : UInt64) = .ofNat 5 := rfl
  unfold chooseRoot
  rw [DirectoryLookup.get_new hids hcount, hfirst, hfive]
  rcases Nat.lt_or_ge 5 (combinedDirectories scans).length with hlt | hge
  · rcases exists_directoryPlace hlt with habsurd | ⟨i, scan, k, directory, hscan, hget, hplace⟩
    · cases habsurd
    · have hk := (List.getElem?_eq_some_iff.mp hget).1
      have hkept := getElem?_combinedDirectories hscan hget
      have hfifth : (allDirectories scans)[4]? = some directory := by
        have hfour : offset directoryCount scans i + k = 4 := by
          unfold directoryPlace at hplace
          omega
        rw [← hfour, getElem?_allDirectories hscan hk, hget]
      rw [← hplace] at hkept
      rw [directoryIndex_combinedDirectories hbuilt hcount hlt, Option.filter_some, hkept,
        Option.any_some]
      have hlike := rootLike_combined hbuilt hcount hscan hget (hplace ▸ hkept)
      rw [← isRootLike_iff hids hcount] at hlike
      by_cases hself : directory.parentDirectoryId = some directory.id
      · left
        rw [if_pos (hlike.mpr hself)]
        exact ⟨rfl, directory, hfifth, hself⟩
      · right
        rw [if_neg fun h ↦ hself (hlike.mp h)]
        refine ⟨rfl, ?_⟩
        rintro ⟨other, hother, hown⟩
        obtain rfl := Option.some.inj (hfifth.symm.trans hother)
        exact hself hown
  · right
    have hnone : directoryIndex (combinedDirectories scans) (.ofNat 5) = none := by
      rw [Option.eq_none_iff_forall_ne_some]
      intro place hplace
      obtain ⟨directory, hget, hid⟩ := (directoryIndex_eq_some_iff hids _ place).mp hplace
      have hlt := (List.getElem?_eq_some_iff.mp hget).1
      rw [id_combinedDirectories hbuilt hget] at hid
      have hval := congrArg UInt64.toNat hid
      simp only [UInt64.toNat_ofNat'] at hval
      omega
    rw [hnone]
    refine ⟨rfl, ?_⟩
    rintro ⟨directory, hget, -⟩
    have hlt := (List.getElem?_eq_some_iff.mp hget).1
    rw [length_allDirectories] at hlt
    rw [length_combinedDirectories] at hge
    omega

end Root

end MultipleRoots

end WinBlaze
