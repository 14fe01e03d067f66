import WinBlaze.Index.CombinedTree

/-!
# The totals of combined catalogs

A catalog is a tree inside the combined one. Its directories keep their totals as
far as its root was the only one of them without a parent.
-/

namespace WinBlaze

namespace MultipleRoots

open Offsets ParentChain TreeSweep

/-! ## Chains -/

section Chains

variable {scans : List TreeCatalog} {scan : TreeCatalog} {i : ℕ}

theorem lt_of_structuralParent {directories : List DirectoryRecord} {root : Option ℕ} {k l : ℕ}
    (h : structuralParent directories root k = some l) : k < directories.length := by
  unfold structuralParent at h
  split at h
  · cases h
  · obtain ⟨directory, hget, -⟩ := Option.bind_eq_some_iff.mp h
    exact (List.getElem?_eq_some_iff.mp hget).1

/-- The children of a catalog's directories are those it has in its catalog. -/
theorem embeds_combined (hbuilt : AllBuilt scans)
    (hcount : (combinedDirectories scans).length < 2 ^ 32) (hscan : scans[i]? = some scan) :
    Embeds scan.tree.directories.length (structuralParent scan.tree.directories none)
      (structuralParent (combinedDirectories scans) (some 0)) (directoryPlace scans i) := by
  refine ⟨fun k l ↦ lt_of_structuralParent, fun k hk place ↦ ⟨fun hplace ↦ ?_, ?_⟩⟩
  · rcases exists_directoryPlace (lt_of_structuralParent hplace) with
      rfl | ⟨j, other, l, directory, hother, hget, rfl⟩
    · rw [structuralParent_root rfl] at hplace
      cases hplace
    · have hl := (List.getElem?_eq_some_iff.mp hget).1
      rw [structuralParent_combined hbuilt hcount hother hl] at hplace
      cases hparent : structuralParent other.tree.directories none l with
      | none =>
          rw [hparent] at hplace
          have hzero : 0 = directoryPlace scans i k := Option.some.inj hplace
          unfold directoryPlace at hzero
          omega
      | some above =>
          rw [hparent] at hplace
          have hsame : directoryPlace scans j above = directoryPlace scans i k := Option.some.inj hplace
          have habove : above < other.tree.directories.length :=
            structuralParent_lt (by simp) hparent
          obtain ⟨rfl, rfl⟩ := directoryPlace_inj hother hscan habove hk hsame
          obtain rfl := Option.some.inj (hscan.symm.trans hother)
          exact ⟨l, rfl, hparent⟩
  · rintro ⟨l, rfl, hparent⟩
    rw [structuralParent_combined hbuilt hcount hscan (lt_of_structuralParent hparent), hparent]
    rfl

theorem ends_combined (hbuilt : AllBuilt scans)
    (hcount : (combinedDirectories scans).length < 2 ^ 32)
    (hacyclic : ∀ scan ∈ scans, AcyclicParents scan.tree.directories) (place : ℕ) :
    Ends (structuralParent (combinedDirectories scans) (some 0)) place := by
  have hroot : Ends (structuralParent (combinedDirectories scans) (some 0)) 0 :=
    ends_of_none (structuralParent_root rfl)
  cases hparent : structuralParent (combinedDirectories scans) (some 0) place with
  | none => exact ends_of_none hparent
  | some above =>
      rcases exists_directoryPlace (lt_of_structuralParent hparent) with
        rfl | ⟨i, scan, k, directory, hscan, hget, rfl⟩
      · exact hroot
      · have hmem := List.mem_of_getElem? hscan
        have hends : Ends (structuralParent scan.tree.directories none) k :=
          ends_structuralParent (hbuilt scan hmem).ids (hacyclic scan hmem) k
        have hk := (List.getElem?_eq_some_iff.mp hget).1
        clear hparent hget
        revert hk
        refine Ends.induction (P := fun k ↦ k < scan.tree.directories.length →
          Ends _ (directoryPlace scans i k)) (fun k ih hk ↦ ?_) hends
        have hnext := structuralParent_combined hbuilt hcount hscan hk
        cases hown : structuralParent scan.tree.directories none k with
        | none =>
            rw [hown] at hnext
            exact (ends_iff_of_some hnext).mpr hroot
        | some l =>
            rw [hown] at hnext
            have hl : l < scan.tree.directories.length := structuralParent_lt (by simp) hown
            exact (ends_iff_of_some hnext).mpr (ih l hown hl)

/-- A directory has no structural parent of its own when it is like a root. -/
theorem structuralParent_none_eq_none_iff {directories : List DirectoryRecord} {k : ℕ}
    {directory : DirectoryRecord} (hget : directories[k]? = some directory) :
    structuralParent directories none k = none ↔ RootLike directories directory := by
  have heq : structuralParent directories none k =
      (directory.parentDirectoryId.filter fun parent ↦ parent ≠ directory.id).bind
        fun parent ↦ directoryIndex directories parent.val := by
    simp [structuralParent, hget]
  rw [heq, RootLike]
  cases directory.parentDirectoryId with
  | none => simp
  | some parent => by_cases hself : parent = directory.id <;> simp [Option.filter_some, hself]

/-- Where only the root is like a root, all others have their own parent. -/
theorem structuralParent_onlyRoot {directories : List DirectoryRecord} {root : ℕ}
    (hroot : ∀ k directory, directories[k]? = some directory →
      (RootLike directories directory ↔ k = root)) :
    structuralParent directories (some root) = structuralParent directories none := by
  funext k
  cases hget : directories[k]? with
  | none => simp [structuralParent, hget]
  | some directory =>
      have hown := structuralParent_none_eq_none_iff hget
      rw [hroot k directory hget] at hown
      by_cases hk : k = root
      · rw [structuralParent_root (congrArg some hk.symm), hown.mpr hk]
      · obtain ⟨parent, hparent⟩ := Option.ne_none_iff_exists'.mp fun h ↦ hk (hown.mp h)
        rw [hparent]
        rw [structuralParent, if_neg (by simp), hget, Option.bind_some, Option.or_none] at hparent
        rw [structuralParent, if_neg (by simpa using hk), hget, Option.bind_some, hparent]
        rfl

end Chains

/-! ## Files -/

section Files

variable {scans : List TreeCatalog} {scan : TreeCatalog} {i k : ℕ}

theorem fileDirectory_of_placed (hbuilt : AllBuilt scans) (hplaced : FilesPlaced scans)
    (hscan : scan ∈ scans) {file : FileRecord} (hfile : file ∈ scan.tree.files) :
    ∃ l < scan.tree.directories.length,
      directoryIndex scan.tree.directories file.parentDirectoryId.val = some l := by
  obtain ⟨directory, hmem, hid⟩ := List.mem_map.mp (hplaced scan hscan file hfile)
  obtain ⟨l, hl, rfl⟩ := List.mem_iff_getElem.mp hmem
  exact ⟨l, hl, hid ▸ directoryIndex_self (hbuilt scan hscan).ids (List.getElem?_eq_getElem hl)⟩

/-- A combined file is in the directory that holds it in its catalog. -/
theorem fileDirectory_combinedFile (hbuilt : AllBuilt scans)
    (hcount : (combinedDirectories scans).length < 2 ^ 32) (hscan : scans[i]? = some scan)
    {file : FileRecord} {l : ℕ} (root : Option ℕ) (number : ℕ)
    (hl : directoryIndex scan.tree.directories file.parentDirectoryId.val = some l) :
    fileDirectory (combinedDirectories scans) root
      (combinedFile (numbering (directoryPlace scans i 0) scan.tree.directories) number file) =
        some (directoryPlace scans i l) := by
  have hids := (hbuilt scan (List.mem_of_getElem? hscan)).ids
  unfold fileDirectory combinedFile
  simp only [find?_numbering hids, hl, Option.map_some, Option.getD_some, directoryPlace_zero_add]
  rw [directoryIndex_combinedDirectories hbuilt hcount (directoryPlace_lt hscan (directoryIndex_lt hl))]
  rfl

theorem filter_zipIdx_map {α β γ : Type*} (l : List α) (g : α × ℕ → β) (p : β → Bool) (q : α → Bool)
    (value : β → γ) (own : α → γ)
    (h : ∀ entry ∈ l.zipIdx, p (g entry) = q entry.1 ∧ value (g entry) = own entry.1) :
    ((l.zipIdx.map g).filter p).map value = (l.filter q).map own := by
  have hfst : l = l.zipIdx.map Prod.fst := (List.zipIdx_map_fst 0 l).symm
  conv_rhs => rw [hfst]
  have hfilter : l.zipIdx.filter (p ∘ g) = l.zipIdx.filter (q ∘ Prod.fst) :=
    List.filter_congr fun entry hentry ↦ (h entry hentry).1
  rw [List.filter_map, List.map_map, List.filter_map, List.map_map, hfilter]
  apply List.map_congr_left
  intro entry hentry
  exact (h entry (List.mem_of_mem_filter hentry)).2

/-- The files in a directory are those it holds in its catalog. -/
theorem filesAt_combined (hbuilt : AllBuilt scans)
    (hcount : (combinedDirectories scans).length < 2 ^ 32) (hplaced : FilesPlaced scans)
    (hscan : scans[i]? = some scan) (hk : k < scan.tree.directories.length) :
    (filesAt (combinedDirectories scans) (some 0) (combinedFiles scans)
        (directoryPlace scans i k)).map FileRecord.contribution =
      (filesAt scan.tree.directories none scan.tree.files k).map FileRecord.contribution := by
  have hblock : ∀ j other, scans[j]? = some other → ∀ entry ∈ other.tree.files.zipIdx, ∃ l,
      l < other.tree.directories.length ∧
      directoryIndex other.tree.directories entry.1.parentDirectoryId.val = some l ∧
      fileDirectory (combinedDirectories scans) (some 0)
        (combinedFile (numbering (1 + (0 + offset span scans j).1) other.tree.directories)
          (1 + (0 + offset span scans j).2 + entry.2) entry.1) = some (directoryPlace scans j l) := by
    intro j other hother entry hentry
    have hmem := List.mem_of_getElem? (List.mk_mem_zipIdx_iff_getElem?.mp hentry)
    obtain ⟨l, hlt, hl⟩ := fileDirectory_of_placed hbuilt hplaced (List.mem_of_getElem? hother) hmem
    refine ⟨l, hlt, hl, ?_⟩
    rw [zero_add, offset_span]
    exact fileDirectory_combinedFile hbuilt hcount hother (some 0) _ hl
  unfold filesAt
  rw [combinedFiles, filter_atOffsets hscan]
  · refine filter_zipIdx_map _ _ _ _ _ _ fun entry hentry ↦ ⟨?_, rfl⟩
    obtain ⟨l, hlt, hl, hdirectory⟩ := hblock i scan hscan entry hentry
    rw [hdirectory, fileDirectory, hl]
    simp only [Option.some.injEq, Option.some_or, decide_eq_decide]
    exact ⟨fun heq ↦ (directoryPlace_inj hscan hscan hlt hk heq).2, fun heq ↦ heq ▸ rfl⟩
  · intro j other hother hne file hfile
    obtain ⟨entry, hentry, rfl⟩ := List.mem_map.mp hfile
    obtain ⟨l, hlt, -, hdirectory⟩ := hblock j other hother entry hentry
    rw [hdirectory]
    exact decide_eq_false fun heq ↦ hne (directoryPlace_inj hother hscan hlt hk (Option.some.inj heq)).1

/-- A directory's total in the combined tree, from its catalog alone. -/
theorem total_combined (hbuilt : AllBuilt scans)
    (hcount : (combinedDirectories scans).length < 2 ^ 32) (hplaced : FilesPlaced scans)
    (hscan : scans[i]? = some scan) (hk : k < scan.tree.directories.length) :
    total (combinedDirectories scans).length (structuralParent (combinedDirectories scans) (some 0))
        (fun place ↦ ((filesAt (combinedDirectories scans) (some 0) (combinedFiles scans) place).map
          FileRecord.contribution).sum) DirRollup.mark (directoryPlace scans i k) =
      total scan.tree.directories.length (structuralParent scan.tree.directories none)
        (fun k ↦ ((filesAt scan.tree.directories none scan.tree.files k).map
          FileRecord.contribution).sum) DirRollup.mark k := by
  refine (embeds_combined hbuilt hcount hscan).total_eq (fun l hl ↦ directoryPlace_lt hscan hl) ?_
    (fun l hl ↦ ?_) DirRollup.mark hk
  · intro a b heq
    exact Nat.add_left_cancel heq
  · exact congrArg List.sum (filesAt_combined hbuilt hcount hplaced hscan hl)

end Files

/-! ## Root totals -/

section RootTotals

variable {tree : TreeIndex}

theorem rollupFor_eq (h : tree.IsBuilt) {id : UInt64} {k : ℕ}
    (hk : directoryIndex tree.directories id = some k) :
    tree.rollupFor id = tree.nodes[k]?.map DirNode.rollup := by
  rw [TreeIndex.rollupFor, h.lookup, DirectoryLookup.get_new h.ids h.length, hk, Option.bind_some]

/-- The root holds the totals of all files and of all other directories. -/
theorem rollup_root (h : tree.IsBuilt) {root : ℕ} (hroot : tree.root = some root)
    (hends : ∀ k, Ends (structuralParent tree.directories tree.root) k) :
    ∃ node, tree.nodes[root]? = some node ∧ node.rollup =
      (tree.files.map FileRecord.contribution).sum + (tree.directories.length - 1) • DirRollup.mark := by
  have hlt := h.root_lt root hroot
  obtain ⟨node, hnode, htotal⟩ := h.rollup hends (by simp [hroot]) root hlt
  refine ⟨node, hnode, ?_⟩
  rw [htotal, total_eq_sum_filesUnder h.root_lt hends tree.files hlt,
    filesUnder_root hends hroot hlt, card_descendants_root hends hroot hlt]

/-- Files with a known parent are placed whatever the root is. -/
theorem filesAt_of_known {directories : List DirectoryRecord} {files : List FileRecord}
    (hknown : ∀ file ∈ files, ∃ l, directoryIndex directories file.parentDirectoryId.val = some l)
    (root : Option ℕ) (k : ℕ) :
    filesAt directories root files k = filesAt directories none files k := by
  refine List.filter_congr fun file hfile ↦ ?_
  obtain ⟨l, hl⟩ := hknown file hfile
  rw [fileDirectory, fileDirectory, hl, Option.some_or, Option.some_or]

theorem rootEntry_eq {index : ℕ} {directory : DirectoryRecord} {node : DirNode}
    (hroot : tree.root = some index) (hget : tree.directories[index]? = some directory)
    (hnode : tree.nodes[index]? = some node) : tree.rootEntry = some (directory, node.rollup) := by
  rw [TreeIndex.rootEntry, hroot, Option.bind_some, hget, Option.bind_some, hnode, Option.map_some]

end RootTotals

/-! ## The combined tree -/

section Combined

variable {toLowercase : String → String} {scans : List TreeCatalog} {fuel : ℕ}

theorem exists_root_of_checkRoots {roots : List String}
    (h : checkRoots toLowercase scans = .ok roots) : ∀ scan ∈ scans, scan.tree.rootEntry ≠ none := by
  induction scans using List.reverseRecOn generalizing roots with
  | nil => simp
  | append_singleton front scan ih =>
      rw [checkRoots, List.foldlM_append, ← checkRoots] at h
      cases hfront : checkRoots toLowercase front with
      | error error =>
          rw [hfront] at h
          cases h
      | ok before =>
          intro other hother
          rcases List.mem_append.mp hother with hmem | hlast
          · exact ih hfront other hmem
          · obtain rfl := List.mem_singleton.mp hlast
            intro hnone
            have hnext : ∀ f : List String → Except CombineError (List String),
                ((Except.ok before : Except CombineError (List String)) >>= f) = f before := fun _ ↦ rfl
            rw [hfront, hnext, List.foldlM_cons, hnone] at h
            cases h

theorem sortByKey_of_places {α : Type*} {f : α → ℕ} {l : List α} (start : ℕ)
    (h : ∀ i a, l[i]? = some a → f a = start + i) : KeyOrder.sortByKey f l = l := by
  apply KeyOrder.sortByKey_of_pairwise
  rw [List.pairwise_iff_getElem]
  intro i j hi hj hij
  rw [h i _ (List.getElem?_eq_getElem hi), h j _ (List.getElem?_eq_getElem hj)]
  omega

/-- Every place among the files belongs to a catalog. -/
theorem exists_filePlace {place : ℕ} (h : place < (combinedFiles scans).length) :
    ∃ i scan k file, scans[i]? = some scan ∧ scan.tree.files[k]? = some file ∧
      place = filePlace scans i k := by
  rw [length_combinedFiles] at h
  obtain ⟨i, scan, k, hscan, hk, rfl⟩ := exists_block scans fileCount h
  exact ⟨i, scan, k, _, hscan, List.getElem?_eq_getElem hk, rfl⟩

theorem id_combinedFiles {place : ℕ} {file : FileRecord}
    (hget : (combinedFiles scans)[place]? = some file) : file.id = ⟨.ofNat (1 + place)⟩ := by
  obtain ⟨i, scan, k, source, hscan, hsource, rfl⟩ :=
    exists_filePlace (List.getElem?_eq_some_iff.mp hget).1
  rw [getElem?_combinedFiles hscan hsource] at hget
  obtain rfl := Option.some.inj hget
  rfl

theorem nodup_combinedFiles (hcount : (combinedFiles scans).length < 2 ^ 32) :
    ((combinedFiles scans).map FileRecord.id).Nodup := by
  rw [List.nodup_iff_injective_get]
  rintro ⟨a, ha⟩ ⟨b, hb⟩ heq
  rw [List.length_map] at ha hb
  simp only [List.get_eq_getElem, List.getElem_map] at heq
  rw [id_combinedFiles (List.getElem?_eq_getElem ha), id_combinedFiles (List.getElem?_eq_getElem hb)] at heq
  have hval := congrArg (fun id ↦ id.val.toNat) heq
  simp only [UInt64.toNat_ofNat'] at hval
  apply Fin.ext
  change a = b
  omega

/-- What `combine` builds when it accepts the catalogs. -/
structure IsCombined (scans : List TreeCatalog) (combined : TreeCatalog) : Prop where
  directories : combined.tree.directories = combinedDirectories scans
  files : combined.tree.files = combinedFiles scans
  built : combined.tree.IsBuilt
  exportMetadata : combined.exportMetadata = .ofPairs (atOffsets span metadataBlock 0 scans)
  placed : FilesPlaced scans
  roots : ∀ scan ∈ scans, scan.tree.rootEntry ≠ none

theorem exists_combine (hbuilt : AllBuilt scans)
    (hdirectories : (combinedDirectories scans).length < 2 ^ 32)
    (hfiles : (combinedFiles scans).length < 2 ^ 32)
    (hfuel : (combinedDirectories scans).length ≤ fuel)
    (haccepts : ∀ error, combine fuel toLowercase scans ≠ .error error) :
    ∃ combined, combine fuel toLowercase scans = .ok (some combined) ∧ IsCombined scans combined := by
  unfold combine combineWith at haccepts ⊢
  cases hempty : scans.isEmpty with
  | true =>
      rw [hempty] at haccepts
      exact (haccepts _ rfl).elim
  | false =>
      rw [hempty] at haccepts
      cases hroots : checkRoots toLowercase scans with
      | error error =>
          rw [hroots] at haccepts
          exact (haccepts error rfl).elim
      | ok roots =>
          rw [hroots] at haccepts
          cases hstate : combinedState (fun _ file ↦ file) scans with
          | error error =>
              rw [hstate] at haccepts
              exact (haccepts error rfl).elim
          | ok state =>
              have hcombines := combines_combinedState hstate
              have hdirectoryRecords : state.transaction.directories.records =
                  combinedDirectories scans := by
                rw [hcombines.directories,
                  KeyedArena.ofList_records (nodup_combinedDirectories hbuilt hdirectories)]
              have hfileRecords : state.transaction.files.records = combinedFiles scans := by
                rw [hcombines.files, KeyedArena.ofList_records (nodup_combinedFiles hfiles)]
              have hsnapshot : state.transaction.snapshotDirectories = combinedDirectories scans := by
                rw [BufferedIndexTransaction.snapshotDirectories, hdirectoryRecords]
                refine sortByKey_of_places 0 fun place directory hget ↦ ?_
                have hlt := (List.getElem?_eq_some_iff.mp hget).1
                rw [id_combinedDirectories hbuilt hget, UInt64.toNat_ofNat']
                omega
              have hfileSnapshot : state.transaction.snapshotFiles = combinedFiles scans := by
                rw [BufferedIndexTransaction.snapshotFiles, hfileRecords]
                refine sortByKey_of_places 1 fun place file hget ↦ ?_
                have hlt := (List.getElem?_eq_some_iff.mp hget).1
                rw [id_combinedFiles hget, UInt64.toNat_ofNat']
                omega
              obtain ⟨tree, hbuild, htreeDirectories, htreeFiles, htree⟩ := TreeIndex.exists_build
                state.transaction (hdirectoryRecords ▸ hdirectories) (hfileRecords ▸ hfiles)
                (hdirectoryRecords ▸ hfuel)
              refine ⟨⟨tree, .ofPairs (atOffsets span metadataBlock 0 scans)⟩, ?_,
                htreeDirectories.trans hsnapshot, htreeFiles.trans hfileSnapshot, htree, rfl,
                hcombines.placed, exists_root_of_checkRoots hroots⟩
              simp only [Bool.false_eq_true, if_false, Except.bind, Except.map, hbuild, Option.map_some,
                hcombines.supplemental]
              rfl

end Combined

end MultipleRoots

end WinBlaze
