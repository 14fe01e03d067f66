import WinBlaze.Index.ImportSafety

/-!
# Directories of an import

Every row that is laid out was checked, every directory has the number of its
place, and the directories that a row asks for are there.
-/

namespace WinBlaze

namespace CatalogText

open Attempts

theorem stem_eq_some_iff {path above : List Char} :
    stem path = some above ↔ ∃ name, path = above ++ '\\' :: name ∧ '\\' ∉ name := by
  rw [stem, Option.map_eq_some_iff]
  constructor
  · rintro ⟨⟨front, back⟩, hsplit, rfl⟩
    exact ⟨back, rsplitOnce_eq_some_iff.mp hsplit⟩
  · rintro ⟨name, hparts⟩
    exact ⟨(above, name), rsplitOnce_eq_some_iff.mpr hparts, rfl⟩

theorem length_lt_of_stem {path above : List Char} (h : stem path = some above) :
    above.length < path.length := by
  obtain ⟨name, rfl, -⟩ := stem_eq_some_iff.mp h
  rw [List.length_append, List.length_cons]
  omega

/-! ## Checked rows -/

structure RowChecked (row : Row) : Prop where
  length : row.length = 7
  counts : ∀ text ∈ (row.drop 2).take 4, (parseU64 text).isSome = true

theorem RowChecked.exists_column {row : Row} (h : RowChecked row) {index : ℕ} (hindex : index < 7) :
    ∃ text, row[index]? = some text := by
  have hlt : index < row.length := h.length.symm ▸ hindex
  exact ⟨row[index], List.getElem?_eq_getElem hlt⟩

theorem RowChecked.exists_count {row : Row} (h : RowChecked row) {index : ℕ} (hlow : 2 ≤ index)
    (hindex : index < 6) : ∃ text value, row[index]? = some text ∧ parseU64 text = some value := by
  obtain ⟨text, htext⟩ := h.exists_column (hindex.trans (by decide))
  have hmem : text ∈ (row.drop 2).take 4 := by
    apply List.mem_of_getElem? (i := index - 2)
    rw [List.getElem?_take, if_pos (by omega), List.getElem?_drop, Nat.add_sub_cancel' hlow, htext]
  obtain ⟨value, hvalue⟩ := Option.isSome_iff_exists.mp (h.counts text hmem)
  exact ⟨text, value, htext, hvalue⟩

theorem of_checkRow {toLowercase : List Char → List Char} {state next : Directories × List (List Char)}
    {row : Row} (h : checkRow toLowercase state row = .ok next) :
    RowChecked row ∧ ∃ path, row[0]? = some path ∧ toLowercase path ∉ state.2 ∧
      next = (if isDirectory row then nextDirectory state.1 path else state.1,
        toLowercase path :: state.2) := by
  simp only [checkRow, bind_eq_ok_iff, ensure_eq_ok_iff, column_eq_ok_iff, pure_eq_ok_iff] at h
  obtain ⟨_, hlength, path, hpath, _, hnew, _, hcounts, time, htime, _, -, hnext⟩ := h
  have hlength := of_decide_eq_true hlength
  simp only [Bool.and_eq_true, Bool.not_eq_true'] at hnew
  refine ⟨⟨hlength, List.all_eq_true.mp hcounts⟩, path, hpath, fun hmem ↦ ?_, hnext.symm⟩
  rw [List.contains_iff_mem.mpr hmem] at hnew
  cases hnew.2

theorem safe_checkRow (toLowercase : List Char → List Char) (state : Directories × List (List Char))
    (row : Row) : Safe (checkRow toLowercase state row) := by
  refine safe_ensure_bind fun hlength ↦ ?_
  have hcolumns : row.length = 7 := of_decide_eq_true hlength
  refine safe_column_bind (by omega) fun path _ ↦ safe_ensure_bind fun _ ↦ safe_ensure_bind fun _ ↦ ?_
  exact safe_column_bind (by omega) fun _ _ ↦ safe_ensure_bind fun _ ↦ failsOnly_pure _

/-! ## Numbers -/

def paths (directories : Directories) : List (List Char) := directories.records.map Prod.fst

theorem find?_isSome_iff {directories : Directories} {path : List Char} :
    (directories.find? path).isSome = true ↔ path ∈ paths directories := by
  rw [IdMap.find?, Option.isSome_map, ← not_iff_not, Bool.not_eq_true, Option.isSome_eq_false_iff,
    Option.isNone_iff_eq_none]
  exact KeyedArena.get?_eq_none_iff_notMem directories path

/-- Directories are numbered from one in the order they were added. -/
def Numbered (directories : Directories) : Prop :=
  directories.records.map Prod.snd =
    (List.range directories.records.length).map fun n ↦ ⟨.ofNat n + 1⟩

theorem records_nextDirectory {directories : Directories} {path : List Char}
    (h : path ∉ paths directories) : (nextDirectory directories path).records =
      directories.records ++ [(path, ⟨.ofNat directories.records.length + 1⟩)] :=
  KeyedArena.upsert_of_notMem Prod.fst _ h

/-- Directories are added at the end, with the next numbers. -/
structure Extends (before after : Directories) : Prop where
  records : before.records <+: after.records
  numbered : Numbered before → Numbered after

namespace Extends

variable {first second third : Directories}

theorem refl (directories : Directories) : Extends directories directories :=
  ⟨List.prefix_rfl, id⟩

theorem trans (h : Extends first second) (hnext : Extends second third) : Extends first third :=
  ⟨h.records.trans hnext.records, hnext.numbered ∘ h.numbered⟩

theorem mem_paths (h : Extends first second) {path : List Char} (hpath : path ∈ paths first) :
    path ∈ paths second :=
  (h.records.map Prod.fst).subset hpath

theorem length_le (h : Extends first second) : first.records.length ≤ second.records.length :=
  h.records.length_le

end Extends

theorem extends_nextDirectory {directories : Directories} {path : List Char}
    (h : path ∉ paths directories) : Extends directories (nextDirectory directories path) := by
  refine ⟨records_nextDirectory h ▸ List.prefix_append _ _, fun hnumbered ↦ ?_⟩
  rw [Numbered, records_nextDirectory h, List.map_append, List.length_append, List.length_singleton,
    List.range_succ, List.map_append, hnumbered]
  rfl

theorem mem_paths_nextDirectory (directories : Directories) (path : List Char) :
    path ∈ paths (nextDirectory directories path) :=
  find?_isSome_iff.mp (by rw [nextDirectory, IdMap.find?_set_self, Option.isSome_some])

/-! ## Steps -/

theorem of_addAncestors {common : List Char} {top : List (List Char)} {fuel : ℕ}
    {before after : Directories} {path : List Char}
    (h : addAncestors common top fuel before path = .ok after) :
    Extends before after ∧ path ∈ paths after := by
  induction fuel generalizing before path with
  | zero => cases h
  | succ fuel ih =>
      have hadded : ∀ next, next = (if (before.find? path).isSome then before
          else nextDirectory before path) → Extends before next ∧ path ∈ paths next := by
        rintro next rfl
        split
        case isTrue hold => exact ⟨.refl before, find?_isSome_iff.mp hold⟩
        case isFalse hnew =>
          exact ⟨extends_nextDirectory (fun hmem ↦ hnew (find?_isSome_iff.mpr hmem)),
            mem_paths_nextDirectory before path⟩
      unfold addAncestors at h
      generalize hnext : (if (before.find? path).isSome then before
        else nextDirectory before path) = next at h
      obtain ⟨hextends, hmem⟩ := hadded next hnext.symm
      dsimp only at h
      split at h
      · exact Except.ok.inj h ▸ ⟨hextends, hmem⟩
      · split at h
        · have habove := (ih h).1
          exact ⟨hextends.trans habove, habove.mem_paths hmem⟩
        · cases h

theorem safe_addAncestors (common : List Char) (top : List (List Char)) {fuel : ℕ} (directories : Directories)
    {path : List Char} (hfuel : path.length < fuel) :
    Safe (addAncestors common top fuel directories path) := by
  induction fuel generalizing directories path with
  | zero => exact (Nat.not_lt_zero _ hfuel).elim
  | succ fuel ih =>
      refine safe_ite (fun _ ↦ failsOnly_pure _) fun _ ↦ ?_
      split
      case h_1 above habove =>
        have hlt := length_lt_of_stem habove
        exact ih _ (by omega)
      case h_2 => exact safe_invalid _

theorem safe_shrinkCommon (toLowercase : List Char → List Char) (parent : List Char) {fuel : ℕ}
    {common : List Char} (hfuel : common.length < fuel) :
    Safe (shrinkCommon toLowercase parent fuel common) := by
  induction fuel generalizing common with
  | zero => exact (Nat.not_lt_zero _ hfuel).elim
  | succ fuel ih =>
      refine safe_ite (fun _ ↦ failsOnly_pure _) fun _ ↦ ?_
      split
      case h_1 shorter hshorter =>
        have hlt := length_lt_of_stem hshorter
        exact ih (by omega)
      case h_2 => exact safe_invalid _

theorem safe_rowParent {row : Row} (h : RowChecked row) : Safe (rowParent row) :=
  safe_column_bind (by rw [h.length]; decide) fun _ _ ↦
    safe_ite (fun _ ↦ failsOnly_pure _) fun _ ↦ safe_orInvalid _ _

/-- A row whose parent was found has one. -/
theorem rowStart_of_rowParent {row : Row} {path : List Char} (h : rowParent row = .ok path) :
    rowStart row = .ok path := by
  obtain ⟨full, hfull, h⟩ := bind_eq_ok_iff.mp h
  refine bind_eq_ok_iff.mpr ⟨full, hfull, ?_⟩
  split at h
  case isTrue hdirectory => rwa [if_pos hdirectory]
  case isFalse hfile =>
    rw [if_neg hfile]
    exact orPanic_eq_ok_iff.mpr (orInvalid_eq_ok_iff.mp h)

theorem safe_commonRoot (toLowercase : List Char → List Char) (multiple : Bool) {rows : List Row}
    (hrows : ∀ row ∈ rows, RowChecked row) : Safe (commonRoot toLowercase multiple rows) := by
  refine safe_orInvalid_bind fun first hfirst ↦ ?_
  refine (safe_rowParent (hrows first (List.mem_of_mem_head? hfirst))).bind fun path _ ↦ ?_
  refine FailsOnly.foldlM fun common row hrow ↦ ?_
  refine (safe_rowParent (hrows row (List.mem_of_mem_tail hrow))).bind fun parent _ ↦ ?_
  exact safe_ite (fun _ ↦ failsOnly_pure _) fun _ ↦ safe_shrinkCommon _ _ (Nat.lt_succ_self _)

theorem of_commonRoot {toLowercase : List Char → List Char} {multiple : Bool} {rows : List Row}
    {common : List Char} (h : commonRoot toLowercase multiple rows = .ok common) :
    (multiple = true → common = rootPath) ∧ ∀ row ∈ rows, ∃ path, rowParent row = .ok path := by
  obtain ⟨first, hfirst, h⟩ := bind_eq_ok_iff.mp h
  obtain ⟨path, hpath, h⟩ := bind_eq_ok_iff.mp h
  constructor
  · rintro rfl
    refine foldlM_induction h (fun _ common ↦ common = rootPath) rfl fun _ row before after hbefore hstep ↦ ?_
    obtain ⟨parent, -, hkept⟩ := bind_eq_ok_iff.mp hstep
    exact Except.ok.inj hkept ▸ hbefore
  · intro row hrow
    obtain ⟨rest, rfl⟩ : ∃ rest, rows = first :: rest :=
      ⟨rows.tail, (List.cons_head?_tail (orInvalid_eq_ok_iff.mp hfirst)).symm⟩
    rcases List.mem_cons.mp hrow with rfl | hrest
    · exact ⟨path, hpath⟩
    · obtain ⟨before, after, hstep⟩ := exists_of_foldlM h row hrest
      obtain ⟨parent, hparent, -⟩ := bind_eq_ok_iff.mp hstep
      exact ⟨parent, hparent⟩

/-! ## The layout -/

structure LaidOut (rows : List Row) (layout : Layout) : Prop where
  checked : ∀ row ∈ rows, RowChecked row
  numbered : Numbered layout.directories
  count : rows.countP isDirectory ≤ layout.directories.records.length
  starts : ∀ row ∈ rows, ∃ path, rowStart row = .ok path ∧ path ∈ paths layout.directories
  multiple : layout.multiple = true →
    layout.common = rootPath ∧ rootPath ∈ paths layout.directories

theorem of_foldlM_checkRow {toLowercase : List Char → List Char} {rows : List Row}
    {state : Directories × List (List Char)}
    (h : rows.foldlM (checkRow toLowercase) (.empty, []) = .ok state) :
    (∀ row ∈ rows, RowChecked row) ∧ Numbered state.1 ∧
      state.1.records.length = rows.countP isDirectory := by
  have hall := foldlM_induction h (fun done state ↦ (∀ row ∈ done, RowChecked row) ∧ Numbered state.1 ∧
      state.1.records.length = done.countP isDirectory ∧
        ∀ path ∈ paths state.1, toLowercase path ∈ state.2)
    ⟨List.forall_mem_nil _, rfl, rfl, List.forall_mem_nil _⟩ ?_
  · exact ⟨hall.1, hall.2.1, hall.2.2.1⟩
  rintro done row before after ⟨hchecked, hnumbered, hlength, hseen⟩ hstep
  obtain ⟨hrow, path, -, hnew, rfl⟩ := of_checkRow hstep
  refine ⟨List.forall_mem_append.mpr ⟨hchecked, List.forall_mem_singleton.mpr hrow⟩, ?_⟩
  have habsent : path ∉ paths before.1 := fun hmem ↦ hnew (hseen path hmem)
  cases hdirectory : isDirectory row with
  | false =>
      refine ⟨hnumbered, ?_, fun other hother ↦ List.mem_cons_of_mem _ (hseen other hother)⟩
      rw [List.countP_append, List.countP_singleton, hdirectory]
      exact hlength
  | true =>
      refine ⟨(extends_nextDirectory habsent).numbered hnumbered, ?_, fun other hother ↦ ?_⟩
      · rw [List.countP_append, List.countP_singleton, hdirectory, ← hlength]
        exact (congrArg List.length (records_nextDirectory habsent)).trans List.length_append
      · have hkeys : paths (nextDirectory before.1 path) = paths before.1 ++ [path] := by
          rw [paths, records_nextDirectory habsent, List.map_append]
          rfl
        rcases List.mem_append.mp (hkeys ▸ hother) with hold | hself
        · exact List.mem_cons_of_mem _ (hseen other hold)
        · exact List.mem_singleton.mp hself ▸ List.mem_cons_self

theorem of_layoutOf {toLowercase : List Char → List Char} {rows : List Row} {layout : Layout}
    (h : layoutOf toLowercase rows = .ok layout) : LaidOut rows layout := by
  obtain ⟨⟨first, seen⟩, hchecks, h⟩ := bind_eq_ok_iff.mp h
  obtain ⟨common, hcommon, h⟩ := bind_eq_ok_iff.mp h
  obtain ⟨directories, hadd, h⟩ := bind_eq_ok_iff.mp h
  obtain rfl := Except.ok.inj h
  obtain ⟨hchecked, hnumbered, hlength⟩ := of_foldlM_checkRow hchecks
  obtain ⟨hroot, -⟩ := of_commonRoot hcommon
  obtain ⟨hextends, hstarts⟩ := foldlM_induction hadd (fun done directories ↦ Extends first directories ∧
      ∀ row ∈ done, ∃ path, rowStart row = .ok path ∧ path ∈ paths directories)
    ⟨.refl first, List.forall_mem_nil _⟩ (by
      rintro done row before after ⟨hbefore, hdone⟩ hstep
      obtain ⟨start, hstart, hstep⟩ := bind_eq_ok_iff.mp hstep
      obtain ⟨hnext, hmem⟩ := of_addAncestors hstep
      refine ⟨hbefore.trans hnext, List.forall_mem_append.mpr
        ⟨fun row hrow ↦ ?_, List.forall_mem_singleton.mpr ⟨start, hstart, hmem⟩⟩⟩
      obtain ⟨path, hpath, hold⟩ := hdone row hrow
      exact ⟨path, hpath, hnext.mem_paths hold⟩)
  exact ⟨hchecked, hextends.numbered hnumbered, hlength.symm.trans_le hextends.length_le, hstarts,
    fun hmultiple ↦ ⟨hroot hmultiple, hextends.mem_paths (find?_isSome_iff.mp hmultiple)⟩⟩

theorem safe_layoutOf (toLowercase : List Char → List Char) (rows : List Row) :
    Safe (layoutOf toLowercase rows) := by
  refine (FailsOnly.foldlM fun state row _ ↦ safe_checkRow toLowercase state row).bind
    fun state hchecks ↦ ?_
  obtain ⟨hchecked, -⟩ := of_foldlM_checkRow hchecks
  refine (safe_commonRoot toLowercase _ hchecked).bind fun common hcommon ↦ ?_
  refine (FailsOnly.foldlM fun directories row hrow ↦ ?_).bind fun _ _ ↦ failsOnly_pure _
  obtain ⟨path, hpath⟩ := (of_commonRoot hcommon).2 row hrow
  exact (failsOnly_of_eq_ok (rowStart_of_rowParent hpath)).bind fun start _ ↦
    safe_addAncestors _ _ _ (Nat.lt_succ_self _)

/-! ## The records -/

theorem safe_trimRow (row : Row) : Safe (trimRow row) := by
  refine safe_ite (fun hdirectory ↦ ?_) fun _ ↦ failsOnly_pure _
  have hlength := (List.getElem?_eq_some_iff.mp (of_decide_eq_true hdirectory)).1
  exact safe_column_bind (by omega) fun _ _ ↦ failsOnly_pure _

theorem safe_directoryRecord {rows : List Row} {layout : Layout} (h : LaidOut rows layout)
    (entry : List Char × DirectoryId) : Safe (directoryRecord layout entry) := by
  refine FailsOnly.bind ?_ fun _ _ ↦ failsOnly_pure _
  unfold parentOfPath
  split
  case h_1 => exact failsOnly_pure _
  case h_2 =>
    refine safe_ite (fun hmultiple ↦ FailsOnly.map (safe_orPanic ?_) _) fun _ ↦ failsOnly_pure _
    obtain ⟨hcommon, hroot⟩ := h.multiple (Bool.and_eq_true_iff.mp hmultiple).1
    exact hcommon ▸ find?_isSome_iff.mpr hroot

theorem safe_fileRecord {layout : Layout} (allowLegacyTicks : Bool) (metadata : Metadata) {row : Row}
    (h : RowChecked row) (index : ℕ) :
    Safe (fileRecord layout allowLegacyTicks metadata (row, index)) := by
  have hlength := h.length
  refine safe_ite (fun _ ↦ failsOnly_pure _) fun _ ↦ safe_ensure_bind fun _ ↦ ?_
  refine safe_column_bind (by dsimp only; omega) fun path _ ↦ safe_orInvalid_bind fun parts _ ↦ ?_
  refine safe_orInvalid_bind fun parent _ ↦ safe_column_bind (by dsimp only; omega) fun _ _ ↦ ?_
  refine safe_orInvalid_bind fun size _ ↦ safe_column_bind (by dsimp only; omega) fun _ _ ↦ ?_
  refine safe_orInvalid_bind fun allocation _ ↦ safe_column_bind (by dsimp only; omega) fun _ _ ↦ ?_
  refine FailsOnly.bind ?_ fun _ _ ↦ failsOnly_pure _
  exact safe_ite (fun _ ↦ failsOnly_pure _) fun _ ↦ safe_mapError.map _

theorem safe_planImport (toLowercase : List Char → List Char) (order : HashOrder) (table : Table) :
    Safe (planImport toLowercase order table) := by
  refine (FailsOnly.mapM fun row _ ↦ safe_trimRow row).bind fun rows _ ↦ ?_
  refine (safe_layoutOf toLowercase rows).bind fun layout hlayout ↦ ?_
  have hlaid := of_layoutOf hlayout
  refine (FailsOnly.mapM fun entry _ ↦ safe_directoryRecord hlaid entry).bind fun _ _ ↦ ?_
  refine (FailsOnly.mapM fun entry hentry ↦ ?_).bind fun _ _ ↦ failsOnly_pure _
  exact safe_fileRecord _ _ (hlaid.checked entry.1 (List.fst_mem_of_mem_zipIdx hentry)) entry.2

end CatalogText

end WinBlaze
