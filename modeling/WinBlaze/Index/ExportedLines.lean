import WinBlaze.Index.CatalogRows

/-!
# The lines of an exported catalog

Both forms of the comma-separated catalog are lines of fields. The path of a file
is the one that is displayed, wherever the start of it was kept from.
-/

namespace WinBlaze

namespace CatalogText

open Saturating

/-! ## Texts without quotes -/

theorem notMem_special {c : Char} (h : 45 ≤ c.toNat) : c ∉ ['"', ',', '\t', '\r', '\n'] := by
  intro hmem
  simp only [List.mem_cons, List.not_mem_nil, or_false] at hmem
  rcases hmem with rfl | rfl | rfl | rfl | rfl <;> exact absurd h (by decide)

theorem clean_unsignedText (n : ℕ) : (Field.plain (unsignedText n)).Clean := fun _ hc ↦
  notMem_special ((by decide : 45 ≤ 48).trans
    (Decimal.digit_of_mem_writeDigits (List.forall_mem_nil _) hc).1)

theorem clean_signedText (n : ℤ) : (Field.plain (signedText n)).Clean := by
  intro c hc
  rcases List.mem_append.mp hc with hsign | hdigits
  · split at hsign
    · rw [List.mem_singleton.mp hsign]
      decide
    · cases hsign
  · exact clean_unsignedText _ c hdigits

theorem clean_secondsText (time : Option Int64) : (Field.plain (secondsText time)).Clean := by
  cases time with
  | none => exact fun c hc ↦ by cases hc
  | some ticks => exact clean_signedText _

theorem clean_nil : (Field.plain []).Clean := fun c hc ↦ by cases hc

theorem unsignedText_ne_nil (n : ℕ) : unsignedText n ≠ [] := by
  obtain ⟨c, rest, heq, -⟩ := Decimal.exists_writeDigits (by decide : 0 < 20) n []
  rw [unsignedText, heq]
  exact List.cons_ne_nil c rest

theorem csvInteger_eq (row : List Char) (value : UInt64) :
    csvInteger row value = row ++ unsignedText value.toNat := rfl

theorem csvTimestamp_eq (row : List Char) (value : Option Int64) :
    csvTimestamp row value = row ++ secondsText value ++ ['\r', '\n'] := by
  cases value with
  | none => simp [csvTimestamp, secondsText]
  | some ticks => exact csvTimestamp_some row ticks

/-! ## Paths -/

theorem quoted_eq_displayPath {tree : TreeIndex} {file : FileRecord} (hpath : file.fullPath = "") :
    parentPrefix tree file.parentDirectoryId ++ escaped file.name.toList ++ ['"'] =
      quoted (tree.fileDisplayPath file).toList := by
  rw [TreeIndex.fileDisplayPath, if_neg (not_not.mpr hpath), parentPrefix, quoted]
  cases hparent : tree.directoryFullPath file.parentDirectoryId.val with
  | none => simp
  | some parent =>
      by_cases hempty : parent = ""
      · subst hempty
        simp [joinPath, Option.filter_some]
      · have hnotEmpty : parent.isEmpty = false :=
          Bool.eq_false_iff.mpr fun h ↦ hempty (String.isEmpty_iff.mp h)
        cases hends : endsWithBackslash parent with
        | true => simp [joinPath, Option.filter_some, hempty, hends, escaped_append]
        | false => simp [joinPath, Option.filter_some, hempty, hends, hnotEmpty, escaped_append,
            escaped_cons]

theorem filePath_eq (tree : TreeIndex) (file : FileRecord) :
    filePath tree file = quoted (tree.fileDisplayPath file).toList := by
  unfold filePath
  split
  case isTrue hpath =>
    have hdisplay : tree.fileDisplayPath file = file.fullPath := if_pos hpath
    rw [hdisplay]
  case isFalse hpath => exact quoted_eq_displayPath (not_not.mp hpath)

/-! ## Lines -/

/-- A quoted path and columns that need no quotes. -/
def pathLine (path : List Char) (columns : List (List Char)) : Line :=
  ⟨.quoted path, columns.map Field.plain⟩

theorem values_pathLine (path : List Char) (columns : List (List Char)) :
    (pathLine path columns).values = path :: columns := by
  simp [pathLine, Line.values, Line.fields, Field.value, List.map_map, Function.comp_def]

def headerLine (header : Row) : Line := ⟨.plain header.head!, header.tail.map Field.plain⟩

def directoryColumns (totals : DirRollup) : List (List Char) :=
  ["Directory".toList, unsignedText totals.logicalBytes.toNat, unsignedText totals.physicalBytes.toNat,
    unsignedText totals.fileCount.toNat, unsignedText (satSub totals.itemCount totals.fileCount).toNat,
    secondsText totals.modifiedUtcMax]

def fileColumns (file : FileRecord) : List (List Char) :=
  ["File".toList, unsignedText file.sizeBytes.toNat, unsignedText file.allocationBytes.toNat,
    ['0'], ['0'], secondsText file.timestamps.modified]

def directoryLine (tree : TreeIndex) (directory : DirectoryRecord) : Line :=
  pathLine directory.fullPath.toList (directoryColumns (totalsOf tree directory))

def fileLine (tree : TreeIndex) (file : FileRecord) : Line :=
  pathLine (tree.fileDisplayPath file).toList (fileColumns file)

def catalogLines (tree : TreeIndex) : List Line :=
  (exportedDirectories tree).map (directoryLine tree) ++ tree.files.map (fileLine tree)

theorem clean_word {word : List Char} (h : word.all (fun c ↦ 45 ≤ c.toNat) = true) :
    (Field.plain word).Clean :=
  fun c hc ↦ notMem_special (of_decide_eq_true (List.all_eq_true.mp h c hc))

theorem readable_headerLine {header : Row}
    (h : (headerLine header).fields.all (fun field ↦ field.value.all fun c ↦ 45 ≤ c.toNat) = true)
    (hfirst : (headerLine header).first.value ≠ []) : (headerLine header).Readable where
  clean := by
    intro field hfield
    have hchars := List.all_eq_true.mp h field hfield
    cases field with
    | quoted text => trivial
    | plain text => exact clean_word hchars
  text := ⟨_, List.mem_cons_self, hfirst⟩

theorem readable_pathLine {path : List Char} {columns : List (List Char)}
    (hclean : ∀ column ∈ columns, (Field.plain column).Clean) (htext : ∃ column ∈ columns, column ≠ []) :
    (pathLine path columns).Readable where
  clean := by
    intro field hfield
    rcases List.mem_cons.mp hfield with rfl | hrest
    · trivial
    · obtain ⟨column, hcolumn, rfl⟩ := List.mem_map.mp hrest
      exact hclean column hcolumn
  text := by
    obtain ⟨column, hcolumn, hne⟩ := htext
    exact ⟨column, values_pathLine path columns ▸ List.mem_cons_of_mem path hcolumn, hne⟩

theorem readable_directoryLine (tree : TreeIndex) (directory : DirectoryRecord) :
    (directoryLine tree directory).Readable := by
  refine readable_pathLine ?_ ⟨"Directory".toList, List.mem_cons_self, by decide⟩
  simp only [directoryColumns, List.forall_mem_cons]
  exact ⟨clean_word (by decide), clean_unsignedText _, clean_unsignedText _, clean_unsignedText _,
    clean_unsignedText _, clean_secondsText _, List.forall_mem_nil _⟩

theorem readable_fileLine (tree : TreeIndex) (file : FileRecord) : (fileLine tree file).Readable := by
  refine readable_pathLine ?_ ⟨"File".toList, List.mem_cons_self, by decide⟩
  simp only [fileColumns, List.forall_mem_cons]
  exact ⟨clean_word (by decide), clean_unsignedText _, clean_unsignedText _, clean_word (by decide),
    clean_word (by decide), clean_secondsText _, List.forall_mem_nil _⟩

theorem readable_catalogLines (tree : TreeIndex) : ∀ line ∈ catalogLines tree, line.Readable := by
  refine List.forall_mem_append.mpr ⟨List.forall_mem_map.mpr fun directory _ ↦ ?_,
    List.forall_mem_map.mpr fun file _ ↦ ?_⟩
  · exact readable_directoryLine tree directory
  · exact readable_fileLine tree file

/-! ## The written lines -/

theorem csvHeader_eq : csvHeader = (headerLine canonicalHeader).text ',' := by decide

theorem csvDirectoryRow_eq (tree : TreeIndex) (directory : DirectoryRecord) :
    csvDirectoryRow tree directory = (directoryLine tree directory).text ',' := by
  simp [csvDirectoryRow, directoryLine, pathLine, directoryColumns, Line.text, Field.text, csvInteger_eq,
    csvTimestamp_eq]

/-- The start that is kept is the one of its directory. -/
def PrefixCache.Current (cache : PrefixCache) (tree : TreeIndex) : Prop :=
  ∀ parent, cache.parentId = some parent → cache.parentPrefix = CatalogText.parentPrefix tree parent

theorem PrefixCache.Current.lookUp {cache : PrefixCache} {tree : TreeIndex} (h : cache.Current tree)
    (parent : DirectoryId) : (cache.lookUp tree parent).Current tree ∧
      (cache.lookUp tree parent).parentPrefix = CatalogText.parentPrefix tree parent := by
  unfold PrefixCache.lookUp
  split
  case isTrue => exact ⟨fun other hother ↦ Option.some.inj hother ▸ rfl, rfl⟩
  case isFalse hsame => exact ⟨h, h parent (not_not.mp hsame)⟩

theorem csvFileRow_eq {tree : TreeIndex} {cache : PrefixCache} (h : cache.Current tree)
    (file : FileRecord) : (csvFileRow tree cache file).1 = (fileLine tree file).text ',' ∧
      (csvFileRow tree cache file).2.Current tree := by
  have hline : ∀ path, path = quoted (tree.fileDisplayPath file).toList →
      csvTimestamp (csvInteger (csvInteger (path ++ ",File,".toList) file.sizeBytes ++ [','])
        file.allocationBytes ++ ",0,0,".toList) file.timestamps.modified =
        (fileLine tree file).text ',' := by
    rintro path rfl
    simp [fileLine, pathLine, fileColumns, Line.text, Field.text, csvInteger_eq, csvTimestamp_eq]
  unfold csvFileRow
  by_cases hpath : file.fullPath = ""
  · obtain ⟨hcurrent, hfirst⟩ := h.lookUp file.parentDirectoryId
    simp only [hpath, ne_eq, not_true_eq_false, if_false]
    refine ⟨hline _ ?_, hcurrent⟩
    rw [hfirst]
    exact quoted_eq_displayPath hpath
  · have hdisplay : tree.fileDisplayPath file = file.fullPath := if_pos hpath
    simp only [hpath, ne_eq, not_false_eq_true, if_true]
    exact ⟨hline _ (by rw [hdisplay]), h⟩

theorem csvFileRows_eq {tree : TreeIndex} {cache : PrefixCache} (h : cache.Current tree)
    (files : List FileRecord) :
    csvFileRows tree cache files = files.map fun file ↦ (fileLine tree file).text ',' := by
  induction files generalizing cache with
  | nil => rfl
  | cons file rest ih =>
      obtain ⟨hrow, hcurrent⟩ := csvFileRow_eq h file
      have hcons : csvFileRows tree cache (file :: rest) =
          (csvFileRow tree cache file).1 :: csvFileRows tree (csvFileRow tree cache file).2 rest := rfl
      rw [hcons, ih hcurrent, hrow, List.map_cons]

theorem writeCsv_eq (tree : TreeIndex) : (writeCsv tree).flatten =
    (headerLine canonicalHeader :: catalogLines tree).flatMap (Line.text ',') := by
  have hcache : PrefixCache.Current {} tree := fun parent hparent ↦ by cases hparent
  have hdirectories : (exportedDirectories tree).map (csvDirectoryRow tree) =
      (exportedDirectories tree).map fun directory ↦ (directoryLine tree directory).text ',' :=
    List.map_congr_left fun directory _ ↦ csvDirectoryRow_eq tree directory
  have hall : ∀ directories : List DirectoryRecord,
      directories.filter (fun _ ↦ (none : Option (FileRecord → Bool)).isNone) = directories :=
    fun directories ↦ List.filter_eq_self.mpr fun _ _ ↦ rfl
  have hfiles : tree.files.filter (fun file ↦
      (none : Option (FileRecord → Bool)).all fun accepts ↦ accepts file) = tree.files :=
    List.filter_eq_self.mpr fun _ _ ↦ rfl
  simp only [writeCsv, writeCsvSelected, hall, hfiles, csvFileRows_eq hcache, hdirectories, csvHeader_eq,
    catalogLines, List.flatten_append, List.flatMap_cons, List.flatMap_append, List.flatMap_map,
    List.flatten_cons, List.flatten_nil, List.append_nil, List.append_assoc, ← List.flatMap_def]

theorem readable_all (tree : TreeIndex) :
    ∀ line ∈ headerLine canonicalHeader :: catalogLines tree, line.Readable :=
  List.forall_mem_cons.mpr ⟨readable_headerLine (by decide) (by decide), readable_catalogLines tree⟩

theorem writeTsv_eq (tree : TreeIndex) : writeTsv tree =
    (headerLine canonicalHeader :: catalogLines tree).flatMap (Line.text '\t') := by
  have hcomma : id ',' ≠ id '"' := by decide
  rw [writeTsv, TabWriter.foldl_write id hcomma, TabWriter.write_eq id hcomma, writeCsv_eq,
    tabbed_lines (readable_all tree)]
  rfl

/-! ## The detailed lines -/

def optionalField (value : Option String) : Field := value.elim (.plain []) fun text ↦ .quoted text.toList

def detailedDirectoryLine (tree : TreeIndex) (directory : DirectoryRecord) : Line :=
  pathLine directory.fullPath.toList
    (directoryColumns (totalsOf tree directory) ++ [[], [], [], [], [], [], []])

def detailedFileLine (tree : TreeIndex) (file : FileRecord) (extras : FileExportMetadata) : Line where
  first := .quoted (tree.fileDisplayPath file).toList
  others := (fileColumns file ++ [unsignedText file.attributes.bits.toNat,
      secondsText file.timestamps.created, secondsText file.timestamps.accessed]).map Field.plain ++
    [extras.owner, extras.volumeIdentity, extras.fileIdentity].map optionalField ++
    [.plain (extras.linkCount.elim [] fun count ↦ unsignedText count.toNat)]

def detailedLines (tree : TreeIndex) (extras : List FileExportMetadata) : List Line :=
  (exportedDirectories tree).map (detailedDirectoryLine tree) ++
    List.zipWith (detailedFileLine tree) tree.files extras

theorem readable_detailedDirectoryLine (tree : TreeIndex) (directory : DirectoryRecord) :
    (detailedDirectoryLine tree directory).Readable := by
  refine readable_pathLine ?_ ⟨"Directory".toList, List.mem_cons_self, by decide⟩
  simp only [directoryColumns, List.cons_append, List.nil_append, List.forall_mem_cons]
  exact ⟨clean_word (by decide), clean_unsignedText _, clean_unsignedText _, clean_unsignedText _,
    clean_unsignedText _, clean_secondsText _, clean_nil, clean_nil, clean_nil, clean_nil, clean_nil,
    clean_nil, clean_nil, List.forall_mem_nil _⟩

theorem clean_optionalField (value : Option String) : (optionalField value).Clean := by
  cases value with
  | none => exact clean_nil
  | some text => trivial

theorem readable_detailedFileLine (tree : TreeIndex) (file : FileRecord) (extras : FileExportMetadata) :
    (detailedFileLine tree file extras).Readable where
  clean := by
    have hcount : (Field.plain (extras.linkCount.elim [] fun count ↦ unsignedText count.toNat)).Clean := by
      cases extras.linkCount with
      | none => exact clean_nil
      | some count => exact clean_unsignedText _
    simp only [detailedFileLine, Line.fields, fileColumns, List.map_cons, List.map_nil, List.cons_append,
      List.nil_append, List.forall_mem_cons]
    exact ⟨trivial, clean_word (by decide), clean_unsignedText _, clean_unsignedText _,
      clean_word (by decide), clean_word (by decide), clean_secondsText _, clean_unsignedText _,
      clean_secondsText _, clean_secondsText _, clean_optionalField _, clean_optionalField _,
      clean_optionalField _, hcount, List.forall_mem_nil _⟩
  text := ⟨"File".toList, List.mem_cons_of_mem _ List.mem_cons_self, by decide⟩

theorem detailedDirectoryRow_eq (tree : TreeIndex) (directory : DirectoryRecord) :
    detailedDirectoryRow tree directory = (detailedDirectoryLine tree directory).text ',' := by
  simp [detailedDirectoryRow, detailedDirectoryLine, pathLine, directoryColumns, Line.text, Field.text]

theorem text_optionalField (value : Option String) : (optionalField value).text = optionalQuoted value := by
  cases value <;> rfl

theorem detailedFileRow_eq (tree : TreeIndex) (file : FileRecord) (extras : FileExportMetadata) :
    detailedFileRow tree file extras = (detailedFileLine tree file extras).text ',' := by
  simp [detailedFileRow, detailedFileLine, fileColumns, Line.text, Field.text, filePath_eq,
    ← text_optionalField]

theorem detailedCsvHeader_eq : detailedCsvHeader = (headerLine detailedHeader).text ',' := by
  decide +kernel

/-- The provider has given these metadata at some time, or none where they are empty. -/
def Provides {σ ε : Type} (metadata : FileRecord → StateT σ (Except ε) (Option FileExportMetadata))
    (file : FileRecord) (extras : FileExportMetadata) : Prop :=
  ∃ before provided after, (metadata file).run before = .ok (provided, after) ∧
    extras = provided.getD ⟨none, none, none, none⟩

theorem writeCsvWithMetadata_eq {σ ε : Type} {tree : TreeIndex}
    {metadata : FileRecord → StateT σ (Except ε) (Option FileExportMetadata)} {before after : σ}
    {text : List Char} (h : (writeCsvWithMetadata tree metadata).run before = .ok (text, after)) :
    ∃ extras, List.Forall₂ (Provides metadata) tree.files extras ∧
      text = (headerLine detailedHeader :: detailedLines tree extras).flatMap (Line.text ',') := by
  rw [writeCsvWithMetadata, StateT.run_bind, Attempts.bind_eq_ok_iff] at h
  obtain ⟨⟨files, last⟩, hfiles, h⟩ := h
  obtain ⟨rfl, -⟩ := Prod.mk.inj (Except.ok.inj h)
  obtain ⟨values, hvalues, rfl⟩ := Attempts.exists_of_mapM_state
    (fun file (provided : Option FileExportMetadata) ↦
      detailedFileRow tree file (provided.getD ⟨none, none, none, none⟩)) hfiles
  refine ⟨values.map fun provided ↦ provided.getD ⟨none, none, none, none⟩, ?_, ?_⟩
  · refine List.forall₂_map_right_iff.mpr (hvalues.imp fun file provided hprovided ↦ ?_)
    obtain ⟨first, next, hrun⟩ := hprovided
    exact ⟨first, provided, next, hrun, rfl⟩
  · have hdirectories : detailedDirectoryRow tree =
        fun directory ↦ (detailedDirectoryLine tree directory).text ',' :=
      funext fun directory ↦ detailedDirectoryRow_eq tree directory
    simp only [detailedLines, detailedCsvHeader_eq, hdirectories, detailedFileRow_eq,
      List.zipWith_map_right, List.flatMap_cons, List.flatMap_append, List.flatMap_map,
      List.flatMap_def (l := List.zipWith _ _ _), List.map_zipWith, List.append_assoc]

theorem readable_detailedLines (tree : TreeIndex) (extras : List FileExportMetadata) :
    ∀ line ∈ headerLine detailedHeader :: detailedLines tree extras, line.Readable := by
  refine List.forall_mem_cons.mpr ⟨readable_headerLine (by decide) (by decide),
    List.forall_mem_append.mpr ⟨List.forall_mem_map.mpr fun directory _ ↦ ?_, fun line hline ↦ ?_⟩⟩
  · exact readable_detailedDirectoryLine tree directory
  · obtain ⟨index, hindex, rfl⟩ := List.getElem_of_mem hline
    rw [List.getElem_zipWith]
    exact readable_detailedFileLine tree _ _

end CatalogText

end WinBlaze
