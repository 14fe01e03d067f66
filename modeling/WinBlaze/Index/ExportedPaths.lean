import WinBlaze.Core.Paths
import WinBlaze.Index.ExportedLines

/-!
# Paths in exported catalogs

A reader of the exports finds the paths that are displayed, with one exception. In
JSON a parent that ends in several backslashes loses all of them but one.
-/

namespace WinBlaze

namespace CatalogText

/-! ## Readers -/

/-- The paths of the files in a comma-separated catalog. -/
def csvFilePaths (text : List Char) : Import (List (List Char)) := do
  let rows ← rows text ','
  pure ((rows.filter fun row ↦ row[1]? = some "File".toList).filterMap List.head?)

def hexUnit (a b c d : Char) : Option ℕ :=
  (hexValue a).bind fun a ↦ (hexValue b).bind fun b ↦ (hexValue c).bind fun c ↦
    (hexValue d).map fun d ↦ ((a * 16 + b) * 16 + c) * 16 + d

/-- An escape of a JSON string, behind its backslash. -/
def readEscape : List Char → Option (Char × List Char)
  | '"' :: rest => some ('"', rest)
  | '\\' :: rest => some ('\\', rest)
  | '/' :: rest => some ('/', rest)
  | 'b' :: rest => some ('\x08', rest)
  | 'f' :: rest => some ('\x0c', rest)
  | 'n' :: rest => some ('\n', rest)
  | 'r' :: rest => some ('\r', rest)
  | 't' :: rest => some ('\t', rest)
  | 'u' :: a :: b :: c :: d :: rest =>
      (hexUnit a b c d).bind fun unit ↦
        if unit < 0xD800 ∨ 0xE000 ≤ unit then some (.ofNat unit, rest)
        else
          -- The other units come in pairs.
          match rest with
          | '\\' :: 'u' :: a :: b :: c :: d :: rest =>
              (hexUnit a b c d).bind fun low ↦
                if unit < 0xDC00 ∧ 0xDC00 ≤ low ∧ low < 0xE000 then
                  some (.ofNat (0x10000 + (unit - 0xD800) * 0x400 + (low - 0xDC00)), rest)
                else none
          | _ => none
  | _ => none

def readJsonChar : List Char → Option (Char × List Char)
  | [] => none
  | c :: rest => if c = '\\' then readEscape rest else if c.toNat < 32 then none else some (c, rest)

/-- The text of a JSON string behind its first quote. It has fewer than `fuel` characters. -/
def readJsonString : ℕ → List Char → Option (List Char)
  | 0, _ => none
  | fuel + 1, text =>
      if text.head? = some '"' then some []
      else (readJsonChar text).bind fun entry ↦ (readJsonString fuel entry.2).map (entry.1 :: ·)

/-- The path of an entry, which comes first. -/
def jsonEntryPath (entry : List Char) : Option (List Char) :=
  if startsWith entry "\x7b\"Path\":\"".toList then readJsonString entry.length (entry.drop 9) else none

/-! ## Strings -/

theorem hexValue_hexDigit {n : ℕ} (h : n < 16) : hexValue (hexDigit n) = some n := by
  revert n
  decide

theorem readEscape_hexText {n : ℕ} (h : n < 32) (rest : List Char) :
    readEscape ('u' :: (hexText n ++ rest)) = some (.ofNat n, rest) := by
  have hunit : hexUnit (hexDigit (n / 4096 % 16)) (hexDigit (n / 256 % 16)) (hexDigit (n / 16 % 16))
      (hexDigit (n % 16)) = some n := by
    have hlt : ∀ k, k % 16 < 16 := fun k ↦ Nat.mod_lt k (by decide)
    simp only [hexUnit, hexValue_hexDigit (hlt _), Option.bind_some, Option.map_some, Option.some.injEq]
    omega
  simp only [hexText, List.cons_append, List.nil_append, readEscape, hunit, Option.bind_some]
  rw [if_pos (by omega)]

theorem readJsonChar_escaped (c : Char) (rest : List Char) :
    readJsonChar (jsonEscapedByte c ++ rest) = some (c, rest) ∧
      (jsonEscapedByte c ++ rest).head? ≠ some '"' := by
  unfold jsonEscapedByte
  split
  case isTrue hc =>
    subst hc
    exact ⟨rfl, by simp⟩
  case isFalse hquote =>
    split
    case isTrue hc =>
      subst hc
      exact ⟨rfl, by simp⟩
    case isFalse hbackslash =>
      split
      case isTrue hc =>
        subst hc
        exact ⟨rfl, by simp⟩
      split
      case isTrue hc =>
        subst hc
        exact ⟨rfl, by simp⟩
      split
      case isTrue hc =>
        subst hc
        exact ⟨rfl, by simp⟩
      split
      case isTrue hlow =>
        refine ⟨?_, by simp⟩
        have hread := readEscape_hexText hlow rest
        rw [Char.ofNat_toNat] at hread
        simpa [readJsonChar] using hread
      case isFalse hhigh => exact ⟨by simp [readJsonChar, hbackslash, hhigh], by simpa using hquote⟩

/-- A written string, character by character, as a reader with this much fuel sees it. -/
theorem jsonEscaped_induction {rest : List Char} {motive : ℕ → List Char → List Char → Prop}
    (hquote : ∀ fuel, motive (fuel + 1) ('"' :: rest) [])
    (hchar : ∀ fuel c written tail text, readJsonChar written = some (c, tail) →
      written.head? ≠ some '"' → motive fuel tail text → motive (fuel + 1) written (c :: text))
    {fuel : ℕ} (text : List Char) (hfuel : text.length < fuel) :
    motive fuel (jsonEscaped text ++ '"' :: rest) text := by
  induction text generalizing fuel with
  | nil =>
      cases fuel with
      | zero => cases hfuel
      | succ fuel => exact hquote fuel
  | cons c tail ih =>
      cases fuel with
      | zero => cases hfuel
      | succ fuel =>
          obtain ⟨hread, hhead⟩ := readJsonChar_escaped c (jsonEscaped tail ++ '"' :: rest)
          have hsplit : jsonEscaped (c :: tail) ++ '"' :: rest =
              jsonEscapedByte c ++ (jsonEscaped tail ++ '"' :: rest) := by
            simp [jsonEscaped]
          rw [hsplit]
          exact hchar fuel c _ _ tail hread hhead (ih (Nat.lt_of_succ_lt_succ hfuel))

/-- A written string is read as the text that it was written for. -/
theorem readJsonString_escaped {fuel : ℕ} (text rest : List Char) (hfuel : text.length < fuel) :
    readJsonString fuel (jsonEscaped text ++ '"' :: rest) = some text := by
  refine jsonEscaped_induction (motive := fun fuel written text ↦ readJsonString fuel written = some text)
    (fun _ ↦ rfl) ?_ text hfuel
  intro fuel c written tail text hread hhead ih
  rw [readJsonString, if_neg hhead, hread, Option.bind_some, ih, Option.map_some]

theorem length_le_jsonEscaped (text : List Char) : text.length ≤ (jsonEscaped text).length := by
  induction text with
  | nil => exact Nat.le_refl 0
  | cons c tail ih =>
      have hpos : 0 < (jsonEscapedByte c).length := by
        unfold jsonEscapedByte
        split_ifs <;> simp
      simp only [jsonEscaped, List.flatMap_cons, List.length_append, List.length_cons] at ih ⊢
      omega

/-! ## The path of an entry -/

/-- What is between the quotes in an entry. -/
def jsonPath (tree : TreeIndex) (file : FileRecord) : List Char :=
  if file.fullPath ≠ "" then file.fullPath.toList
  else
    (match (tree.directoryFullPath file.parentDirectoryId.val).filter (· ≠ "") with
      | some parent => trimEndBackslashes parent.toList ++ ['\\']
      | none => []) ++ file.name.toList

theorem jsonEscaped_append (first second : List Char) :
    jsonEscaped (first ++ second) = jsonEscaped first ++ jsonEscaped second := List.flatMap_append

theorem jsonFilePath_eq (tree : TreeIndex) (file : FileRecord) :
    jsonFilePath tree file = jsonString (jsonPath tree file) := by
  unfold jsonFilePath jsonPath
  split
  case isTrue => rfl
  case isFalse =>
    rw [jsonString, jsonEscaped_append]
    cases (tree.directoryFullPath file.parentDirectoryId.val).filter (· ≠ "") with
    | none => rfl
    | some parent => simp [jsonEscaped, jsonEscapedByte]

theorem jsonEntryPath_file (tree : TreeIndex) (file : FileRecord)
    (metadata : Option FileExportMetadata) :
    jsonEntryPath (jsonFileEntry tree file metadata) = some (jsonPath tree file) := by
  have hentry : jsonFileEntry tree file metadata = "\x7b\"Path\":\"".toList ++
      (jsonEscaped (jsonPath tree file) ++ '"' :: jsonFileColumns file metadata) := by
    have hquote : "\x7b\"Path\":\"".toList = "\x7b\"Path\":".toList ++ ['"'] := by decide
    have hsplit : ∀ start path rest : List Char,
        start ++ ('"' :: (path ++ ['"'])) ++ rest = start ++ ['"'] ++ (path ++ '"' :: rest) := by
      simp
    change "\x7b\"Path\":".toList ++ jsonFilePath tree file ++ jsonFileColumns file metadata = _
    rw [jsonFilePath_eq, jsonString, hquote, hsplit]
  have hlength := length_le_jsonEscaped (jsonPath tree file)
  have hstart : startsWith (jsonFileEntry tree file metadata) "\x7b\"Path\":\"".toList = true := by
    rw [hentry, startsWith, List.isPrefixOf_iff_prefix]
    exact List.prefix_append _ _
  rw [jsonEntryPath, if_pos hstart, hentry]
  refine readJsonString_escaped _ _ ?_
  simp only [List.length_append, List.length_cons]
  omega

/-- Dropping all backslashes and writing one gives the path that is displayed, unless
there were two. -/
theorem trimEndBackslashes_eq_pathStem_iff {parent : String} :
    trimEndBackslashes parent.toList = pathStem parent ↔ ¬ ['\\', '\\'] <:+ parent.toList := by
  have htrim : ∀ front : List Char, trimEndBackslashes (front ++ ['\\']) = trimEndBackslashes front :=
    trimEndBackslashes_append
  have hlength : ∀ text : List Char, (trimEndBackslashes text).length ≤ text.length := by
    intro text
    have hle := (List.dropWhile_suffix (l := text.reverse) (· = '\\')).length_le
    simpa [trimEndBackslashes] using hle
  have hkept : ∀ text : List Char, text.getLast? ≠ some '\\' → trimEndBackslashes text = text := by
    intro text htext
    rcases List.eq_nil_or_concat text with rfl | ⟨front, last, rfl⟩
    · rfl
    · have hlast : last ≠ '\\' := fun heq ↦ htext (by simp [heq])
      simp [trimEndBackslashes, hlast]
  cases hends : endsWithBackslash parent with
  | false =>
      have hlast : parent.toList.getLast? ≠ some '\\' := of_decide_eq_false hends
      rw [← toList_eq_pathStem hends]
      refine iff_of_true (hkept _ hlast) ?_
      rintro ⟨front, hfront⟩
      exact hlast (by simp [← hfront])
  | true =>
      have hparent := toList_eq_pathStem_append hends
      rw [hparent, htrim]
      constructor
      · rintro hsame ⟨front, hfront⟩
        have hstem : pathStem parent = front ++ ['\\'] := by
          refine List.append_cancel_right (?_ : pathStem parent ++ ['\\'] = front ++ ['\\'] ++ ['\\'])
          rw [← hfront, List.append_assoc]
          rfl
        have hle := hlength front
        rw [hstem, htrim] at hsame
        rw [hsame, List.length_append, List.length_singleton] at hle
        omega
      · intro hsingle
        refine hkept _ fun hlast ↦ hsingle ?_
        obtain ⟨front, hfront⟩ := List.getLast?_eq_some_iff.mp hlast
        exact ⟨front, by rw [hfront, List.append_assoc]; rfl⟩

/-- The file has a path of its own, or its parent's ends in one backslash at most. -/
def SingleSeparator (tree : TreeIndex) (file : FileRecord) : Prop :=
  file.fullPath = "" → ∀ parent, tree.directoryFullPath file.parentDirectoryId.val = some parent →
    ¬ ['\\', '\\'] <:+ parent.toList

theorem jsonPath_eq_iff (tree : TreeIndex) (file : FileRecord) :
    jsonPath tree file = (tree.fileDisplayPath file).toList ↔ SingleSeparator tree file := by
  by_cases hpath : file.fullPath = ""
  · have hdisplay : tree.fileDisplayPath file =
        match tree.directoryFullPath file.parentDirectoryId.val with
        | some parent => joinPath parent file.name
        | none => file.name := if_neg fun hne ↦ hne hpath
    rw [hdisplay, jsonPath, if_neg fun hne ↦ hne hpath, SingleSeparator]
    cases hparent : tree.directoryFullPath file.parentDirectoryId.val with
    | none => simp
    | some parent =>
        by_cases hempty : parent = ""
        · subst hempty
          simp [joinPath, Option.filter_some]
        · simp only [Option.filter_some, decide_not, hempty, decide_false, Bool.not_false, if_true,
            toList_joinPath file.name hempty, List.append_assoc, List.singleton_append, hpath,
            Option.some.injEq, forall_eq', forall_const]
          rw [List.append_left_inj, trimEndBackslashes_eq_pathStem_iff]
  · have hdisplay : tree.fileDisplayPath file = file.fullPath := if_pos hpath
    rw [hdisplay, jsonPath, if_pos hpath, SingleSeparator]
    exact iff_of_true rfl fun h ↦ (hpath h).elim

/-! ## The paths of the rows -/

def displayPaths (tree : TreeIndex) : List (List Char) :=
  tree.files.map fun file ↦ (tree.fileDisplayPath file).toList

def namesFile (row : Row) : Bool := row[1]? = some "File".toList

/-- The line of a file, whatever columns it has. -/
structure IsFileLine (tree : TreeIndex) (file : FileRecord) (line : Line) : Prop where
  kind : namesFile line.values = true
  path : line.values.head? = some (tree.fileDisplayPath file).toList

theorem filePaths_of_forall₂ {tree : TreeIndex} {files : List FileRecord} {lines : List Line}
    (h : List.Forall₂ (IsFileLine tree) files lines) :
    ((lines.map Line.values).filter namesFile).filterMap List.head? =
      files.map fun file ↦ (tree.fileDisplayPath file).toList := by
  induction h with
  | nil => rfl
  | cons hline _ ih =>
      rw [List.map_cons, List.filter_cons_of_pos hline.kind, List.filterMap_cons_some hline.path, ih,
        List.map_cons]

/-- The lines before those of the files are not taken for files. -/
theorem csvFilePaths_lines {tree : TreeIndex} {others lines : List Line}
    (hreadable : ∀ line ∈ others ++ lines, line.Readable)
    (hothers : ∀ line ∈ others, namesFile line.values = false)
    (hlines : List.Forall₂ (IsFileLine tree) tree.files lines) :
    csvFilePaths ((others ++ lines).flatMap (Line.text ',')) = .ok (displayPaths tree) := by
  have hnone : (others.map Line.values).filter namesFile = [] := by
    refine List.filter_eq_nil_iff.mpr fun row hrow ↦ ?_
    obtain ⟨line, hline, rfl⟩ := List.mem_map.mp hrow
    exact Bool.eq_false_iff.mp (hothers line hline)
  have hpaths : (((others ++ lines).map Line.values).filter namesFile).filterMap List.head? =
      displayPaths tree := by
    rw [List.map_append, List.filter_append, hnone, List.nil_append, filePaths_of_forall₂ hlines]
    rfl
  exact Attempts.bind_eq_ok_iff.mpr
    ⟨_, rows_lines separates_comma hreadable, congrArg Except.ok hpaths⟩

theorem namesFile_directoryColumns (path : List Char) (totals : DirRollup) (rest : List (List Char)) :
    namesFile (pathLine path (directoryColumns totals ++ rest)).values = false := by
  rw [values_pathLine]
  exact decide_eq_false (by simp [directoryColumns])

theorem csvFilePaths_writeCsv (tree : TreeIndex) :
    csvFilePaths (writeCsv tree).flatten = .ok (displayPaths tree) := by
  have hreadable := readable_all tree
  rw [writeCsv_eq]
  rw [catalogLines, ← List.cons_append] at hreadable ⊢
  refine csvFilePaths_lines hreadable (List.forall_mem_cons.mpr
    ⟨by decide, List.forall_mem_map.mpr fun directory _ ↦ ?_⟩) ?_
  · rw [directoryLine, ← List.append_nil (directoryColumns _)]
    exact namesFile_directoryColumns _ _ []
  · refine List.forall₂_map_right_iff.mpr (List.forall₂_same.mpr fun file _ ↦ ⟨?_, ?_⟩)
    · rw [fileLine, values_pathLine]
      rfl
    · rw [fileLine, values_pathLine, List.head?_cons]

theorem csvFilePaths_writeCsvWithMetadata {σ ε : Type} {tree : TreeIndex}
    {metadata : FileRecord → StateT σ (Except ε) (Option FileExportMetadata)} {before after : σ}
    {text : List Char} (h : (writeCsvWithMetadata tree metadata).run before = .ok (text, after)) :
    csvFilePaths text = .ok (displayPaths tree) := by
  obtain ⟨extras, hextras, rfl⟩ := writeCsvWithMetadata_eq h
  have hreadable := readable_detailedLines tree extras
  rw [detailedLines, ← List.cons_append] at hreadable ⊢
  refine csvFilePaths_lines hreadable (List.forall_mem_cons.mpr
    ⟨by decide, List.forall_mem_map.mpr fun directory _ ↦ ?_⟩) ?_
  · exact namesFile_directoryColumns _ _ _
  · refine List.forall₂_iff_get.mpr ⟨by simp [hextras.length_eq], fun index hindex hline ↦ ?_⟩
    simp only [List.get_eq_getElem, List.getElem_zipWith]
    exact ⟨rfl, rfl⟩

/-! ## The paths of the entries -/

theorem entryPaths_iff {tree : TreeIndex} (metadata : FileRecord → Option FileExportMetadata)
    (files : List FileRecord) :
    (files.map fun file ↦ jsonFileEntry tree file (metadata file)).map jsonEntryPath =
        (files.map fun file ↦ (tree.fileDisplayPath file).toList).map some ↔
      ∀ file ∈ files, SingleSeparator tree file := by
  rw [List.map_map, List.map_map, List.map_inj_left]
  refine forall₂_congr fun file _ ↦ ?_
  rw [Function.comp_apply, Function.comp_apply, jsonEntryPath_file, Option.some.injEq, jsonPath_eq_iff]

theorem writeJsonWithMetadata_eq {σ ε : Type} {tree : TreeIndex}
    {metadata : FileRecord → StateT σ (Except ε) (Option FileExportMetadata)} {before after : σ}
    {text : List Char} (h : (writeJsonWithMetadata tree metadata).run before = .ok (text, after)) :
    ∃ provided, provided.length = tree.files.length ∧ text = jsonText (jsonDirectoryEntries tree ++
      List.zipWith (jsonFileEntry tree) tree.files provided) := by
  rw [writeJsonWithMetadata, StateT.run_bind, Attempts.bind_eq_ok_iff] at h
  obtain ⟨⟨files, last⟩, hfiles, h⟩ := h
  obtain ⟨rfl, -⟩ := Prod.mk.inj (Except.ok.inj h)
  obtain ⟨provided, hprovided, rfl⟩ := Attempts.exists_of_mapM_state (jsonFileEntry tree) hfiles
  exact ⟨provided, hprovided.length_eq.symm, rfl⟩

theorem entryPaths_zipWith {tree : TreeIndex} {provided : List (Option FileExportMetadata)}
    (hlength : provided.length = tree.files.length)
    (h : ∀ file ∈ tree.files, SingleSeparator tree file) :
    (List.zipWith (jsonFileEntry tree) tree.files provided).map jsonEntryPath =
      (displayPaths tree).map some := by
  refine List.ext_getElem (by simp [displayPaths, hlength]) fun index hindex hother ↦ ?_
  simp only [List.length_map, List.length_zipWith] at hindex
  simp only [List.getElem_map, List.getElem_zipWith, displayPaths, jsonEntryPath_file,
    Option.some.injEq]
  exact (jsonPath_eq_iff tree _).mpr (h _ (List.getElem_mem _))

/-! ## All exports -/

/-- A reader of the exports finds the displayed path of every file. -/
structure PathsExported (catalog : TreeCatalog) : Prop where
  csv : csvFilePaths (writeCsv catalog.tree).flatten = .ok (displayPaths catalog.tree)
  csvDetailed : ∀ {σ ε : Type}
    (metadata : FileRecord → StateT σ (Except ε) (Option FileExportMetadata)) (before after : σ)
    (text : List Char), (writeCsvWithMetadata catalog.tree metadata).run before = .ok (text, after) →
      csvFilePaths text = .ok (displayPaths catalog.tree)
  json : (jsonFileEntries catalog).map jsonEntryPath = (displayPaths catalog.tree).map some
  jsonDetailed : ∀ {σ ε : Type}
    (metadata : FileRecord → StateT σ (Except ε) (Option FileExportMetadata)) (before after : σ)
    (text : List Char), (writeJsonWithMetadata catalog.tree metadata).run before = .ok (text, after) →
      ∃ entries, text = jsonText (jsonDirectoryEntries catalog.tree ++ entries) ∧
        entries.map jsonEntryPath = (displayPaths catalog.tree).map some

/-- The exports agree with the display exactly when no file without a path of its own
has a parent whose path ends in two backslashes. -/
theorem pathsExported_iff (catalog : TreeCatalog) :
    PathsExported catalog ↔ ∀ file ∈ catalog.tree.files, SingleSeparator catalog.tree file := by
  constructor
  · intro h
    exact (entryPaths_iff (fun file ↦ catalog.exportMetadata.find? file.id.val) _).mp h.json
  · intro h
    refine ⟨csvFilePaths_writeCsv _, fun _ _ _ _ hrun ↦ csvFilePaths_writeCsvWithMetadata hrun,
      (entryPaths_iff (fun file ↦ catalog.exportMetadata.find? file.id.val) _).mpr h,
      fun metadata before after text hrun ↦ ?_⟩
    obtain ⟨provided, hlength, htext⟩ := writeJsonWithMetadata_eq hrun
    exact ⟨_, htext, entryPaths_zipWith hlength h⟩

/-- A root with two backslashes at its end, and a file in it. -/
def doubledRoot : BufferedIndexTransaction where
  directories := .ofList [⟨⟨5⟩, none, "C:", "C:\\\\", 0, 0, 0, 0⟩]
  files := .ofList [⟨⟨9⟩, ⟨5⟩, "a", "", 7, 4096, .archive, ⟨none, none, none⟩⟩]

/-- The file is in the comma-separated catalog under its displayed path, and in JSON
under another one. -/
theorem pathsExported_doubledRoot :
    ((TreeIndex.build 1 doubledRoot).map fun tree ↦ (displayPaths tree,
      (csvFilePaths (writeCsv tree).flatten).toOption, (jsonFileEntries ⟨tree, .empty⟩).map jsonEntryPath)) =
        some (["C:\\\\a".toList], some ["C:\\\\a".toList], [some "C:\\a".toList]) ∧
    ∀ tree, TreeIndex.build 1 doubledRoot = some tree → ¬ PathsExported ⟨tree, .empty⟩ := by
  have hpaths : ((TreeIndex.build 1 doubledRoot).map fun tree ↦ (displayPaths tree,
      (csvFilePaths (writeCsv tree).flatten).toOption, (jsonFileEntries ⟨tree, .empty⟩).map jsonEntryPath)) =
        some (["C:\\\\a".toList], some ["C:\\\\a".toList], [some "C:\\a".toList]) := by
    decide +kernel
  refine ⟨hpaths, fun tree hbuild h ↦ ?_⟩
  rw [hbuild, Option.map_some, Option.some.injEq, Prod.mk.injEq, Prod.mk.injEq] at hpaths
  have hjson := h.json
  rw [hpaths.1, hpaths.2.2] at hjson
  exact absurd hjson (by decide)

end CatalogText

end WinBlaze
