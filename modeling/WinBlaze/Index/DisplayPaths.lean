import WinBlaze.Index.LetterCase

/-!
# Looking for a display path

An export must not overwrite a scanned file, so its target is compared with the
display path of every file, without regard to case and to verbatim prefixes.
ASCII paths are compared in fragments, and the joined path is never built.
-/

namespace WinBlaze

open CatalogText (UnicodeCase isAscii)

/-- `trim_start_matches` of the verbatim prefix. -/
def trimVerbatim : List Char → List Char
  | '\\' :: '\\' :: '?' :: '\\' :: rest => trimVerbatim rest
  | text => text

/-- Whether the target is a parent, a separator and a name up to ASCII case. -/
def fragmentsMatch (target parent name : List Char) (separator : Bool) : Bool :=
  let length := parent.length + separator.toNat + name.length
  target.length = length &&
    CatalogText.eqIgnoreAsciiCase (target.take parent.length) parent &&
      (!separator || target[parent.length]? = some '\\') &&
        CatalogText.eqIgnoreAsciiCase (target.drop (parent.length + separator.toNat)) name

namespace TreeIndex

variable (unicode : UnicodeCase) (tree : TreeIndex)

/-- A file's display path as it is compared: without verbatim prefixes, in lower case. -/
def comparedPath (file : FileRecord) : List Char :=
  unicode.toLowercase (trimVerbatim (tree.fileDisplayPath file).toList)

/-- The path of a file's directory, empty when there is none. -/
def rawParent (file : FileRecord) : String :=
  (tree.directoryFullPath file.parentDirectoryId.val).getD ""

/-- Whether the display path has a separator behind the parent path. -/
def hasSeparator (file : FileRecord) : Bool :=
  !(tree.rawParent file).isEmpty && !endsWithBackslash (tree.rawParent file)

/-- Whether a file has the target, already in lower case, for a display path. -/
def hasDisplayPath (target : List Char) (file : FileRecord) : Bool :=
  if file.fullPath ≠ "" then
    let source := trimVerbatim file.fullPath.toList
    if isAscii source && isAscii target then CatalogText.eqIgnoreAsciiCase source target
    else tree.comparedPath unicode file = target
  else
    let parent := trimVerbatim (tree.rawParent file).toList
    if isAscii parent && isAscii file.name.toList && isAscii target &&
        !file.name.toList.contains '\\' then
      fragmentsMatch target parent file.name.toList (tree.hasSeparator file)
    else tree.comparedPath unicode file = target

def containsFileDisplayPath (path : String) : Bool :=
  let target := unicode.toLowercase (trimVerbatim path.toList)
  tree.files.any (tree.hasDisplayPath unicode target)

end TreeIndex

/-! ## Verbatim prefixes -/

def verbatimPrefix : List Char := ['\\', '\\', '?', '\\']

theorem trimVerbatim_append (text : List Char) :
    trimVerbatim (verbatimPrefix ++ text) = trimVerbatim text := by
  simp only [verbatimPrefix, List.cons_append, List.nil_append, trimVerbatim]

theorem trimVerbatim_eq_self {text : List Char} (h : ¬ verbatimPrefix <+: text) :
    trimVerbatim text = text := by
  unfold trimVerbatim
  split
  · exact (h (List.prefix_append verbatimPrefix _)).elim
  · rfl

/-- The last case of `trimVerbatim`. -/
theorem not_prefix_of_forall_ne {text : List Char}
    (h : ∀ rest, text = '\\' :: '\\' :: '?' :: '\\' :: rest → False) : ¬ verbatimPrefix <+: text :=
  fun ⟨rest, hrest⟩ ↦ h rest hrest.symm

theorem not_prefix_trimVerbatim (text : List Char) : ¬ verbatimPrefix <+: trimVerbatim text := by
  induction text using trimVerbatim.induct with
  | case1 rest ih =>
      simp only [trimVerbatim]
      exact ih
  | case2 text hno =>
      have hprefix := not_prefix_of_forall_ne hno
      rwa [trimVerbatim_eq_self hprefix]

/-- Trimming goes past the prefixes of the first of two parts. -/
theorem trimVerbatim_append_left (text rest : List Char) :
    trimVerbatim (text ++ rest) = trimVerbatim (trimVerbatim text ++ rest) := by
  induction text using trimVerbatim.induct with
  | case1 text ih =>
      simp only [List.cons_append, trimVerbatim]
      exact ih
  | case2 text hno => rw [trimVerbatim_eq_self (not_prefix_of_forall_ne hno)]

theorem trimVerbatim_suffix (text : List Char) : trimVerbatim text <:+ text := by
  induction text using trimVerbatim.induct with
  | case1 text ih =>
      simp only [trimVerbatim]
      exact ih.trans (List.suffix_append verbatimPrefix text)
  | case2 text hno => rw [trimVerbatim_eq_self (not_prefix_of_forall_ne hno)]

theorem trimVerbatim_of_notMem {name : List Char} (h : '\\' ∉ name) : trimVerbatim name = name := by
  apply trimVerbatim_eq_self
  rintro ⟨rest, rfl⟩
  exact h (List.mem_append_left rest (List.mem_cons_self (a := '\\')))

/-- The separator between a parent path and a name. -/
def separatorText (separator : Bool) : List Char := if separator then ['\\'] else []

theorem separator_of_mem {name front back : List Char} {separator : Bool} (hname : '\\' ∉ name)
    (h : separatorText separator ++ name = front ++ '\\' :: back) :
    front = [] ∧ separator = true := by
  cases separator with
  | false =>
      have heq : name = front ++ '\\' :: back := h
      exact (hname (by simp [heq])).elim
  | true =>
      cases front with
      | nil => exact ⟨rfl, rfl⟩
      | cons c front =>
          have heq : name = front ++ '\\' :: back := (List.cons.inj h).2
          exact (hname (by simp [heq])).elim

/-- Only the separator behind two backslashes and a question mark makes a verbatim prefix. -/
theorem prefix_joined {parent name : List Char} {separator : Bool}
    (hparent : ¬ verbatimPrefix <+: parent) (hname : '\\' ∉ name)
    (h : verbatimPrefix <+: parent ++ (separatorText separator ++ name)) :
    parent = ['\\', '\\', '?'] ∧ separator = true := by
  obtain ⟨back, hback⟩ := h
  rcases List.append_eq_append_iff.mp hback with ⟨rest, hrest, -⟩ | ⟨front, hfront, hjoined⟩
  · exact (hparent ⟨rest, hrest.symm⟩).elim
  · rcases List.eq_nil_or_concat front with rfl | ⟨middle, last, rfl⟩
    · exact (hparent ⟨[], by simpa using hfront⟩).elim
    · rw [List.concat_eq_append] at hfront hjoined
      have hsplit : ['\\', '\\', '?'] ++ ['\\'] = (parent ++ middle) ++ [last] :=
        hfront.trans (List.append_assoc parent middle [last]).symm
      obtain ⟨hthree, hlast⟩ := List.append_inj' hsplit rfl
      obtain rfl := (List.cons.inj hlast).1
      rw [List.append_assoc, List.singleton_append] at hjoined
      obtain ⟨rfl, hseparator⟩ := separator_of_mem hname hjoined
      rw [List.append_nil] at hthree
      exact ⟨hthree.symm, hseparator⟩

/-! ## Fragments -/

namespace CatalogText

theorem map_separatorText (separator : Bool) :
    (separatorText separator).map toAsciiLowercase = separatorText separator := by
  cases separator <;> decide

theorem length_separatorText (separator : Bool) :
    (separatorText separator).length = separator.toNat := by
  cases separator <;> rfl

/-- Fragments match when the text in lower case is the one they are joined to. -/
theorem fragmentsMatch_iff {target : List Char} (htarget : target.map toAsciiLowercase = target)
    (parent name : List Char) (separator : Bool) :
    fragmentsMatch target parent name separator = true ↔
      target = (parent ++ (separatorText separator ++ name)).map toAsciiLowercase := by
  simp only [fragmentsMatch, Bool.and_eq_true, decide_eq_true_eq, eqIgnoreAsciiCase_iff,
    List.map_take, List.map_drop, htarget, List.map_append, map_separatorText]
  constructor
  · rintro ⟨⟨⟨-, hparent⟩, hseparator⟩, hname⟩
    have hmiddle : (target.drop parent.length).take separator.toNat = separatorText separator := by
      cases separator with
      | false => exact List.take_zero
      | true =>
          have hbackslash : target[parent.length]? = some '\\' := by simpa using hseparator
          simp [separatorText, List.take_one, hbackslash]
    calc target = target.take parent.length ++ target.drop parent.length :=
          (List.take_append_drop _ _).symm
      _ = target.take parent.length ++ ((target.drop parent.length).take separator.toNat ++
            (target.drop parent.length).drop separator.toNat) :=
          congrArg (target.take parent.length ++ ·) (List.take_append_drop _ _).symm
      _ = _ := by rw [List.drop_drop, hparent, hmiddle, hname]
  · intro heq
    have hlength : (parent.map toAsciiLowercase).length = parent.length := List.length_map _
    have hfront : (parent.map toAsciiLowercase ++ separatorText separator).length =
        parent.length + separator.toNat := by
      rw [List.length_append, hlength, length_separatorText]
    refine ⟨⟨⟨?_, ?_⟩, ?_⟩, ?_⟩
    · rw [heq, ← List.append_assoc, List.length_append, hfront, List.length_map]
    · rw [heq]
      exact List.take_left' hlength
    · cases separator with
      | false => rfl
      | true =>
          rw [heq, List.getElem?_append_right hlength.le, hlength, Nat.sub_self]
          rfl
    · rw [heq, ← List.append_assoc]
      exact List.drop_left' hfront

end CatalogText

/-! ## The comparison -/

namespace TreeIndex

open CatalogText (toAsciiLowercase)

/-- A file whose separator completes a verbatim prefix. -/
structure CompletesPrefix (tree : TreeIndex) (file : FileRecord) : Prop where
  fullPath : file.fullPath = ""
  parent : trimVerbatim (tree.rawParent file).toList = ['\\', '\\', '?']
  ascii : isAscii file.name.toList = true
  name : '\\' ∉ file.name.toList

variable {unicode : UnicodeCase} {tree : TreeIndex} {file : FileRecord}

theorem fileDisplayPath_of_empty (h : file.fullPath = "") :
    tree.fileDisplayPath file = joinPath (tree.rawParent file) file.name := by
  unfold fileDisplayPath rawParent
  rw [if_neg (not_not_intro h)]
  cases tree.directoryFullPath file.parentDirectoryId.val with
  | some parent => rfl
  | none => simp [joinPath]

theorem toList_fileDisplayPath (h : file.fullPath = "") :
    (tree.fileDisplayPath file).toList = (tree.rawParent file).toList ++
      (separatorText (tree.hasSeparator file) ++ file.name.toList) := by
  rw [fileDisplayPath_of_empty h]
  unfold joinPath
  change (_ ++ (if tree.hasSeparator file then "\\" else "") ++ _).toList = _
  cases tree.hasSeparator file <;> simp [separatorText]

theorem hasSeparator_of_trimmed
    (h : trimVerbatim (tree.rawParent file).toList = ['\\', '\\', '?']) :
    tree.hasSeparator file = true := by
  obtain ⟨front, hfront⟩ := trimVerbatim_suffix (tree.rawParent file).toList
  rw [h] at hfront
  have hempty : (tree.rawParent file).isEmpty = false := by
    rw [Bool.eq_false_iff]
    intro hnil
    rw [String.isEmpty_iff.mp hnil] at hfront
    simp at hfront
  have hlast : endsWithBackslash (tree.rawParent file) = false := by
    simp [endsWithBackslash, ← hfront]
  simp [hasSeparator, hempty, hlast]

/-- The display path without prefixes, as the fragments have it. -/
theorem trimVerbatim_fileDisplayPath (h : file.fullPath = "") (hname : '\\' ∉ file.name.toList) :
    trimVerbatim (tree.fileDisplayPath file).toList =
      if trimVerbatim (tree.rawParent file).toList = ['\\', '\\', '?'] then file.name.toList
      else trimVerbatim (tree.rawParent file).toList ++
        (separatorText (tree.hasSeparator file) ++ file.name.toList) := by
  rw [toList_fileDisplayPath h, trimVerbatim_append_left]
  split
  case isTrue hparent =>
      rw [hparent, hasSeparator_of_trimmed hparent]
      change trimVerbatim (verbatimPrefix ++ file.name.toList) = file.name.toList
      rw [trimVerbatim_append, trimVerbatim_of_notMem hname]
  case isFalse hparent =>
      apply trimVerbatim_eq_self
      intro hprefix
      exact hparent (prefix_joined (not_prefix_trimVerbatim _) hname hprefix).1

theorem isAscii_separatorText (separator : Bool) : isAscii (separatorText separator) = true := by
  cases separator <;> decide

/-- The target in lower case does not begin with a verbatim prefix. -/
theorem not_prefix_lowered (unicode : UnicodeCase) (path : List Char) :
    ¬ verbatimPrefix <+: unicode.toLowercase (trimVerbatim path) := by
  rintro ⟨rest, hrest⟩
  have hbackslash : '\\'.toNat < 65 ∨ 90 < '\\'.toNat ∧ '\\'.toNat < 97 := by decide
  have hquestion : '?'.toNat < 65 ∨ 90 < '?'.toNat ∧ '?'.toNat < 97 := by decide
  obtain ⟨first, hpath, hfirst⟩ := unicode.lowerFrom_eq_cons hbackslash hrest.symm
  obtain ⟨second, rfl, hsecond⟩ := unicode.lowerFrom_eq_cons hbackslash hfirst
  obtain ⟨third, rfl, hthird⟩ := unicode.lowerFrom_eq_cons hquestion hsecond
  obtain ⟨fourth, rfl, -⟩ := unicode.lowerFrom_eq_cons hbackslash hthird
  exact not_prefix_trimVerbatim path ⟨fourth, hpath.symm⟩

theorem CompletesPrefix.comparedPath (h : tree.CompletesPrefix file) :
    tree.comparedPath unicode file = file.name.toList.map toAsciiLowercase := by
  rw [TreeIndex.comparedPath, trimVerbatim_fileDisplayPath h.fullPath h.name, if_pos h.parent,
    unicode.toLowercase_ascii h.ascii]

/-- What is compared with the target in fragments is the display path but for a
completed prefix. -/
theorem hasDisplayPath_iff (path : List Char) :
    tree.hasDisplayPath unicode (unicode.toLowercase (trimVerbatim path)) file = true ↔
      tree.comparedPath unicode file = unicode.toLowercase (trimVerbatim path) ∧
        ¬ tree.CompletesPrefix file := by
  have hlowered := unicode.map_toAsciiLowercase_toLowercase (trimVerbatim path)
  have hnoprefix := not_prefix_lowered unicode path
  generalize unicode.toLowercase (trimVerbatim path) = target at hlowered hnoprefix ⊢
  unfold hasDisplayPath
  split
  case isTrue hstored =>
      have hcomplete : ¬ tree.CompletesPrefix file := fun h ↦ hstored h.fullPath
      have hdisplay : tree.fileDisplayPath file = file.fullPath := if_pos hstored
      simp only [hcomplete, not_false_eq_true, and_true]
      split
      case isTrue hascii =>
          obtain ⟨hsource, -⟩ := Bool.and_eq_true_iff.mp hascii
          rw [CatalogText.eqIgnoreAsciiCase_iff, hlowered, comparedPath, hdisplay,
            unicode.toLowercase_ascii hsource]
      case isFalse => exact decide_eq_true_iff
  case isFalse hstored =>
      have hempty : file.fullPath = "" := not_not.mp hstored
      dsimp only
      split
      case isTrue hguard =>
          simp only [Bool.and_eq_true, Bool.not_eq_true', List.contains_eq_mem,
            decide_eq_false_iff_not] at hguard
          obtain ⟨⟨⟨hparent, hascii⟩, -⟩, hname⟩ := hguard
          rw [CatalogText.fragmentsMatch_iff hlowered, comparedPath,
            trimVerbatim_fileDisplayPath hempty hname]
          by_cases hthree : trimVerbatim (tree.rawParent file).toList = ['\\', '\\', '?']
          · have hcomplete : tree.CompletesPrefix file := ⟨hempty, hthree, hascii, hname⟩
            refine iff_of_false (fun heq ↦ hnoprefix ?_) fun h ↦ h.2 hcomplete
            rw [heq, hthree, hasSeparator_of_trimmed hthree]
            exact ⟨file.name.toList.map toAsciiLowercase, rfl⟩
          · have hcomplete : ¬ tree.CompletesPrefix file := fun h ↦ hthree h.parent
            have hjoined : isAscii (trimVerbatim (tree.rawParent file).toList ++
                (separatorText (tree.hasSeparator file) ++ file.name.toList)) = true :=
              CatalogText.isAscii_append.mpr ⟨hparent,
                CatalogText.isAscii_append.mpr ⟨isAscii_separatorText _, hascii⟩⟩
            rw [if_neg hthree, unicode.toLowercase_ascii hjoined]
            simp only [hcomplete, not_false_eq_true, and_true]
            exact eq_comm
      case isFalse hguard =>
          rw [decide_eq_true_iff]
          refine ⟨fun heq ↦ ⟨heq, fun hcomplete ↦ hguard ?_⟩, And.left⟩
          have htarget : isAscii target = true := by
            rw [← heq, hcomplete.comparedPath]
            exact CatalogText.isAscii_map_toAsciiLowercase hcomplete.ascii
          have hparent : isAscii (trimVerbatim (tree.rawParent file).toList) = true := by
            rw [hcomplete.parent]
            decide
          simp [hparent, htarget, hcomplete.ascii, hcomplete.name]

theorem containsFileDisplayPath_iff (unicode : UnicodeCase) (tree : TreeIndex) (path : String) :
    tree.containsFileDisplayPath unicode path = true ↔
      ∃ file ∈ tree.files, tree.comparedPath unicode file =
        unicode.toLowercase (trimVerbatim path.toList) ∧ ¬ tree.CompletesPrefix file := by
  simp only [containsFileDisplayPath, List.any_eq_true, hasDisplayPath_iff]

/-- The comparison finds exactly the display paths of the files, unless the target is the
name of a file whose separator completes a verbatim prefix and no other file's path. -/
theorem containsFileDisplayPath_exact_iff (unicode : UnicodeCase) (tree : TreeIndex)
    (path : String) :
    (tree.containsFileDisplayPath unicode path = true ↔
        ∃ file ∈ tree.files, tree.comparedPath unicode file =
          unicode.toLowercase (trimVerbatim path.toList)) ↔
      ((∃ file ∈ tree.files, tree.CompletesPrefix file ∧
          file.name.toList.map toAsciiLowercase = unicode.toLowercase (trimVerbatim path.toList)) →
        ∃ file ∈ tree.files, ¬ tree.CompletesPrefix file ∧
          tree.comparedPath unicode file = unicode.toLowercase (trimVerbatim path.toList)) := by
  rw [containsFileDisplayPath_iff]
  constructor
  · rintro h ⟨file, hmem, hcomplete, hname⟩
    obtain ⟨other, hother, hpath, hnot⟩ := h.mpr
      ⟨file, hmem, hcomplete.comparedPath.trans hname⟩
    exact ⟨other, hother, hnot, hpath⟩
  · intro h
    refine ⟨fun ⟨file, hmem, hpath, _⟩ ↦ ⟨file, hmem, hpath⟩, ?_⟩
    rintro ⟨file, hmem, hpath⟩
    by_cases hcomplete : tree.CompletesPrefix file
    · obtain ⟨other, hother, hnot, hotherPath⟩ :=
        h ⟨file, hmem, hcomplete, hcomplete.comparedPath.symm.trans hpath⟩
      exact ⟨other, hother, hotherPath, hnot⟩
    · exact ⟨file, hmem, hpath, hcomplete⟩

/-- A directory whose path a separator completes to a verbatim prefix, and a file in it. -/
def verbatimParent : BufferedIndexTransaction where
  directories := .ofList [⟨⟨1⟩, none, "", "\\\\?", 0, 0, 0, 0⟩]
  files := .ofList [⟨⟨20⟩, ⟨1⟩, "a", "", 10, 4096, .archive, ⟨none, none, none⟩⟩]

/-- The file's path is the target, and the fragments do not match it. -/
theorem containsFileDisplayPath_verbatimParent :
    ∃ tree, TreeIndex.build 2 verbatimParent = some tree ∧
      ¬ (tree.containsFileDisplayPath .ascii "a" = true ↔
        ∃ file ∈ tree.files, tree.comparedPath .ascii file =
          UnicodeCase.ascii.toLowercase (trimVerbatim "a".toList)) := by
  have hrun : (TreeIndex.build 2 verbatimParent).map (fun tree ↦
      (tree.containsFileDisplayPath .ascii "a", tree.files.any fun file ↦
        tree.comparedPath .ascii file = UnicodeCase.ascii.toLowercase (trimVerbatim "a".toList))) =
      some (false, true) := by decide +kernel
  obtain ⟨tree, hbuild, hpair⟩ := Option.map_eq_some_iff.mp hrun
  obtain ⟨hmissed, hshown⟩ := Prod.mk.inj hpair
  refine ⟨tree, hbuild, fun h ↦ ?_⟩
  have hexists : ∃ file ∈ tree.files, tree.comparedPath .ascii file =
      UnicodeCase.ascii.toLowercase (trimVerbatim "a".toList) := by simpa using hshown
  rw [h.mpr hexists] at hmissed
  cases hmissed

end TreeIndex

end WinBlaze
