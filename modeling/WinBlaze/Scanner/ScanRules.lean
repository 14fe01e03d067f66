import WinBlaze.Index.ReopenedLayout
import WinBlaze.Index.Wildcards
import WinBlaze.Lib.Pruning
import WinBlaze.Scanner.WalkAgreement

/-!
# Scan rules

Directories that the rules exclude are not read. What a walk finds is nevertheless what the rules
want of the whole tree.
-/

namespace WinBlaze

open CatalogText

/-- Paths relative to the root, and patterns of file names. -/
structure ScanRules where
  excludePaths : List (List Char)
  includeFiles : List (List Char)
  deriving DecidableEq

namespace ScanRules

/-! ## Texts -/

/-- `White_Space` -/
def isWhitespace (c : Char) : Bool :=
  (9 ≤ c.toNat && c.toNat ≤ 13) || (0x2000 ≤ c.toNat && c.toNat ≤ 0x200A) ||
    [0x20, 0x85, 0xA0, 0x1680, 0x2028, 0x2029, 0x202F, 0x205F, 0x3000].contains c.toNat

def trimMatches (p : Char → Bool) (text : List Char) : List Char := (text.dropWhile p).rdropWhile p

def trim (text : List Char) : List Char := trimMatches isWhitespace text

def isSlash (c : Char) : Bool := c = '/' || c = '\\'

def backslashes (text : List Char) : List Char := text.map fun c ↦ if c = '/' then '\\' else c

/-- The lines of a text, where it is one that is read at all. -/
def decode (text : List Char) : Option (List (List Char)) :=
  if text.isEmpty then some []
  else if 65536 < byteLength text || text.contains '\x00' then none
  else some (((text.splitOnP fun c ↦ c = '\r' || c = '\n').map trim).filter fun line ↦ !line.isEmpty)

def parseScanRules (excluded included : List Char) : Option ScanRules := do
  let excludePaths ← decode excluded
  let includeFiles ← decode included
  if excludePaths.any fun path ↦ (path.splitOnP isSlash).contains ['.', '.'] || path.contains ':' then none
  else some ⟨excludePaths, includeFiles⟩

/-! ## What is allowed -/

theorem exists_wildcard (pattern name : String) : ∃ fuel,
    (Wildcards.wildcard pattern name fuel).isSome = true :=
  (Glob.Cursor.decides_run Wildcards.sameChar Wildcards.starChar pattern.toList name.toList).1

/-- The answer of the matcher, which comes at last. -/
def wildcard (pattern name : String) : Bool :=
  (Wildcards.wildcard pattern name (Nat.find (exists_wildcard pattern name))).getD false

section Rules

variable (toLowercase : List Char → List Char) (rules : ScanRules)

def ruleText (rule : List Char) : List Char := toLowercase (backslashes (trimMatches isSlash (trim rule)))

/-- The text of a path relative to the root, with the names it has from there. -/
def relativeText (names : List (List Char)) : List Char :=
  toLowercase (backslashes (['\\'].intercalate names))

def excludes (names : List (List Char)) : Bool :=
  let relative := relativeText toLowercase names
  rules.excludePaths.any fun rule ↦
    let rule := ruleText toLowercase rule
    !rule.isEmpty && (relative = rule || startsWith relative (rule ++ ['\\']))

def allows (names : List (List Char)) (directory : Bool) : Bool :=
  !rules.excludes toLowercase names && (directory || rules.includeFiles.isEmpty ||
    rules.includeFiles.any fun pattern ↦
      wildcard (.ofList (toLowercase pattern)) (.ofList (toLowercase (names.getLast?.getD []))))

/-! ## What is wanted -/

/-- The path, or one above it, is that of a rule. -/
def Excluded (names : List (List Char)) : Prop :=
  ∃ rule ∈ rules.excludePaths, ruleText toLowercase rule ≠ [] ∧
    ∃ above, above ≠ [] ∧ above <+: names ∧ relativeText toLowercase above = ruleText toLowercase rule

/-- The file is not excluded, and its name is in the language of a pattern if there are any. -/
structure Wanted (names : List (List Char)) : Prop where
  kept : ¬ rules.Excluded toLowercase names
  included : rules.includeFiles = [] ∨ ∃ pattern ∈ rules.includeFiles,
    Wildcards.InGlob (toLowercase pattern) (toLowercase (names.getLast?.getD []))

end Rules

theorem wildcard_iff (pattern : List Char) {name : List Char} (hname : '*' ∉ name) :
    wildcard (.ofList pattern) (.ofList name) = true ↔ Wildcards.InGlob pattern name := by
  have hdecides := Wildcards.unicodeWildcard_decides pattern hname
  obtain ⟨answer, hanswer⟩ := Option.isSome_iff_exists.mp
    (Nat.find_spec (exists_wildcard (.ofList pattern) (.ofList name)))
  have hrun := hanswer
  rw [Wildcards.wildcard, String.toList_ofList, String.toList_ofList] at hrun
  rw [wildcard, hanswer, Option.getD_some]
  exact hdecides.2 _ _ hrun

/-- Lower case keeps separators, and makes no other letter one or a star. -/
structure KeepsSpecials (toLowercase : List Char → List Char) : Prop where
  splits : SplitsPaths toLowercase
  keeps : ∀ text, ∀ c ∈ toLowercase text, c = '\\' ∨ c = '*' → c ∈ text

/-- A name that a file can have. -/
def IsFileName (name : List Char) : Prop := '\\' ∉ name ∧ '/' ∉ name ∧ '*' ∉ name

section Texts

variable {toLowercase : List Char → List Char} (h : KeepsSpecials toLowercase) {rules : ScanRules}

theorem intercalate_concat {front : List (List Char)} (hfront : front ≠ []) (name : List Char) :
    ['\\'].intercalate (front ++ [name]) = ['\\'].intercalate front ++ '\\' :: name := by
  induction front with
  | nil => exact absurd rfl hfront
  | cons first rest ih =>
      cases rest with
      | nil => simp [List.intercalate]
      | cons second rest =>
          have hrest := ih (List.cons_ne_nil second rest)
          simp only [List.intercalate, List.cons_append, List.intersperse_cons_cons,
            List.flatten_cons] at hrest ⊢
          rw [hrest]
          simp

include h

theorem relativeText_concat {front : List (List Char)} (hfront : front ≠ []) (name : List Char) :
    relativeText toLowercase (front ++ [name]) =
      relativeText toLowercase front ++ '\\' :: toLowercase (backslashes name) := by
  have hslash : backslashes (['\\'].intercalate front ++ '\\' :: name) =
      backslashes (['\\'].intercalate front) ++ '\\' :: backslashes name := by
    rw [backslashes, List.map_append, List.map_cons]
    rfl
  rw [relativeText, intercalate_concat hfront, hslash, h.splits, relativeText]

/-- What is below an excluded path is excluded. -/
theorem excludes_append {names : List (List Char)} (hne : names ≠ []) (more : List (List Char))
    (hexcluded : rules.excludes toLowercase names = true) :
    rules.excludes toLowercase (names ++ more) = true := by
  induction more using List.reverseRecOn with
  | nil => rwa [List.append_nil]
  | append_singleton more name ih =>
      have hconcat := relativeText_concat h (List.append_ne_nil_of_left_ne_nil hne more) name
      simp only [excludes, List.any_eq_true, Bool.and_eq_true, Bool.or_eq_true, decide_eq_true_eq, startsWith,
        List.isPrefixOf_iff_prefix] at ih ⊢
      obtain ⟨rule, hmem, htext, hplace⟩ := ih
      refine ⟨rule, hmem, htext, .inr ?_⟩
      rw [← List.append_assoc, hconcat]
      rcases hplace with hsame | hbelow
      · exact ⟨toLowercase (backslashes name), by simp [hsame]⟩
      · exact hbelow.trans (List.prefix_append _ _)

theorem notMem_lowered {name : List Char} (hname : IsFileName name) :
    '\\' ∉ toLowercase (backslashes name) := by
  intro hmem
  obtain ⟨c, hc, hsame⟩ := List.mem_map.mp (h.keeps _ _ hmem (.inl rfl))
  split_ifs at hsame with hslash
  · exact hname.2.1 (hslash ▸ hc)
  · exact hname.1 (hsame ▸ hc)

/-- The texts that end at a separator, or at the end, are those of the paths above. -/
theorem ends_iff {names : List (List Char)} (hne : names ≠ []) (hnames : ∀ name ∈ names, IsFileName name)
    (rule : List Char) :
    (relativeText toLowercase names = rule ∨ rule ++ ['\\'] <+: relativeText toLowercase names) ↔
      ∃ above, above ≠ [] ∧ above <+: names ∧ relativeText toLowercase above = rule := by
  induction names using List.reverseRecOn with
  | nil => exact absurd rfl hne
  | append_singleton front name ih =>
      have hname := notMem_lowered h (hnames name (by simp))
      by_cases hfront : front = []
      · subst hfront
        have hsingle : relativeText toLowercase [name] = toLowercase (backslashes name) := by
          simp [relativeText, List.intercalate]
        rw [List.nil_append]
        constructor
        · rintro (hsame | hbelow)
          · exact ⟨[name], List.cons_ne_nil _ _, List.prefix_rfl, hsame⟩
          · exact absurd (hsingle ▸ hbelow.subset (by simp)) hname
        · rintro ⟨above, habove, hprefix, hsame⟩
          rcases List.prefix_cons_iff.mp hprefix with rfl | ⟨rest, rfl, hrest⟩
          · exact absurd rfl habove
          · rw [List.prefix_nil.mp hrest] at hsame
            exact .inl hsame
      · have hconcat := relativeText_concat h hfront name
        have hfrontNames : ∀ other ∈ front, IsFileName other := fun other hother ↦
          hnames other (List.mem_append_left _ hother)
        have hbelow : rule ++ ['\\'] <+: relativeText toLowercase (front ++ [name]) ↔
            ∃ above, above ≠ [] ∧ above <+: front ∧ relativeText toLowercase above = rule := by
          rw [← ih hfront hfrontNames, hconcat]
          constructor
          · exact fun hprefix ↦ (SeparatedKeys.prefix_separator hname hprefix).imp_left Eq.symm
          · rintro (hsame | hprefix)
            · exact ⟨toLowercase (backslashes name), by simp [hsame]⟩
            · exact hprefix.trans (List.prefix_append _ _)
        rw [hbelow]
        constructor
        · rintro (hsame | ⟨above, habove, hprefix, hsame⟩)
          · exact ⟨front ++ [name], by simp, List.prefix_rfl, hsame⟩
          · exact ⟨above, habove, hprefix.trans (List.prefix_append _ _), hsame⟩
        · rintro ⟨above, habove, hprefix, hsame⟩
          rcases List.prefix_concat_iff.mp hprefix with rfl | hprefix
          · exact .inl hsame
          · exact .inr ⟨above, habove, hprefix, hsame⟩

theorem excludes_iff {names : List (List Char)} (hne : names ≠ [])
    (hnames : ∀ name ∈ names, IsFileName name) :
    rules.excludes toLowercase names = true ↔ rules.Excluded toLowercase names := by
  simp only [excludes, Excluded, List.any_eq_true, Bool.and_eq_true, Bool.not_eq_true', Bool.or_eq_true,
    decide_eq_true_eq, List.isEmpty_eq_false_iff, startsWith, List.isPrefixOf_iff_prefix,
    ends_iff h hne hnames]

theorem allows_file_iff {names : List (List Char)} (hne : names ≠ [])
    (hnames : ∀ name ∈ names, IsFileName name) :
    rules.allows toLowercase names false = true ↔ rules.Wanted toLowercase names := by
  have hstar : '*' ∉ toLowercase (names.getLast?.getD []) := by
    intro hmem
    rw [List.getLast?_eq_some_getLast hne, Option.getD_some] at hmem
    exact (hnames _ (List.getLast_mem hne)).2.2 (h.keeps _ _ hmem (.inr rfl))
  have hexcluded : rules.excludes toLowercase names = false ↔ ¬ rules.Excluded toLowercase names := by
    rw [← excludes_iff h hne hnames, Bool.not_eq_true]
  rw [allows, Bool.false_or, Bool.and_eq_true, Bool.not_eq_true', hexcluded, Bool.or_eq_true,
    List.isEmpty_iff, List.any_eq_true]
  simp only [wildcard_iff _ hstar]
  exact ⟨fun ⟨hkept, hincluded⟩ ↦ ⟨hkept, hincluded⟩, fun hwanted ↦ ⟨hwanted.kept, hwanted.included⟩⟩

end Texts

end ScanRules

/-! ## Walks -/

namespace WalkSource

variable {P N : Type*}

/-- The tree with only what is allowed. -/
def restrict (source : WalkSource P N) (allows : P → Bool → Bool) : WalkSource P N :=
  { source with allows := allows }

/-- The whole tree. -/
abbrev unrestricted (source : WalkSource P N) : WalkSource P N := source.restrict fun _ _ ↦ true

section Cut

variable [DecidableEq P] (source : WalkSource P N) (allows : P → Bool → Bool)

/-- What becomes of an outcome where not everything is allowed. -/
def cut (visit : Visit P) : EntryOutcome P N → EntryOutcome P N
  | .skipped => .skipped
  | .file entry =>
      if allows (source.join visit.path entry.name) false then .file entry else .skipped
  | .directory path name decision => if allows path true then .directory path name decision else .skipped

theorem cut_entryOutcome (visit : Visit P) (entry : Option (FindEntry N)) :
    source.cut allows visit (entryOutcome source.unrestricted visit.path visit.ancestors entry) =
      entryOutcome (source.restrict allows) visit.path visit.ancestors entry := by
  cases entry with
  | none => rfl
  | some entry =>
      simp only [entryOutcome, restrict, Bool.not_true, Bool.false_eq_true, if_false]
      cases hdirectory : entry.attributes.isDirectory with
      | false =>
          simp only [Bool.false_eq_true, if_false, cut]
          cases allows (source.join visit.path entry.name) false <;> rfl
      | true =>
          simp only [if_true, cut]
          cases allows (source.join visit.path entry.name) true <;> rfl

theorem items_restrict (visit : Visit P) : (source.restrict allows).tree.items visit =
    (source.unrestricted.tree.items visit).map (source.cut allows visit) := by
  change List.map _ _ = List.map _ (List.map _ _)
  rw [List.map_map]
  exact List.map_congr_left fun entry _ ↦ (source.cut_entryOutcome allows visit entry).symm

end Cut

section Ruled

variable [DecidableEq P] (source : WalkSource P N) {toLowercase : List Char → List Char} {rules : ScanRules}
  {names : P → List (List Char)}

/-- The paths are given by the names they have from the root on. -/
def ruled (toLowercase : List Char → List Char) (rules : ScanRules) (names : P → List (List Char)) :
    WalkSource P N :=
  source.restrict fun path directory ↦ rules.allows toLowercase (names path) directory

/-- The names of an entry. -/
def namesOf (names : P → List (List Char)) (file : P × FindEntry N) : List (List Char) :=
  names file.1 ++ [(source.displayName file.2.name).toList]

variable {source}

theorem mem_items {visit : Visit P} {item : EntryOutcome P N}
    (h : item ∈ source.unrestricted.tree.items visit) :
    item = .skipped ∨ (∃ entry, item = .file entry) ∨
      ∃ name decision, item = .directory (source.join visit.path name) name decision := by
  obtain ⟨entry, -, rfl⟩ := List.mem_map.mp h
  cases entry with
  | none => exact .inl rfl
  | some entry =>
      simp only [entryOutcome, restrict, Bool.not_true, Bool.false_eq_true, if_false]
      split
      case isTrue => exact .inr (.inr ⟨_, _, rfl⟩)
      case isFalse => exact .inr (.inl ⟨_, rfl⟩)

variable (h : ScanRules.KeepsSpecials toLowercase)
  (hjoin : ∀ path name, names (source.join path name) = names path ++ [(source.displayName name).toList])

include hjoin

/-- A directory is below another by one name. -/
theorem names_of_leads {visit below : Visit P} (hleads : source.unrestricted.tree.Leads visit below) :
    ∃ name, names below.path = names visit.path ++ [(source.displayName name).toList] := by
  obtain ⟨item, hitem, hchild⟩ := hleads
  rcases mem_items hitem with rfl | ⟨entry, rfl⟩ | ⟨name, decision, rfl⟩
  · cases hchild
  · cases hchild
  · cases decision with
    | follow ancestors =>
        obtain rfl := Option.some.inj hchild
        exact ⟨name, hjoin _ _⟩
    | skippedByPolicy => cases hchild
    | skippedCycle => cases hchild
    | skippedUnresolvable => cases hchild

theorem names_prefix {visit below : Visit P}
    (hleads : Relation.ReflTransGen source.unrestricted.tree.Leads visit below) :
    names visit.path <+: names below.path := by
  induction hleads with
  | refl => exact List.prefix_rfl
  | tail _ hlast ih =>
      obtain ⟨name, hname⟩ := names_of_leads hjoin hlast
      exact ih.trans ⟨_, hname.symm⟩

include h

theorem excludes_below {path : P} {name : N} {ancestors : AncestorChain P} {below : Visit P}
    (hexcluded : rules.excludes toLowercase (names (source.join path name)) = true)
    (hleads : Relation.ReflTransGen source.unrestricted.tree.Leads ⟨source.join path name, ancestors⟩ below)
    (more : List (List Char)) : rules.excludes toLowercase (names below.path ++ more) = true := by
  obtain ⟨rest, hrest⟩ := names_prefix hjoin hleads
  have hne : names (source.join path name) ≠ [] := by simp [hjoin]
  rw [← hrest, List.append_assoc]
  exact ScanRules.excludes_append h hne _ hexcluded

theorem not_accepted_below {α : Type*} {own : Visit P → EntryOutcome P N → Multiset α} {accepted : α → Prop}
    (hskipped : ∀ visit, own visit .skipped = 0)
    (hfile : ∀ visit entry, ∀ a ∈ own visit (.file entry),
      (accepted a ↔ rules.allows toLowercase (names (source.join visit.path entry.name)) false = true))
    (hdirectory : ∀ visit name decision,
    ∀ a ∈ own visit (.directory (source.join visit.path name) name decision),
      (accepted a ↔ rules.allows toLowercase (names (source.join visit.path name)) true = true))
    {path : P} {name : N} {ancestors : AncestorChain P} {depth : ℕ} {a : α}
    (hexcluded : rules.excludes toLowercase (names (source.join path name)) = true)
    (ha : a ∈ source.unrestricted.tree.gather own depth ⟨source.join path name, ancestors⟩) :
    ¬ accepted a := by
  obtain ⟨below, hleads, item, hitem, hown⟩ := Unfolding.exists_of_mem_gather ha
  have hall : ∀ other directory, ¬ rules.allows toLowercase (names (source.join below.path other))
      directory = true := by
    intro other directory
    rw [hjoin, ScanRules.allows, excludes_below h hjoin hexcluded hleads]
    exact Bool.false_ne_true
  rcases mem_items hitem with rfl | ⟨entry, rfl⟩ | ⟨other, decision, rfl⟩
  · exact absurd (hskipped below ▸ hown) (Multiset.notMem_zero a)
  · exact fun haccepted ↦ hall _ _ ((hfile below entry a hown).mp haccepted)
  · exact fun haccepted ↦ hall _ _ ((hdirectory below other decision a hown).mp haccepted)

theorem prunes {α : Type*} {own : Visit P → EntryOutcome P N → Multiset α} {accepted : α → Prop}
    (hskipped : ∀ visit, own visit .skipped = 0)
    (hfile : ∀ visit entry, ∀ a ∈ own visit (.file entry),
      (accepted a ↔ rules.allows toLowercase (names (source.join visit.path entry.name)) false = true))
    (hdirectory : ∀ visit name decision,
    ∀ a ∈ own visit (.directory (source.join visit.path name) name decision),
      (accepted a ↔ rules.allows toLowercase (names (source.join visit.path name)) true = true)) :
    Unfolding.Prunes source.unrestricted.tree (source.ruled toLowercase rules names).tree own accepted
      (source.cut fun path directory ↦ rules.allows toLowercase (names path) directory) where
  items := source.items_restrict _
  cases visit item hitem := by
    have hnothing : ∀ visit, ∀ a ∈ own visit .skipped, accepted a := fun visit a ha ↦
      absurd (hskipped visit ▸ ha) (Multiset.notMem_zero a)
    rcases mem_items hitem with rfl | ⟨entry, rfl⟩ | ⟨name, decision, rfl⟩
    · exact .inl ⟨rfl, rfl, hnothing visit⟩
    · by_cases hallows : rules.allows toLowercase (names (source.join visit.path entry.name)) false = true
      · exact .inl ⟨if_pos hallows, rfl, fun a ha ↦ (hfile visit entry a ha).mpr hallows⟩
      · have hcut : source.cut (fun path directory ↦ rules.allows toLowercase (names path) directory) visit
            (.file entry) = .skipped := if_neg hallows
        rw [hcut]
        refine .inr ⟨hskipped visit, rfl, fun depth a ha ↦ ?_⟩
        rcases Multiset.mem_add.mp ha with hown | hnone
        · exact fun haccepted ↦ hallows ((hfile visit entry a hown).mp haccepted)
        · exact absurd hnone (Multiset.notMem_zero a)
    · by_cases hallows : rules.allows toLowercase (names (source.join visit.path name)) true = true
      · exact .inl ⟨if_pos hallows, rfl, fun a ha ↦ (hdirectory visit name decision a ha).mpr hallows⟩
      · have hexcluded : rules.excludes toLowercase (names (source.join visit.path name)) = true := by
          simpa [ScanRules.allows] using hallows
        have hcut : source.cut (fun path directory ↦ rules.allows toLowercase (names path) directory) visit
            (.directory (source.join visit.path name) name decision) = .skipped := if_neg hallows
        rw [hcut]
        refine .inr ⟨hskipped visit, rfl, fun depth a ha ↦ ?_⟩
        rcases Multiset.mem_add.mp ha with hown | hbelow
        · exact fun haccepted ↦ hallows ((hdirectory visit name decision a hown).mp haccepted)
        · cases decision with
          | follow ancestors => exact not_accepted_below h hjoin hskipped hfile hdirectory hexcluded hbelow
          | skippedByPolicy => exact absurd hbelow (Multiset.notMem_zero a)
          | skippedCycle => exact absurd hbelow (Multiset.notMem_zero a)
          | skippedUnresolvable => exact absurd hbelow (Multiset.notMem_zero a)

/-- The rules cut off what they reject. -/
theorem treeFiles_ruled (depth : ℕ) (root : Visit P) :
    (source.ruled toLowercase rules names).treeFiles depth root =
      (source.unrestricted.treeFiles depth root).filter fun file ↦
        rules.allows toLowercase (source.namesOf names file) false = true := by
  refine (prunes h hjoin (fun _ ↦ rfl) (fun visit entry file hfile ↦ ?_) fun visit name decision file hfile ↦
    absurd hfile (Multiset.notMem_zero file)).gather_eq depth root
  rw [Multiset.mem_singleton.mp hfile, namesOf, hjoin]

theorem treeDirectories_ruled (depth : ℕ) (root : Visit P) :
    (source.ruled toLowercase rules names).treeDirectories depth root =
      (source.unrestricted.treeDirectories depth root).filter fun place ↦
        rules.allows toLowercase (names place.1) true = true := by
  refine (prunes h hjoin (fun _ ↦ rfl) (fun visit entry place hplace ↦
    absurd hplace (Multiset.notMem_zero place)) fun visit name decision place hplace ↦ ?_).gather_eq depth root
  rw [Multiset.mem_singleton.mp hplace]

end Ruled

/-! ## What is reported -/

section Reports

variable [DecidableEq P] (source : WalkSource P N)

open Classical in
/-- The events are those of the files that are wanted and of the directories that are not excluded. -/
structure Finds (toLowercase : List Char → List Char) (rules : ScanRules) (names : P → List (List Char))
    (depth : ℕ) (root : Visit P) (events : List WalkEvent) : Prop where
  files : (filePlaces events : Multiset (Option String × String × UInt64)) =
    ((source.unrestricted.treeFiles depth root).filter fun file ↦
      rules.Wanted toLowercase (source.namesOf names file)).map fun place ↦
        (some (source.displayPath place.1), source.displayName place.2.name, place.2.sizeBytes)
  directories : (directoryPlaces events : Multiset (String × Option String)) =
    (source.displayPath root.path, none) ::ₘ ((source.unrestricted.treeDirectories depth root).filter
      fun place ↦ ¬ rules.Excluded toLowercase (names place.1)).map fun place ↦
        (source.displayPath place.1, some (source.displayPath place.2))

variable {source} {toLowercase : List Char → List Char} {rules : ScanRules} {names : P → List (List Char)}
  (hjoin : ∀ path name, names (source.join path name) = names path ++ [(source.displayName name).toList])
  (hnames : ∀ name, ScanRules.IsFileName (source.displayName name).toList) {root : Visit P}
  (hroot : names root.path = [])

include hjoin hnames hroot

theorem isFileName_of_leads {below : Visit P}
    (hleads : Relation.ReflTransGen source.unrestricted.tree.Leads root below) :
    ∀ name ∈ names below.path, ScanRules.IsFileName name := by
  induction hleads with
  | refl => simp [hroot]
  | tail _ hlast ih =>
      obtain ⟨name, hname⟩ := names_of_leads hjoin hlast
      rw [hname]
      exact List.forall_mem_append.mpr ⟨ih, by simpa using hnames name⟩

theorem isFileName_concat {below : Visit P}
    (hleads : Relation.ReflTransGen source.unrestricted.tree.Leads root below) (name : N) :
    ∀ other ∈ names below.path ++ [(source.displayName name).toList], ScanRules.IsFileName other :=
  List.forall_mem_append.mpr ⟨isFileName_of_leads hjoin hnames hroot hleads, by simpa using hnames name⟩

variable (h : ScanRules.KeepsSpecials toLowercase)

include h

open Classical in
theorem treeFiles_wanted (depth : ℕ) : (source.ruled toLowercase rules names).treeFiles depth root =
    (source.unrestricted.treeFiles depth root).filter fun file ↦
      rules.Wanted toLowercase (source.namesOf names file) := by
  rw [treeFiles_ruled h hjoin]
  refine Multiset.filter_congr fun file hfile ↦ ?_
  obtain ⟨below, hleads, item, hitem, hown⟩ := Unfolding.exists_of_mem_gather hfile
  rcases mem_items hitem with rfl | ⟨entry, rfl⟩ | ⟨name, decision, rfl⟩
  · exact absurd hown (Multiset.notMem_zero file)
  · rw [Multiset.mem_singleton.mp hown]
    exact ScanRules.allows_file_iff h (by simp [namesOf])
      (isFileName_concat hjoin hnames hroot hleads entry.name)
  · exact absurd hown (Multiset.notMem_zero file)

open Classical in
theorem treeDirectories_kept (depth : ℕ) :
    (source.ruled toLowercase rules names).treeDirectories depth root =
    (source.unrestricted.treeDirectories depth root).filter fun place ↦
      ¬ rules.Excluded toLowercase (names place.1) := by
  rw [treeDirectories_ruled h hjoin]
  refine Multiset.filter_congr fun place hplace ↦ ?_
  obtain ⟨below, hleads, item, hitem, hown⟩ := Unfolding.exists_of_mem_gather hplace
  rcases mem_items hitem with rfl | ⟨entry, rfl⟩ | ⟨name, decision, rfl⟩
  · exact absurd hown (Multiset.notMem_zero place)
  · exact absurd hown (Multiset.notMem_zero place)
  · rw [Multiset.mem_singleton.mp hown, hjoin, ScanRules.allows, Bool.true_or, Bool.true_or,
      Bool.and_true, Bool.not_eq_true',
      ← Bool.not_eq_true, ScanRules.excludes_iff h (by simp)
        (isFileName_concat hjoin hnames hroot hleads name)]

theorem finds_of_finished {allocation : UInt64 × BitVec 128 → UInt64} {depth : ℕ}
    {claims : Set (UInt64 × BitVec 128) → Prop} {name : String} {view : WalkView} {pool : WalkPool P N}
    (hfinished : Finished (source.ruled toLowercase rules names) root name claims view pool)
    (hwalk : (source.ruled toLowercase rules names).Bounded allocation depth root) {deeper : ℕ}
    (hle : depth ≤ deeper) : source.Finds toLowercase rules names deeper root view.events where
  files := by
    have hdeeper : (source.ruled toLowercase rules names).treeFiles deeper root =
        (source.ruled toLowercase rules names).treeFiles depth root :=
      Unfolding.gather_mono hwalk.finite hle
    rw [hfinished.filePlaces_eq hwalk, ← hdeeper, treeFiles_wanted hjoin hnames hroot h]
    rfl
  directories := by
    have hdeeper : (source.ruled toLowercase rules names).treeDirectories deeper root =
        (source.ruled toLowercase rules names).treeDirectories depth root :=
      Unfolding.gather_mono hwalk.finite hle
    rw [hfinished.directoryPlaces_eq hwalk, ← hdeeper, treeDirectories_kept hjoin hnames hroot h]
    rfl

end Reports

end WalkSource

namespace ScanRules

/-- The lines of a text that is read. -/
def lines (text : List Char) : List (List Char) := (decode text).getD []

theorem eq_of_parseScanRules {excluded included : List Char} {rules : ScanRules}
    (h : parseScanRules excluded included = some rules) : rules = ⟨lines excluded, lines included⟩ := by
  obtain ⟨excludePaths, hexcluded, h⟩ := Option.bind_eq_some_iff.mp h
  obtain ⟨includeFiles, hincluded, h⟩ := Option.bind_eq_some_iff.mp h
  split at h
  · cases h
  · rw [lines, lines, hexcluded, hincluded]
    exact (Option.some.inj h).symm

/-- Both walks with the rules of two texts find what these want of the whole tree, however deep
it is where it is not read. -/
theorem walks_find {P N : Type*} [DecidableEq P] {toLowercase : List Char → List Char}
    (h : KeepsSpecials toLowercase) {excluded included : List Char} {rules : ScanRules}
    (hparse : parseScanRules excluded included = some rules) {source : WalkSource P N}
    {names : P → List (List Char)}
    (hjoin : ∀ path name, names (source.join path name) = names path ++ [(source.displayName name).toList])
    (hnames : ∀ name, IsFileName (source.displayName name).toList) {root : Visit P}
    (hroot : names root.path = [])
    {allocation : UInt64 × BitVec 128 → UInt64} {depth : ℕ}
    (hwalk : (source.ruled toLowercase rules names).Bounded allocation depth root) (name : String) {deeper : ℕ}
    (hdeeper : depth ≤ deeper) :
    (∀ orders, ∃ state, walkDirectoryTree (source.ruled toLowercase rules names) orders depth root.path ⟨5⟩
        root.ancestors (.new (rootEvent source root.path name)) = some state ∧
      source.Finds toLowercase ⟨lines excluded, lines included⟩ names deeper root state.events) ∧
    ∀ workerLimit walk,
      FallbackReachable (source.ruled toLowercase rules names) root name workerLimit walk →
      walk.shared.cancelled = false → (∀ worker ∈ walk.workers, worker.phase = .done) →
      source.Finds toLowercase ⟨lines excluded, lines included⟩ names deeper root walk.shared.events := by
  rw [← eq_of_parseScanRules hparse]
  refine ⟨fun orders ↦ ?_, fun workerLimit walk hreach hlive hdone ↦ ?_⟩
  · obtain ⟨state, hstate, _, pool, hpool⟩ := exists_finished_walkDirectoryTree orders hwalk name
    exact ⟨state, hstate, WalkSource.finds_of_finished hjoin hnames hroot h hpool hwalk hdeeper⟩
  · obtain ⟨_, pool, hpool⟩ := hreach.exists_pool hwalk hlive hdone
    exact WalkSource.finds_of_finished hjoin hnames hroot h hpool hwalk hdeeper

/-! ## A folder that is excluded -/

theorem keepsSpecials_ascii : KeepsSpecials (List.map CatalogText.toAsciiLowercase) where
  splits front rest := by
    have hsep : CatalogText.toAsciiLowercase '\\' = '\\' := by decide
    rw [List.map_append, List.map_cons, hsep]
  keeps text c hmem hspecial := by
    obtain ⟨d, hd, hsame⟩ := List.mem_map.mp hmem
    have hrange : c.toNat < 65 ∨ 90 < c.toNat ∧ c.toNat < 97 := by
      rcases hspecial with rfl | rfl
      · exact .inr (by decide)
      · exact .inl (by decide)
    obtain rfl := (CatalogText.toAsciiLowercase_eq_iff hrange).mp hsame
    exact hd

instance (name : List Char) : Decidable (IsFileName name) := inferInstanceAs (Decidable (_ ∧ _ ∧ _))

/-- A file, and one in a folder. -/
def nestedSource : WalkSource (List (List Char)) { text : String // IsFileName text.toList } where
  readDir path :=
    if path = [] then some [some (entry ⟨"a", by decide⟩ false), some (entry ⟨"D", by decide⟩ true)]
    else if path = [['D']] then some [some (entry ⟨"b", by decide⟩ false)]
    else none
  canonicalize _ := none
  stripVerbatimPrefix path := path
  join path name := path ++ [name.val.toList]
  displayPath path := .ofList (['\\'].intercalate path)
  displayName name := name.val
  isVolumePath _ := false
  allows _ _ := true
  policy := .skipAll
where
  entry (name : { text : String // IsFileName text.toList }) (directory : Bool) :
      FindEntry { text : String // IsFileName text.toList } :=
    { name := name, attributes := if directory then .directory else .archive, sizeBytes := 10,
      allocationBytes := 4096, physicalIdentity := none, createdUtc := 0, modifiedUtc := 0,
        accessedUtc := 0 }

def folderRules : ScanRules := ⟨[['d', '/']], []⟩

theorem parse_folderRules : parseScanRules "d/\r\n".toList [] = some folderRules := by
  decide +kernel

theorem bounded_nestedSource :
    (nestedSource.ruled (List.map CatalogText.toAsciiLowercase) folderRules id).Bounded
      (fun _ ↦ 4096) 1 ⟨[], []⟩ where
  finite := by
    intro outcome houtcome child hchild
    have hitems : (nestedSource.ruled (List.map CatalogText.toAsciiLowercase) folderRules
        id).tree.items ⟨[], []⟩ =
        [.file (nestedSource.entry ⟨"a", by decide⟩ false), .skipped] := by
      rfl
    rw [hitems] at houtcome
    simp only [List.mem_cons, List.not_mem_nil, or_false] at houtcome
    rcases houtcome with rfl | rfl
    · cases hchild
    · cases hchild
  atMost := by
    have hfiles : (nestedSource.ruled (List.map CatalogText.toAsciiLowercase) folderRules
        id).treeFiles 1 ⟨[], []⟩ =
        {([], nestedSource.entry ⟨"a", by decide⟩ false)} := rfl
    intro file hfile identity hidentity
    rw [hfiles] at hfile
    obtain rfl := Multiset.mem_singleton.mp hfile
    cases hidentity
  fits := ⟨by decide, by decide, by decide, by decide⟩

theorem walks_find_nested :
    ∃ state, walkDirectoryTree (nestedSource.ruled (List.map CatalogText.toAsciiLowercase) folderRules id)
        (fun _ ↦ id) 1 [] ⟨5⟩ []
        (.new (rootEvent nestedSource [] "r")) = some state ∧
      nestedSource.Finds (List.map CatalogText.toAsciiLowercase) ⟨lines "d/\r\n".toList, lines []⟩ id 2
        ⟨[], []⟩ state.events :=
  (walks_find keepsSpecials_ascii parse_folderRules (fun _ _ ↦ rfl) (fun name ↦ name.property) rfl
    bounded_nestedSource "r" one_le_two).1 fun _ ↦ id

end ScanRules

end WinBlaze
