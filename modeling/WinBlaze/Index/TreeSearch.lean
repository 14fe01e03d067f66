import WinBlaze.Index.CatalogTimes
import WinBlaze.Index.ChildPages
import WinBlaze.Index.MultipleRoots

/-!
# Searching a tree

A search collects the places of all matching directories and files, and sorts no
more of them than its page needs. The pages of all sizes are parts of one order
of the matches.
-/

namespace WinBlaze

open Selection

namespace TreeSearch

inductive TextMode
  | contains | exact | prefixed | regex
  deriving DecidableEq, Repr

inductive SearchSort
  | name | logical | allocated | kind | modified
  deriving DecidableEq, Repr

structure SearchOptions where
  pattern : String := ""
  sort : SearchSort := .name
  descending : Bool := false
  mode : TextMode := .contains
  minLogical : Option UInt64 := none
  maxLogical : Option UInt64 := none
  minAllocated : Option UInt64 := none
  maxAllocated : Option UInt64 := none
  /-- Inclusive lower and exclusive upper boundaries in UTC Unix seconds. -/
  modifiedAfter : Option Int64 := none
  modifiedBefore : Option Int64 := none
  extensions : List String := []
  includeDirectories : Bool := true
  includeFiles : Bool := true
  offset : ℕ := 0
  limit : ℕ := 50

structure SearchResult where
  entry : TreeEntry
  path : String

structure SearchPage where
  total : ℕ
  hits : List SearchResult

inductive SearchError
  | invalidInput (message : String)
  deriving DecidableEq, Repr

/-- The lower case of texts and of characters. -/
structure Casing where
  toLowercase : String → String
  charToLowercase : Char → List Char

/-- What builds a case-insensitive regular expression, or says why it is none. -/
abbrev RegexBuilder := String → Except String (String → Bool)

/-- A place of a directory, marked `true`, or of a file. -/
abbrev Key := Bool × ℕ

end TreeSearch

def TreeEntry.name : TreeEntry → String
  | .directory record _ => record.name
  | .file record => record.name

def TreeEntry.logicalBytes : TreeEntry → UInt64
  | .directory _ rollup => rollup.logicalBytes
  | .file record => record.sizeBytes

def TreeEntry.modifiedUtc : TreeEntry → Option Int64
  | .directory _ rollup => rollup.modifiedUtcMax
  | .file record => record.timestamps.modified

def TreeEntry.path (tree : TreeIndex) : TreeEntry → String
  | .directory record _ => record.fullPath
  | .file record => tree.fileDisplayPath record

instance : Inhabited TreeEntry := ⟨.file default⟩

namespace TreeSearch

/-! ## The filter -/

/-- Without the wildcards `*.` at its start. -/
def trimWildcards : List Char → List Char
  | '*' :: '.' :: rest => trimWildcards rest
  | text => text

/-- An extension of the options, as it is compared. -/
def extensionOf (casing : Casing) (value : String) : String :=
  casing.toLowercase (String.ofList ((trimWildcards (trim value.toList)).dropWhile (· = '.')))

/-- `none` when the entry is missing, on which the search panics. -/
def entry (tree : TreeIndex) (key : Key) : Option TreeEntry :=
  if key.1 then
    (tree.directories[key.2]?).bind fun record ↦
      (tree.rollupFor record.id.val).map (TreeEntry.directory record)
  else (tree.files[key.2]?).map TreeEntry.file

namespace SearchOptions

variable (options : SearchOptions) (casing : Casing) (tree : TreeIndex)

def reversedBounds : Bool :=
  (options.minLogical.any fun min ↦ options.maxLogical.any fun max ↦ min > max) ||
    (options.minAllocated.any fun min ↦ options.maxAllocated.any fun max ↦ min > max) ||
    (options.modifiedAfter.any fun min ↦ options.modifiedBefore.any fun max ↦ min ≥ max)

def extensionList : List String := (options.extensions.map (extensionOf casing)).filter (· ≠ "")

def loweredPattern : String := casing.toLowercase options.pattern

def matchesText (text : String) : Bool :=
  let text := casing.toLowercase text
  let pattern := options.loweredPattern casing
  match options.mode with
  | .exact => text = pattern
  | .prefixed => pattern.toList.isPrefixOf text.toList
  | _ => decide (pattern.toList <:+: text.toList)

/-- What decides on a text. -/
def textPredicate (builder : RegexBuilder) : Except String (String → Bool) :=
  if options.mode = .regex then builder options.pattern else .ok (options.matchesText casing)

def outOfBounds (key : Key) (item : TreeEntry) : Bool :=
  let modified := item.modifiedUtc.map CatalogText.unixSeconds
  (options.minLogical.any fun min ↦ item.logicalBytes < min) ||
    (options.maxLogical.any fun max ↦ item.logicalBytes > max) ||
    (options.minAllocated.any fun min ↦ item.physicalBytes < min) ||
    (options.maxAllocated.any fun max ↦ item.physicalBytes > max) ||
    (options.modifiedAfter.any fun min ↦ modified.all fun value ↦ value < min) ||
    (options.modifiedBefore.any fun max ↦ modified.all fun value ↦ value ≥ max) ||
    (!(options.extensionList casing).isEmpty &&
      (key.1 || !(rsplitOnce '.' item.name.toList).any fun parts ↦
        (options.extensionList casing).any fun value ↦
          casing.toLowercase (String.ofList parts.2) = value))

def keeps (matchesText : String → Bool) (key : Key) : Option Bool :=
  if (key.1 && !options.includeDirectories) || (!key.1 && !options.includeFiles) then some false
  else (entry tree key).map fun item ↦
    if options.outOfBounds casing key item then false
    else options.loweredPattern casing = "" || matchesText item.name || matchesText (item.path tree)

end SearchOptions

def keys (tree : TreeIndex) : List Key :=
  (List.range tree.directories.length).map (true, ·) ++ (List.range tree.files.length).map (false, ·)

/-- The keys that the filter keeps, unless it panics on one. -/
def filterKeys (keeps : Key → Option Bool) : List Key → Option (List Key)
  | [] => some []
  | key :: rest => (keeps key).bind fun keep ↦
      (filterKeys keeps rest).map fun kept ↦ if keep then key :: kept else kept

/-- No vector holds more keys, each of 16 bytes. -/
def maxMatches : ℕ := (2 ^ 63 - 1) / 16

/-! ## The order -/

/-- The entries of the keys compared have been looked up before. -/
def entryAt (tree : TreeIndex) (key : Key) : TreeEntry := (entry tree key).getD default

def loweredName (casing : Casing) (item : TreeEntry) : List Char :=
  item.name.toList.flatMap casing.charToLowercase

def compareKeys : Key → Key → Ordering := compareLex (compareOn Prod.fst) (compareOn Prod.snd)

namespace SearchOptions

variable (options : SearchOptions) (casing : Casing) (tree : TreeIndex)

def compareField (left right : Key) : Ordering :=
  match options.sort with
  | .logical => compare (entryAt tree left).logicalBytes (entryAt tree right).logicalBytes
  | .allocated => compare (entryAt tree left).physicalBytes (entryAt tree right).physicalBytes
  | .kind => compare left.1 right.1
  | .modified => compare (entryAt tree left).modifiedUtc (entryAt tree right).modifiedUtc
  | .name => .eq

def compareAscending : Key → Key → Ordering :=
  compareLex (compareLex (options.compareField tree)
    (compareOn fun key ↦ loweredName casing (entryAt tree key))) compareKeys

def compare (left right : Key) : Ordering :=
  let order := options.compareAscending casing tree left right
  if options.descending then order.swap else order

end SearchOptions

def resultOf (tree : TreeIndex) (key : Key) : SearchResult :=
  ⟨entryAt tree key, (entryAt tree key).path tree⟩

/-- `search`; `none` when it panics. -/
def search (casing : Casing) (builder : RegexBuilder) (sorts : Unstable Key) (tree : TreeIndex)
    (options : SearchOptions) : Option (Except SearchError SearchPage) :=
  if options.reversedBounds then some (.error (.invalidInput "Reversed search bounds"))
  else
    match options.textPredicate casing builder with
    | .error message => some (.error (.invalidInput message))
    | .ok matchesText =>
        ((filterKeys (options.keeps casing tree matchesText) (keys tree)).filter fun kept : List Key ↦
          kept.length ≤ maxMatches).map fun kept ↦
            let total := kept.length
            let last := min (min (options.offset + options.limit) usizeMax) total
            if options.limit = 0 ∨ options.offset ≥ total then .ok ⟨total, []⟩
            else
              let sorted :=
                if last < total then sorts.smallest last last (options.compare casing tree) kept
                else sorts.sortBy (options.compare casing tree) kept
              .ok ⟨total, ((sorted.drop options.offset).take options.limit).map (resultOf tree)⟩

/-! ## The order is total -/

section Order

variable (options : SearchOptions) (casing : Casing) (tree : TreeIndex)

instance transCmp_compareField : Std.TransCmp (options.compareField tree) := by
  unfold SearchOptions.compareField
  cases options.sort with
  | logical =>
      change Std.TransCmp (compareOn fun key ↦ (entryAt tree key).logicalBytes)
      infer_instance
  | allocated =>
      change Std.TransCmp (compareOn fun key ↦ (entryAt tree key).physicalBytes)
      infer_instance
  | kind =>
      change Std.TransCmp (compareOn fun key : Key ↦ key.1)
      infer_instance
  | modified =>
      change Std.TransCmp (compareOn fun key ↦ (entryAt tree key).modifiedUtc)
      infer_instance
  | name => exact { eq_swap := rfl, isLE_trans := fun _ _ ↦ rfl }

instance transCmp_compareKeys : Std.TransCmp compareKeys := by
  unfold compareKeys
  infer_instance

instance transCmp_compareAscending : Std.TransCmp (options.compareAscending casing tree) := by
  unfold SearchOptions.compareAscending
  infer_instance

theorem eq_of_compareKeys {left right : Key} (h : compareKeys left right = .eq) : left = right := by
  unfold compareKeys at h
  rw [compareLex_eq_eq] at h
  exact Prod.ext (Std.LawfulEqCmp.eq_of_compare h.1) (Std.LawfulEqCmp.eq_of_compare h.2)

instance transCmp_compare : Std.TransCmp (options.compare casing tree) := by
  cases hdescending : options.descending with
  | false =>
      have hsame : options.compare casing tree = options.compareAscending casing tree := by
        funext left right
        simp only [SearchOptions.compare, hdescending, Bool.false_eq_true, if_false]
      rw [hsame]
      infer_instance
  | true =>
      have hopposite : options.compare casing tree =
          fun left right ↦ options.compareAscending casing tree right left := by
        funext left right
        simp only [SearchOptions.compare, hdescending, if_true]
        exact Std.OrientedCmp.eq_swap.symm
      rw [hopposite]
      exact Std.TransCmp.opposite

/-- The comparator tells all keys apart. -/
theorem eq_of_compare {left right : Key} (h : options.compare casing tree left right = .eq) :
    left = right := by
  have hascending : options.compareAscending casing tree left right = .eq := by
    unfold SearchOptions.compare at h
    dsimp only at h
    split at h
    · exact Ordering.swap_eq_eq.mp h
    · exact h
  unfold SearchOptions.compareAscending at hascending
  rw [compareLex_eq_eq] at hascending
  exact eq_of_compareKeys hascending.2

end Order

/-! ## The matches -/

theorem filterKeys_eq_some {keeps : Key → Option Bool} {candidates kept : List Key}
    (h : filterKeys keeps candidates = some kept) :
    kept = candidates.filter (fun key ↦ keeps key = some true) := by
  induction candidates generalizing kept with
  | nil => exact (Option.some.inj h).symm
  | cons key rest ih =>
      obtain ⟨keep, hkeep, hrest⟩ := Option.bind_eq_some_iff.mp h
      obtain ⟨others, hothers, rfl⟩ := Option.map_eq_some_iff.mp hrest
      rw [ih hothers, List.filter_cons, hkeep]
      cases keep <;> simp

theorem nodup_keys (tree : TreeIndex) : (keys tree).Nodup := by
  unfold keys
  refine List.nodup_append.mpr ⟨?_, ?_, ?_⟩
  · exact List.nodup_range.map (Prod.mk_right_injective true)
  · exact List.nodup_range.map (Prod.mk_right_injective false)
  · intro a ha b hb heq
    obtain ⟨i, -, rfl⟩ := List.mem_map.mp ha
    obtain ⟨j, -, rfl⟩ := List.mem_map.mp hb
    cases heq

theorem mem_keys_of_entry {tree : TreeIndex} {key : Key} {item : TreeEntry}
    (h : entry tree key = some item) : key ∈ keys tree := by
  obtain ⟨directory, index⟩ := key
  unfold entry at h
  unfold keys
  rw [List.mem_append, List.mem_map, List.mem_map]
  cases directory with
  | true =>
      obtain ⟨record, hrecord, -⟩ := Option.bind_eq_some_iff.mp h
      exact Or.inl ⟨index, List.mem_range.mpr (List.getElem?_eq_some_iff.mp hrecord).1, rfl⟩
  | false =>
      obtain ⟨file, hfile, -⟩ := Option.map_eq_some_iff.mp h
      exact Or.inr ⟨index, List.mem_range.mpr (List.getElem?_eq_some_iff.mp hfile).1, rfl⟩

/-- What the options ask of an entry. -/
structure SearchOptions.Admits (options : SearchOptions) (casing : Casing) (tree : TreeIndex)
    (matchesText : String → Bool) (key : Key) (item : TreeEntry) : Prop where
  directory : key.1 = true → options.includeDirectories = true
  file : key.1 = false → options.includeFiles = true
  minLogical : ∀ min, options.minLogical = some min → min ≤ item.logicalBytes
  maxLogical : ∀ max, options.maxLogical = some max → item.logicalBytes ≤ max
  minAllocated : ∀ min, options.minAllocated = some min → min ≤ item.physicalBytes
  maxAllocated : ∀ max, options.maxAllocated = some max → item.physicalBytes ≤ max
  modifiedAfter : ∀ min, options.modifiedAfter = some min →
    ∃ ticks, item.modifiedUtc = some ticks ∧ min ≤ CatalogText.unixSeconds ticks
  modifiedBefore : ∀ max, options.modifiedBefore = some max →
    ∃ ticks, item.modifiedUtc = some ticks ∧ CatalogText.unixSeconds ticks < max
  extension : options.extensionList casing ≠ [] → key.1 = false ∧
    ∃ parts, rsplitOnce '.' item.name.toList = some parts ∧
      casing.toLowercase (String.ofList parts.2) ∈ options.extensionList casing
  text : options.loweredPattern casing = "" ∨ matchesText item.name = true ∨
    matchesText (item.path tree) = true

/-- A key of a directory or file that the options ask for. -/
def SearchOptions.Matches (options : SearchOptions) (casing : Casing) (builder : RegexBuilder)
    (tree : TreeIndex) (key : Key) : Prop :=
  ∃ matchesText item, options.textPredicate casing builder = .ok matchesText ∧
    entry tree key = some item ∧ options.Admits casing tree matchesText key item

section Matches

variable {options : SearchOptions} {casing : Casing} {tree : TreeIndex} {matchesText : String → Bool}
  {key : Key} {item : TreeEntry}

theorem outOfBounds_eq_false_iff : options.outOfBounds casing key item = false ↔
    ((∀ min, options.minLogical = some min → min ≤ item.logicalBytes) ∧
      (∀ max, options.maxLogical = some max → item.logicalBytes ≤ max) ∧
      (∀ min, options.minAllocated = some min → min ≤ item.physicalBytes) ∧
      (∀ max, options.maxAllocated = some max → item.physicalBytes ≤ max) ∧
      (∀ min, options.modifiedAfter = some min →
        ∃ ticks, item.modifiedUtc = some ticks ∧ min ≤ CatalogText.unixSeconds ticks) ∧
      (∀ max, options.modifiedBefore = some max →
        ∃ ticks, item.modifiedUtc = some ticks ∧ CatalogText.unixSeconds ticks < max) ∧
      (options.extensionList casing ≠ [] → key.1 = false ∧
        ∃ parts, rsplitOnce '.' item.name.toList = some parts ∧
          casing.toLowercase (String.ofList parts.2) ∈ options.extensionList casing)) := by
  unfold SearchOptions.outOfBounds
  simp only [Bool.or_eq_false_iff, Option.any_eq_false, Option.all_map, Option.all_eq_false,
    and_assoc]
  refine and_congr (forall₂_congr fun min _ ↦ ?_) <| and_congr (forall₂_congr fun max _ ↦ ?_) <|
    and_congr (forall₂_congr fun min _ ↦ ?_) <| and_congr (forall₂_congr fun max _ ↦ ?_) <|
    and_congr (forall₂_congr fun min _ ↦ exists_congr fun ticks ↦ and_congr_right fun _ ↦ ?_) <|
    and_congr (forall₂_congr fun max _ ↦ exists_congr fun ticks ↦ and_congr_right fun _ ↦ ?_) ?_
  · rw [decide_eq_false_iff_not, UInt64.not_lt]
  · rw [decide_eq_false_iff_not, gt_iff_lt, UInt64.not_lt]
  · rw [decide_eq_false_iff_not, UInt64.not_lt]
  · rw [decide_eq_false_iff_not, gt_iff_lt, UInt64.not_lt]
  · rw [decide_eq_false_iff_not, Int64.not_lt]
  · rw [decide_eq_false_iff_not, ge_iff_le, Int64.not_le]
  · by_cases hnil : options.extensionList casing = []
    · simp [hnil]
    · have hlist : (options.extensionList casing).isEmpty = false := by
        rw [← Bool.not_eq_true, List.isEmpty_iff]
        exact hnil
      simp only [hlist, Bool.not_false, Bool.true_and, Bool.or_eq_false_iff, Bool.not_eq_false',
        Option.any_eq_true, List.any_eq_true, decide_eq_true_eq, exists_eq_right', ne_eq, hnil,
        not_false_eq_true, forall_const]

theorem admits_iff : options.Admits casing tree matchesText key item ↔
    ((key.1 = true → options.includeDirectories = true) ∧
      (key.1 = false → options.includeFiles = true)) ∧
    options.outOfBounds casing key item = false ∧
    (options.loweredPattern casing = "" ∨ matchesText item.name = true ∨
      matchesText (item.path tree) = true) := by
  rw [outOfBounds_eq_false_iff]
  constructor
  · exact fun h ↦ ⟨⟨h.directory, h.file⟩, ⟨h.minLogical, h.maxLogical, h.minAllocated, h.maxAllocated,
      h.modifiedAfter, h.modifiedBefore, h.extension⟩, h.text⟩
  · rintro ⟨⟨hdirectory, hfile⟩, ⟨hmin, hmax, hmin', hmax', hafter, hbefore, hextension⟩, htext⟩
    exact ⟨hdirectory, hfile, hmin, hmax, hmin', hmax', hafter, hbefore, hextension, htext⟩

/-- The filter keeps the matches. -/
theorem keeps_eq_some_true_iff : options.keeps casing tree matchesText key = some true ↔
    ∃ item, entry tree key = some item ∧ options.Admits casing tree matchesText key item := by
  have hkind : ((key.1 && !options.includeDirectories) || (!key.1 && !options.includeFiles)) = false ↔
      (key.1 = true → options.includeDirectories = true) ∧
        (key.1 = false → options.includeFiles = true) := by
    cases key.1 <;> cases options.includeDirectories <;> cases options.includeFiles <;> decide
  simp only [admits_iff, ← hkind]
  unfold SearchOptions.keeps
  split
  case isTrue hexcluded =>
    simp [hexcluded]
  case isFalse hincluded =>
    rw [Option.map_eq_some_iff]
    refine exists_congr fun item ↦ and_congr_right fun _ ↦ ?_
    rw [and_iff_right (Bool.eq_false_iff.mpr hincluded)]
    cases options.outOfBounds casing key item <;> simp [or_assoc]

end Matches

/-! ## Pages -/

/-- All matches in the order of the options. -/
def matchOrder (casing : Casing) (tree : TreeIndex) (options : SearchOptions)
    (matchesText : String → Bool) : List Key :=
  sorted (options.compare casing tree)
    ((keys tree).filter fun key ↦ options.keeps casing tree matchesText key = some true)

theorem maxMatches_le : maxMatches ≤ usizeMax := by decide

section Pages

variable {casing : Casing} {builder : RegexBuilder} {sorts : Unstable Key} {tree : TreeIndex}
  {options : SearchOptions}

/-- A page is a part of the order of all matches. -/
theorem page_of_search {matchesText : String → Bool}
    (htext : options.textPredicate casing builder = .ok matchesText) {page : SearchPage}
    (h : search casing builder sorts tree options = some (.ok page)) :
    page.total = (matchOrder casing tree options matchesText).length ∧
      page.hits = (((matchOrder casing tree options matchesText).drop options.offset).take
        options.limit).map (resultOf tree) := by
  unfold search at h
  rw [htext] at h
  split at h
  case isTrue => cases h
  case isFalse =>
    obtain ⟨kept, hkept, hpage⟩ := Option.map_eq_some_iff.mp h
    obtain ⟨hfilter, hcapacity⟩ := Option.filter_eq_some_iff.mp hkept
    obtain rfl := filterKeys_eq_some hfilter
    set kept := (keys tree).filter fun key ↦ options.keeps casing tree matchesText key = some true
    have hlength : (matchOrder casing tree options matchesText).length = kept.length := length_sorted _ _
    have hties : ∀ a ∈ kept, ∀ b ∈ kept, options.compare casing tree a b = .eq → a = b :=
      fun _ _ _ _ heq ↦ eq_of_compare options casing tree heq
    have hcapacity : kept.length ≤ usizeMax := (of_decide_eq_true hcapacity).trans maxMatches_le
    have horder : matchOrder casing tree options matchesText =
        sorted (options.compare casing tree) kept := rfl
    rw [hlength]
    dsimp only at hpage
    split at hpage
    case isTrue hempty =>
      obtain rfl := Except.ok.inj hpage
      refine ⟨rfl, ?_⟩
      rcases hempty with hzero | hend
      · rw [hzero, List.take_zero, List.map_nil]
      · rw [List.drop_eq_nil_of_le (hlength.trans_le hend), List.take_nil, List.map_nil]
    case isFalse =>
      obtain rfl := Except.ok.inj hpage
      refine ⟨rfl, ?_⟩
      split
      case isTrue hless =>
        have hlast : min (min (options.offset + options.limit) usizeMax) kept.length =
            options.offset + options.limit := by omega
        rw [hlast] at hless ⊢
        rw [sorts.smallest_eq hties hless le_rfl (Nat.le_succ _), ← horder, List.drop_take,
          Nat.add_sub_cancel_left, List.take_take, Nat.min_self]
      case isFalse => rw [sorts.sortBy_eq hties, ← horder]

/-- The matches have one order, and every page is a part of it. -/
theorem search_pages (casing : Casing) (builder : RegexBuilder) (tree : TreeIndex)
    (options : SearchOptions) :
    ∃ order : List Key, order.Pairwise (fun a b ↦ options.compare casing tree a b = .lt) ∧
      (∀ key, key ∈ order ↔ options.Matches casing builder tree key) ∧
      ∀ sorts offset limit page,
        search casing builder sorts tree { options with offset := offset, limit := limit } =
            some (.ok page) →
          page.total = order.length ∧
            page.hits = ((order.drop offset).take limit).map (resultOf tree) := by
  cases htext : options.textPredicate casing builder with
  | error message =>
      refine ⟨[], List.Pairwise.nil, fun key ↦ ⟨fun h ↦ (by cases h), ?_⟩, ?_⟩
      · rintro ⟨matchesText, item, hok, -⟩
        cases htext.symm.trans hok
      · intro sorts offset limit page h
        have htext' : ({ options with offset := offset, limit := limit } : SearchOptions).textPredicate
            casing builder = .error message := htext
        unfold search at h
        rw [htext'] at h
        split at h <;> cases h
  | ok matchesText =>
      have hperm : (matchOrder casing tree options matchesText).Perm _ := sorted_perm _ _
      refine ⟨matchOrder casing tree options matchesText, ?_, fun key ↦ ?_,
        fun sorts offset limit page h ↦ ?_⟩
      · have hnodup : (matchOrder casing tree options matchesText).Nodup :=
          hperm.nodup_iff.mpr ((nodup_keys tree).filter _)
        refine (sorted_sorted _).imp₂ (fun a b hle hne ↦ ?_) hnodup
        cases horder : options.compare casing tree a b with
        | lt => rfl
        | eq => exact (hne (eq_of_compare options casing tree horder)).elim
        | gt =>
            rw [horder] at hle
            cases hle
      · rw [hperm.mem_iff, List.mem_filter, decide_eq_true_iff, keeps_eq_some_true_iff]
        constructor
        · rintro ⟨-, item, hitem, hadmits⟩
          exact ⟨matchesText, item, htext, hitem, hadmits⟩
        · rintro ⟨other, item, hother, hitem, hadmits⟩
          obtain rfl := Except.ok.inj (htext.symm.trans hother)
          exact ⟨mem_keys_of_entry hitem, item, hitem, hadmits⟩
      · have htext' : ({ options with offset := offset, limit := limit } : SearchOptions).textPredicate
            casing builder = .ok matchesText := htext
        exact page_of_search htext' h

end Pages

/-! ## What is accepted -/

theorem filterKeys_isSome {keeps : Key → Option Bool} {candidates : List Key}
    (h : ∀ key ∈ candidates, (keeps key).isSome = true) : (filterKeys keeps candidates).isSome = true := by
  induction candidates with
  | nil => rfl
  | cons key rest ih =>
      obtain ⟨keep, hkeep⟩ := Option.isSome_iff_exists.mp (h key List.mem_cons_self)
      obtain ⟨kept, hkept⟩ := Option.isSome_iff_exists.mp
        (ih fun other hother ↦ h other (List.mem_cons_of_mem _ hother))
      rw [filterKeys, hkeep, Option.bind_some, hkept, Option.map_some, Option.isSome_some]

/-- The entries of a built tree are all there. -/
theorem entry_isSome {tree : TreeIndex} (h : tree.IsLaidOut)
    (hdirectories : tree.directories.length < 2 ^ 32) {key : Key} (hkey : key ∈ keys tree) :
    (entry tree key).isSome = true := by
  unfold keys at hkey
  unfold entry
  rcases List.mem_append.mp hkey with hmem | hmem
  · obtain ⟨index, hindex, rfl⟩ := List.mem_map.mp hmem
    rw [List.mem_range] at hindex
    have hget := List.getElem?_eq_getElem hindex
    have hplace := (directoryIndex_eq_some_iff h.ids (tree.directories[index]).id.val index).mpr
      ⟨_, hget, rfl⟩
    have hrollup : tree.rollupFor (tree.directories[index]).id.val =
        some (tree.nodeAt index).rollup := by
      rw [TreeIndex.rollupFor, h.lookup, DirectoryLookup.get_new h.ids hdirectories, hplace,
        Option.bind_some, h.getElem?_nodes hindex, Option.map_some]
    rw [if_pos rfl, hget, Option.bind_some, hrollup, Option.map_some, Option.isSome_some]
  · obtain ⟨index, hindex, rfl⟩ := List.mem_map.mp hmem
    rw [List.mem_range] at hindex
    rw [if_neg Bool.false_ne_true, List.getElem?_eq_getElem hindex, Option.map_some, Option.isSome_some]

/-- A search of a built tree answers unless the bounds or the expression are wrong. -/
theorem search_ok_iff (casing : Casing) (builder : RegexBuilder) (sorts : Unstable Key)
    {tree : TreeIndex} (h : tree.IsLaidOut) (hdirectories : tree.directories.length < 2 ^ 32)
    (hcount : tree.directories.length + tree.files.length ≤ maxMatches) (options : SearchOptions) :
    (∃ page, search casing builder sorts tree options = some (.ok page)) ↔
      options.reversedBounds = false ∧
        ∃ matchesText, options.textPredicate casing builder = .ok matchesText := by
  unfold search
  cases hbounds : options.reversedBounds with
  | true => simp
  | false =>
      cases htext : options.textPredicate casing builder with
      | error message => simp
      | ok matchesText =>
          have hfilter : (filterKeys (options.keeps casing tree matchesText) (keys tree)).isSome =
              true := by
            refine filterKeys_isSome fun key hkey ↦ ?_
            unfold SearchOptions.keeps
            split
            · rfl
            · rw [Option.isSome_map]
              exact entry_isSome h hdirectories hkey
          obtain ⟨kept, hkept⟩ := Option.isSome_iff_exists.mp hfilter
          have hlength : kept.length ≤ maxMatches := by
            have hle := List.length_filter_le
              (fun key ↦ decide (options.keeps casing tree matchesText key = some true)) (keys tree)
            have hkeys : (keys tree).length = tree.directories.length + tree.files.length := by
              simp [keys]
            rw [← filterKeys_eq_some hkept] at hle
            omega
          simp only [hkept, Option.filter_some, hlength, decide_true, if_true, Option.map_some,
            Bool.false_eq_true, if_false, true_and, Except.ok.injEq, exists_eq', iff_true]
          split <;> exact ⟨_, rfl⟩

theorem search_pages_twoLevels (casing : Casing) : ∃ tree page,
    TreeIndex.build 3 twoLevels = some tree ∧
      search casing (fun _ ↦ .error "") .ofMergeSort tree { pattern := "a", offset := 1, limit := 2 } =
        some (.ok page) ∧
      ∃ order : List Key, page.total = order.length ∧
        page.hits = ((order.drop 1).take 2).map (resultOf tree) := by
  obtain ⟨tree, hbuild, hdirectories, hfiles⟩ := exists_build_twoLevels
  obtain ⟨page, hpage⟩ := (search_ok_iff casing (fun _ ↦ .error "") .ofMergeSort
    (TreeIndex.isLaidOut_of_build hbuild) (by omega) (by rw [hdirectories, hfiles]; decide)
    { pattern := "a", offset := 1, limit := 2 }).mpr ⟨rfl, _, rfl⟩
  obtain ⟨order, -, -, hslices⟩ := search_pages casing (fun _ ↦ .error "") tree { pattern := "a" }
  exact ⟨tree, page, hbuild, hpage, order, hslices .ofMergeSort 1 2 page hpage⟩

end TreeSearch

end WinBlaze
