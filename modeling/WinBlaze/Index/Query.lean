import WinBlaze.Index.Catalog
import WinBlaze.Lib.Selection

/-!
# Searching a catalog

A search filters the files and directories of a catalog, orders the hits and
keeps the first of them. It answers impossible queries at once, keeps a few
extensions in place, and sorts no more hits by name than it returns.
-/

namespace WinBlaze

open Selection

/-! ## Queries -/

inductive MatchMode
  | exact | prefixed | contains | substring
  deriving DecidableEq, Repr

inductive SortField
  | name | sizeBytes | allocationBytes | modifiedUtc | path
  deriving DecidableEq, Repr

inductive SortDirection
  | descending | ascending
  deriving DecidableEq, Repr

structure SizeFilter where
  minBytes : Option UInt64 := none
  maxBytes : Option UInt64 := none

structure DateFilter where
  modifiedAfterUtc : Option Int64 := none
  modifiedBeforeUtc : Option Int64 := none

structure SearchQuery where
  pattern : Option String := none
  matchMode : MatchMode := .substring
  extensions : List String := []
  includeFiles : Bool := false
  includeDirectories : Bool := false
  size : SizeFilter := {}
  modified : DateFilter := {}
  sortField : SortField := .name
  sortDirection : SortDirection := .descending
  limit : Option ℕ := none

/-! ## Hits -/

inductive IndexRecordKind
  | volume | directory | file
  deriving DecidableEq, Repr

structure IndexSearchHit where
  kind : IndexRecordKind
  name : String
  fullPath : String
  sizeBytes : UInt64
  allocationBytes : UInt64
  modifiedUtc : Option Int64
  deriving DecidableEq, Repr

structure FileMatchParams where
  name : String
  fullPath : String
  sizeBytes : UInt64
  allocationBytes : UInt64
  modifiedUtc : Option Int64

inductive CandidateHit
  | file (record : FileRecord)
  | directory (record : DirectoryRecord)
  deriving Inhabited

namespace CandidateHit

def params : CandidateHit → FileMatchParams
  | .file record => ⟨record.name, record.fullPath, record.sizeBytes, record.allocationBytes,
      record.timestamps.modified⟩
  | .directory record => ⟨record.name, record.fullPath, record.totalBytes, record.totalBytes, none⟩

def intoOwned (hit : CandidateHit) : IndexSearchHit where
  kind :=
    match hit with
    | .file _ => .file
    | .directory _ => .directory
  name := hit.params.name
  fullPath := hit.params.fullPath
  sizeBytes := hit.params.sizeBytes
  allocationBytes := hit.params.allocationBytes
  modifiedUtc := hit.params.modifiedUtc

end CandidateHit

/-! ## Texts -/

def bytes (text : String) : List UInt8 := text.toByteArray.data.toList

def byteToAsciiLowercase (byte : UInt8) : UInt8 := if 65 ≤ byte ∧ byte ≤ 90 then byte + 32 else byte

def asciiLowercase (text : List UInt8) : List UInt8 := text.map byteToAsciiLowercase

def eqIgnoreAsciiCase (a b : List UInt8) : Bool := asciiLowercase a = asciiLowercase b

def startsWithIgnoreAsciiCase (haystack needle : List UInt8) : Bool :=
  if haystack.length < needle.length then false
  else eqIgnoreAsciiCase (haystack.take needle.length) needle

/-- All runs of `size` elements; there are none in a shorter list. -/
def windows (size : ℕ) (text : List UInt8) : List (List UInt8) :=
  (List.range (text.length + 1 - size)).map fun start ↦ (text.drop start).take size

def containsIgnoreAsciiCase (haystack needle : List UInt8) : Bool :=
  if needle.isEmpty then true
  else (windows needle.length haystack).any fun window ↦ eqIgnoreAsciiCase window needle

def matchesText (pattern : String) (mode : MatchMode) (name fullPath : String) : Bool :=
  match mode with
  | .exact => eqIgnoreAsciiCase (bytes name) (bytes pattern) ||
      eqIgnoreAsciiCase (bytes fullPath) (bytes pattern)
  | .prefixed => startsWithIgnoreAsciiCase (bytes name) (bytes pattern) ||
      startsWithIgnoreAsciiCase (bytes fullPath) (bytes pattern)
  | .contains | .substring => containsIgnoreAsciiCase (bytes name) (bytes pattern) ||
      containsIgnoreAsciiCase (bytes fullPath) (bytes pattern)

/-! ## Extensions -/

def normalizeExtension (extension : String) : Option String :=
  let normalized := String.ofList ((trim extension.toList).dropWhile (· = '.'))
  if normalized = "" then none else some normalized

/-- Eight slots, and a list of all extensions once they are more. -/
structure PreparedExtensions where
  slots : List String := List.replicate 8 ""
  len : ℕ := 0
  overflow : List String := []

namespace PreparedExtensions

def push (prepared : PreparedExtensions) (extension : String) : PreparedExtensions :=
  if prepared.len < prepared.slots.length then
    ⟨prepared.slots.set prepared.len extension, prepared.len + 1, prepared.overflow⟩
  else
    let overflow := if prepared.overflow.isEmpty then prepared.slots else prepared.overflow
    ⟨prepared.slots, prepared.len + 1, overflow ++ [extension]⟩

def new (extensions : List String) : PreparedExtensions :=
  (extensions.filterMap normalizeExtension).foldl push {}

def asSlice (prepared : PreparedExtensions) : List String :=
  if prepared.overflow.isEmpty then prepared.slots.take prepared.len else prepared.overflow

end PreparedExtensions

/-! ## The search -/

/-- `extension` is the standard library's extension of a path. -/
def matchesQuery (extension : String → Option String) (query : SearchQuery)
    (extensions : List String) (params : FileMatchParams) : Bool :=
  if !(query.pattern.all fun pattern ↦
      matchesText pattern query.matchMode params.name params.fullPath) then false
  else if !extensions.isEmpty && !((extension params.fullPath).any fun raw ↦
      extensions.any fun ext ↦ eqIgnoreAsciiCase (bytes ext) (bytes raw)) then false
  else if query.size.minBytes.any fun minBytes ↦ params.sizeBytes < minBytes then false
  else if query.size.maxBytes.any fun maxBytes ↦ params.sizeBytes > maxBytes then false
  else if query.modified.modifiedAfterUtc.any fun after ↦
      params.modifiedUtc.all fun value ↦ value ≤ after then false
  else if query.modified.modifiedBeforeUtc.any fun before ↦
      params.modifiedUtc.all fun value ↦ value ≥ before then false
  else true

namespace SearchQuery

variable (query : SearchQuery)

/-- The text that hits are sorted by. -/
def sortText (hit : CandidateHit) : String :=
  if query.sortField = .name then hit.params.name else hit.params.fullPath

def compareText (a b : CandidateHit) : Ordering :=
  compare (asciiLowercase (bytes (query.sortText a))) (asciiLowercase (bytes (query.sortText b)))

def compareValue (a b : CandidateHit) : Ordering :=
  match query.sortField with
  | .allocationBytes => compare a.params.allocationBytes b.params.allocationBytes
  | .modifiedUtc => compare a.params.modifiedUtc b.params.modifiedUtc
  | _ => compare a.params.sizeBytes b.params.sizeBytes

/-- By name or by path. -/
def sortsText : Bool := query.sortField = .name ∨ query.sortField = .path

def directed {α : Type*} (cmp : α → α → Ordering) (a b : α) : Ordering :=
  if query.sortDirection = .descending then (cmp a b).swap else cmp a b

/-- `sort_hits`. The sort by text is stable. -/
def sortHits (sorts : Unstable CandidateHit) (hits : List CandidateHit) : List CandidateHit :=
  let sorted :=
    if query.sortsText then hits.mergeSort fun a b ↦ (query.compareText a b).isLE
    else sorts.sortBy query.compareValue hits
  if query.sortDirection = .descending then sorted.reverse else sorted

/-- The first hits by text, from a selection of their places. -/
def firstHits (sorts : Unstable ℕ) (limit : ℕ) (hits : List CandidateHit) : List CandidateHit :=
  let hitAt := fun index ↦ hits.getD index default
  (sorts.smallest (limit - 1) limit (query.directed (tieBroken query.compareText hitAt))
    (List.range hits.length)).map hitAt

/-- Bounds that no entry meets. -/
def impossible : Bool :=
  (query.size.minBytes.any fun min ↦ query.size.maxBytes.any fun max ↦ min > max) ||
    query.modified.modifiedAfterUtc.any fun after ↦
      query.modified.modifiedBeforeUtc.any fun before ↦ after ≥ before

end SearchQuery

/-- `search`. -/
def IndexCatalog.search (extension : String → Option String) (placeSorts : Unstable ℕ)
    (hitSorts : Unstable CandidateHit) (catalog : IndexCatalog) (query : SearchQuery) :
    List IndexSearchHit :=
  let candidateCount := query.includeFiles.toNat * catalog.files.length +
    query.includeDirectories.toNat * catalog.aggregatedDirectories.length
  if query.limit = some 0 ∨ candidateCount = 0 ∨ query.impossible then []
  else
    let extensions := (PreparedExtensions.new query.extensions).asSlice
    let matching := fun hit : CandidateHit ↦ matchesQuery extension query extensions hit.params
    let files := if query.includeFiles then (catalog.files.map .file).filter matching else []
    let directories := if query.includeDirectories then
      (catalog.aggregatedDirectories.map .directory).filter matching else []
    let hits := files ++ directories
    let ordered :=
      match query.limit.filter (· < hits.length) with
      | some limit =>
          if query.sortsText then query.firstHits placeSorts limit hits else query.sortHits hitSorts hits
      | none => query.sortHits hitSorts hits
    let kept :=
      match query.limit with
      | some limit => ordered.take limit
      | none => ordered
    kept.map CandidateHit.intoOwned

/-! ## Prepared extensions -/

namespace PreparedExtensions

/-- The slots hold these extensions, or the list does when they are too many. -/
structure Holds (prepared : PreparedExtensions) (extensions : List String) : Prop where
  slots : prepared.slots.length = 8
  len : prepared.len = extensions.length
  few : extensions.length ≤ 8 → prepared.overflow = [] ∧ prepared.slots.take prepared.len = extensions
  many : 8 < extensions.length → prepared.overflow = extensions

theorem Holds.push {prepared : PreparedExtensions} {extensions : List String}
    (h : Holds prepared extensions) (extension : String) :
    Holds (prepared.push extension) (extensions ++ [extension]) := by
  have hlen := h.len
  unfold PreparedExtensions.push
  rw [h.slots, hlen]
  split
  case isTrue hroom =>
    obtain ⟨hoverflow, htake⟩ := h.few hroom.le
    have hfill : (prepared.slots.set extensions.length extension).take (extensions.length + 1) =
        extensions ++ [extension] := by
      rw [hlen] at htake
      rw [List.take_set, List.take_succ_eq_append_getElem (by rw [h.slots]; exact hroom), htake]
      simp
    refine ⟨?_, ?_, fun _ ↦ ⟨hoverflow, hfill⟩, fun hmany ↦ ?_⟩
    · rw [List.length_set, h.slots]
    · rw [List.length_append, List.length_singleton]
    · rw [List.length_append, List.length_singleton] at hmany
      omega
  case isFalse hfull =>
    have hall : (if prepared.overflow.isEmpty then prepared.slots else prepared.overflow) = extensions := by
      rcases Nat.lt_or_ge 8 extensions.length with hmany | hfew
      · have hne : extensions.isEmpty = false := by
          rw [← Bool.not_eq_true, List.isEmpty_iff_length_eq_zero]
          omega
        rw [h.many hmany, hne, if_neg Bool.false_ne_true]
      · obtain ⟨hoverflow, htake⟩ := h.few hfew
        rw [hoverflow, List.isEmpty_nil, if_pos rfl, ← htake, hlen, List.take_of_length_le]
        rw [h.slots]
        omega
    refine ⟨h.slots, ?_, fun hfew ↦ ?_, fun _ ↦ ?_⟩
    · rw [List.length_append, List.length_singleton]
    · rw [List.length_append, List.length_singleton] at hfew
      omega
    · exact congrArg (· ++ [extension]) hall

theorem Holds.foldl {prepared : PreparedExtensions} {extensions : List String}
    (h : Holds prepared extensions) (rest : List String) :
    Holds (rest.foldl PreparedExtensions.push prepared) (extensions ++ rest) := by
  induction rest generalizing prepared extensions with
  | nil => rwa [List.append_nil]
  | cons extension rest ih =>
      rw [List.foldl_cons, List.append_cons]
      exact ih (h.push extension)

/-- The slots and the list hold all extensions in order. -/
theorem asSlice_new (extensions : List String) :
    (new extensions).asSlice = extensions.filterMap normalizeExtension := by
  have hempty : Holds {} [] := ⟨rfl, rfl, fun _ ↦ ⟨rfl, rfl⟩, fun h ↦ by cases h⟩
  have hholds := hempty.foldl (extensions.filterMap normalizeExtension)
  rw [List.nil_append] at hholds
  unfold asSlice
  rcases Nat.lt_or_ge 8 (extensions.filterMap normalizeExtension).length with hmany | hfew
  · have hoverflow : (new extensions).overflow = extensions.filterMap normalizeExtension :=
      hholds.many hmany
    have hne : (extensions.filterMap normalizeExtension).isEmpty = false := by
      rw [← Bool.not_eq_true, List.isEmpty_iff_length_eq_zero]
      omega
    rw [hoverflow, hne, if_neg Bool.false_ne_true]
  · obtain ⟨hoverflow, htake⟩ := hholds.few hfew
    rw [show (new extensions).overflow = [] from hoverflow, List.isEmpty_nil, if_pos rfl]
    exact htake

end PreparedExtensions

/-! ## What a query asks for -/

/-- A text satisfies a pattern but for the case of ASCII letters. -/
def MatchMode.Holds (mode : MatchMode) (pattern text : String) : Prop :=
  match mode with
  | .exact => asciiLowercase (bytes text) = asciiLowercase (bytes pattern)
  | .prefixed => asciiLowercase (bytes pattern) <+: asciiLowercase (bytes text)
  | .contains | .substring => asciiLowercase (bytes pattern) <:+: asciiLowercase (bytes text)

/-- The predicates of a query. -/
structure SearchQuery.Accepts (query : SearchQuery) (extension : String → Option String)
    (params : FileMatchParams) : Prop where
  text : ∀ pattern, query.pattern = some pattern →
    query.matchMode.Holds pattern params.name ∨ query.matchMode.Holds pattern params.fullPath
  extension : query.extensions.filterMap normalizeExtension ≠ [] →
    ∃ raw, extension params.fullPath = some raw ∧
      ∃ ext ∈ query.extensions.filterMap normalizeExtension,
        asciiLowercase (bytes ext) = asciiLowercase (bytes raw)
  minBytes : ∀ minBytes, query.size.minBytes = some minBytes → minBytes ≤ params.sizeBytes
  maxBytes : ∀ maxBytes, query.size.maxBytes = some maxBytes → params.sizeBytes ≤ maxBytes
  after : ∀ after, query.modified.modifiedAfterUtc = some after →
    ∃ value, params.modifiedUtc = some value ∧ after < value
  before : ∀ before, query.modified.modifiedBeforeUtc = some before →
    ∃ value, params.modifiedUtc = some value ∧ value < before

theorem startsWithIgnoreAsciiCase_iff {haystack needle : List UInt8} :
    startsWithIgnoreAsciiCase haystack needle = true ↔
      asciiLowercase needle <+: asciiLowercase haystack := by
  unfold startsWithIgnoreAsciiCase eqIgnoreAsciiCase asciiLowercase
  split
  case isTrue hshort =>
    refine iff_of_false Bool.false_ne_true fun hprefix ↦ ?_
    have hlength := hprefix.length_le
    rw [List.length_map, List.length_map] at hlength
    omega
  case isFalse =>
    rw [decide_eq_true_iff, List.prefix_iff_eq_take, List.length_map, List.map_take, eq_comm]

theorem containsIgnoreAsciiCase_iff {haystack needle : List UInt8} :
    containsIgnoreAsciiCase haystack needle = true ↔
      asciiLowercase needle <:+: asciiLowercase haystack := by
  unfold containsIgnoreAsciiCase
  split
  case isTrue hempty =>
    rw [List.isEmpty_iff.mp hempty]
    exact iff_of_true rfl List.nil_infix
  case isFalse =>
    unfold windows eqIgnoreAsciiCase asciiLowercase
    simp only [List.any_map, List.any_eq_true, List.mem_range, Function.comp_apply, decide_eq_true_eq]
    constructor
    · rintro ⟨start, -, heq⟩
      rw [List.map_take, List.map_drop] at heq
      rw [← heq]
      exact (List.take_prefix _ _).isInfix.trans (List.drop_suffix _ _).isInfix
    · rintro ⟨front, back, heq⟩
      have hlength := congrArg List.length heq
      simp only [List.length_append, List.length_map] at hlength
      refine ⟨front.length, by omega, ?_⟩
      rw [List.map_take, List.map_drop, ← heq, List.append_assoc, List.drop_left]
      exact List.take_left' (List.length_map _)

theorem matchesText_iff {pattern name fullPath : String} {mode : MatchMode} :
    matchesText pattern mode name fullPath = true ↔
      mode.Holds pattern name ∨ mode.Holds pattern fullPath := by
  unfold matchesText MatchMode.Holds
  cases mode <;> rw [Bool.or_eq_true]
  case exact => exact or_congr decide_eq_true_iff decide_eq_true_iff
  case prefixed => exact or_congr startsWithIgnoreAsciiCase_iff startsWithIgnoreAsciiCase_iff
  case contains => exact or_congr containsIgnoreAsciiCase_iff containsIgnoreAsciiCase_iff
  case substring => exact or_congr containsIgnoreAsciiCase_iff containsIgnoreAsciiCase_iff

theorem matchesQuery_iff {extension : String → Option String} {query : SearchQuery}
    {params : FileMatchParams} :
    matchesQuery extension query (PreparedExtensions.new query.extensions).asSlice params = true ↔
      query.Accepts extension params := by
  rw [PreparedExtensions.asSlice_new]
  unfold matchesQuery
  simp only [Bool.if_false_left, Bool.and_eq_true, Bool.not_eq_true', decide_eq_false_iff_not,
    Option.any_eq_false, Option.all_eq_false, Option.all_eq_true, Option.any_eq_true]
  push Not
  simp only [Bool.not_eq_false, matchesText_iff, decide_eq_true_iff, UInt64.not_lt, gt_iff_lt,
    ge_iff_le, ne_eq, Int64.not_le, List.any_eq_true, List.isEmpty_eq_false_iff, eqIgnoreAsciiCase]
  constructor
  · rintro ⟨htext, hextension, hmin, hmax, hafter, hbefore, -⟩
    exact ⟨htext, hextension, hmin, hmax, hafter, hbefore⟩
  · exact fun h ↦ ⟨h.text, h.extension, h.minBytes, h.maxBytes, h.after, h.before, trivial⟩

/-! ## The reference -/

open Classical in
/-- The files and then the directories that satisfy a query. -/
noncomputable def IndexCatalog.accepted (catalog : IndexCatalog) (extension : String → Option String)
    (query : SearchQuery) : List CandidateHit :=
  ((if query.includeFiles then catalog.files.map CandidateHit.file else []) ++
    (if query.includeDirectories then catalog.aggregatedDirectories.map CandidateHit.directory
      else [])).filter fun hit ↦ query.Accepts extension hit.params

namespace SearchQuery

variable (query : SearchQuery)

/-- An order that a query asks for. -/
structure Orders (hits ordered : List CandidateHit) : Prop where
  /-- The stable order by text, as a whole reversed when descending. -/
  text : query.sortField = .name ∨ query.sortField = .path → ordered =
    if query.sortDirection = .descending then
      (hits.mergeSort fun a b ↦ (query.compareText a b).isLE).reverse
    else hits.mergeSort fun a b ↦ (query.compareText a b).isLE
  value : query.sortField ≠ .name → query.sortField ≠ .path → ordered.Perm hits ∧
    ordered.Pairwise (fun a b ↦ (query.directed query.compareValue a b).isLE)

/-- The first hits of an order, or all of them. -/
def firstOf (ordered : List CandidateHit) : List CandidateHit :=
  (query.limit.map ordered.take).getD ordered

instance transCmp_compareText : Std.TransCmp query.compareText :=
  transCmp_comap fun hit ↦ asciiLowercase (bytes (query.sortText hit))

instance transCmp_compareValue : Std.TransCmp query.compareValue := by
  unfold compareValue
  cases query.sortField with
  | allocationBytes =>
      change Std.TransCmp (compareOn fun hit : CandidateHit ↦ hit.params.allocationBytes)
      infer_instance
  | modifiedUtc =>
      change Std.TransCmp (compareOn fun hit : CandidateHit ↦ hit.params.modifiedUtc)
      infer_instance
  | name =>
      change Std.TransCmp (compareOn fun hit : CandidateHit ↦ hit.params.sizeBytes)
      infer_instance
  | sizeBytes =>
      change Std.TransCmp (compareOn fun hit : CandidateHit ↦ hit.params.sizeBytes)
      infer_instance
  | path =>
      change Std.TransCmp (compareOn fun hit : CandidateHit ↦ hit.params.sizeBytes)
      infer_instance

variable {query}

/-- Sorting all hits gives an order the query asks for. -/
theorem orders_sortHits (sorts : Unstable CandidateHit) (hits : List CandidateHit) :
    query.Orders hits (query.sortHits sorts hits) := by
  refine ⟨fun htext ↦ ?_, fun hname hpath ↦ ?_⟩
  · rw [sortHits, sortsText, if_pos (decide_eq_true htext)]
  · have hvalue : query.sortsText = false := decide_eq_false (by simp [hname, hpath])
    have hsorted := sorts.sorted_sortBy query.compareValue hits inferInstance
    have hperm := sorts.sortBy_perm query.compareValue hits
    rw [sortHits, hvalue, if_neg Bool.false_ne_true]
    unfold directed
    by_cases hdirection : query.sortDirection = .descending
    · simp only [hdirection, if_true]
      refine ⟨(List.reverse_perm _).trans hperm, List.pairwise_reverse.mpr (hsorted.imp fun {a b} h ↦ ?_)⟩
      rwa [← Std.OrientedCmp.eq_swap]
    · simp only [hdirection, if_false]
      exact ⟨hperm, hsorted⟩

theorem Orders.perm {hits ordered : List CandidateHit} (h : query.Orders hits ordered) :
    ordered.Perm hits := by
  by_cases htext : query.sortField = .name ∨ query.sortField = .path
  · rw [h.text htext]
    split
    · exact (List.reverse_perm _).trans (List.mergeSort_perm _ _)
    · exact List.mergeSort_perm _ _
  · obtain ⟨hname, hpath⟩ := not_or.mp htext
    exact (h.value hname hpath).1

/-- A selection of the places by text finds the front of the order. -/
theorem firstHits_eq (htext : query.sortField = .name ∨ query.sortField = .path) (sorts : Unstable ℕ)
    {limit : ℕ} {hits ordered : List CandidateHit} (hpos : 0 < limit) (hless : limit < hits.length)
    (horders : query.Orders hits ordered) : query.firstHits sorts limit hits = ordered.take limit := by
  set hitAt : ℕ → CandidateHit := fun index ↦ hits.getD index default with hhitAt
  have hplace : ∀ index hit, hits[index]? = some hit → hitAt index = hit := by
    intro index hit hget
    rw [hhitAt]
    simp only [List.getD_eq_getElem?_getD, hget, Option.getD_some]
  have hties : ∀ i ∈ List.range hits.length, ∀ j ∈ List.range hits.length,
      tieBroken query.compareText hitAt i j = .eq → i = j := fun _ _ _ _ ↦ eq_of_tieBroken
  have hstable : (sorted (tieBroken query.compareText hitAt) (List.range hits.length)).map hitAt =
      hits.mergeSort fun a b ↦ (query.compareText a b).isLE := map_sorted_places hplace
  rw [horders.text htext, firstHits, ← hhitAt, ← hstable]
  have hlast : limit - 1 < (List.range hits.length).length := by
    rw [List.length_range]
    omega
  by_cases hdirection : query.sortDirection = .descending
  · have hopposite : query.directed (tieBroken query.compareText hitAt) =
        fun i j ↦ tieBroken query.compareText hitAt j i := by
      funext i j
      simp only [directed, hdirection, if_true]
      exact Std.OrientedCmp.eq_swap.symm
    have htrans : Std.TransCmp (fun i j ↦ tieBroken query.compareText hitAt j i) :=
      Std.TransCmp.opposite
    rw [if_pos hdirection, hopposite, sorts.smallest_eq (fun i hi j hj heq ↦ (hties j hj i hi heq).symm)
      hlast (Nat.sub_le _ _) (by omega), sorted_swap hties, ← List.map_reverse, List.map_take]
  · have hsame : query.directed (tieBroken query.compareText hitAt) =
        tieBroken query.compareText hitAt := by
      funext i j
      simp only [directed, hdirection, if_false]
    rw [if_neg hdirection, hsame, sorts.smallest_eq hties hlast (Nat.sub_le _ _) (by omega),
      List.map_take]

/-- No entry meets impossible bounds. -/
theorem not_accepts_of_impossible (h : query.impossible = true) (extension : String → Option String)
    (params : FileMatchParams) : ¬ query.Accepts extension params := by
  intro haccepts
  unfold impossible at h
  simp only [Bool.or_eq_true, Option.any_eq_true, decide_eq_true_iff] at h
  rcases h with ⟨min, hmin, max, hmax, hlt⟩ | ⟨after, hafter, before, hbefore, hle⟩
  · have hle := UInt64.le_trans (haccepts.minBytes min hmin) (haccepts.maxBytes max hmax)
    exact UInt64.not_le.mpr hlt hle
  · obtain ⟨value, hvalue, hfirst⟩ := haccepts.after after hafter
    obtain ⟨other, hother, hlast⟩ := haccepts.before before hbefore
    obtain rfl := Option.some.inj (hvalue.symm.trans hother)
    exact Int64.not_le.mpr (Int64.lt_trans hfirst hlast) hle

end SearchQuery

namespace IndexCatalog

variable {extension : String → Option String} {catalog : IndexCatalog} {query : SearchQuery}

/-- The hits of a search are the entries that satisfy the query. -/
theorem filter_matchesQuery :
    (if query.includeFiles then (catalog.files.map CandidateHit.file).filter fun hit ↦
        matchesQuery extension query (PreparedExtensions.new query.extensions).asSlice hit.params
      else []) ++
    (if query.includeDirectories then (catalog.aggregatedDirectories.map CandidateHit.directory).filter
        fun hit ↦ matchesQuery extension query (PreparedExtensions.new query.extensions).asSlice hit.params
      else []) = catalog.accepted extension query := by
  classical
  have hsame : (fun hit : CandidateHit ↦ matchesQuery extension query
      (PreparedExtensions.new query.extensions).asSlice hit.params) =
        fun hit ↦ decide (query.Accepts extension hit.params) := by
    funext hit
    rw [Bool.eq_iff_iff, matchesQuery_iff, decide_eq_true_iff]
  rw [accepted, hsame, List.filter_append]
  congr 1
  · cases query.includeFiles <;> simp
  · cases query.includeDirectories <;> simp

theorem accepted_eq_nil_of_noCandidates
    (h : query.includeFiles.toNat * catalog.files.length +
      query.includeDirectories.toNat * catalog.aggregatedDirectories.length = 0) :
    catalog.accepted extension query = [] := by
  obtain ⟨hfiles, hdirectories⟩ := Nat.add_eq_zero_iff.mp h
  have hnone : ∀ {α : Type} {included : Bool} {l : List α} (f : α → CandidateHit),
      included.toNat * l.length = 0 → (if included then l.map f else []) = [] := by
    intro α included l f hzero
    cases included with
    | false => rfl
    | true =>
        rw [Bool.toNat_true, Nat.one_mul, List.length_eq_zero_iff] at hzero
        rw [if_pos rfl, hzero, List.map_nil]
  rw [accepted, hnone _ hfiles, hnone _ hdirectories, List.append_nil, List.filter_nil]

theorem accepted_eq_nil_of_impossible (h : query.impossible = true) :
    catalog.accepted extension query = [] := by
  classical
  refine List.filter_eq_nil_iff.mpr fun hit _ ↦ ?_
  rw [decide_eq_true_iff]
  exact SearchQuery.not_accepts_of_impossible h extension hit.params

/-- A search answers with the first hits of an order the query asks for. -/
theorem search_reference (extension : String → Option String) (placeSorts : Unstable ℕ)
    (hitSorts : Unstable CandidateHit) (catalog : IndexCatalog) (query : SearchQuery) :
    ∃ ordered, query.Orders (catalog.accepted extension query) ordered ∧
      catalog.search extension placeSorts hitSorts query =
        (query.firstOf ordered).map CandidateHit.intoOwned := by
  have horders : query.Orders (catalog.accepted extension query)
      (query.sortHits hitSorts (catalog.accepted extension query)) :=
    SearchQuery.orders_sortHits hitSorts _
  refine ⟨_, horders, ?_⟩
  unfold search
  dsimp only
  rw [filter_matchesQuery]
  have hempty : catalog.accepted extension query = [] →
      query.firstOf (query.sortHits hitSorts (catalog.accepted extension query)) = [] := by
    intro hnone
    rw [hnone] at horders ⊢
    rw [List.perm_nil.mp horders.perm, SearchQuery.firstOf]
    cases query.limit <;> simp
  split
  case isTrue hearly =>
    rcases hearly with hzero | hnone | himpossible
    · rw [SearchQuery.firstOf, hzero, Option.map_some, Option.getD_some, List.take_zero, List.map_nil]
    · rw [hempty (accepted_eq_nil_of_noCandidates hnone), List.map_nil]
    · rw [hempty (accepted_eq_nil_of_impossible himpossible), List.map_nil]
  case isFalse hcandidates =>
    refine congrArg _ ?_
    cases hlimit : query.limit with
    | none => rw [SearchQuery.firstOf, hlimit, Option.filter_none, Option.map_none, Option.getD_none]
    | some limit =>
        have hpos : 0 < limit := by
          refine Nat.pos_of_ne_zero fun hzero ↦ hcandidates (Or.inl ?_)
          rw [hlimit, hzero]
        rw [SearchQuery.firstOf, hlimit, Option.map_some, Option.getD_some, Option.filter_some]
        by_cases hless : limit < (catalog.accepted extension query).length
        · simp only [hless, decide_true, if_true]
          split
          case isTrue htext =>
            rw [SearchQuery.firstHits_eq (of_decide_eq_true htext) placeSorts hpos hless horders,
              List.take_take, Nat.min_self]
          case isFalse => rfl
        · simp only [hless, decide_false, Bool.false_eq_true, if_false]

end IndexCatalog

end WinBlaze
