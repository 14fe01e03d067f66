import Mathlib.Data.String.Basic
import WinBlaze.Scanner.ContentGroups

/-!
# The duplicate report

The sizes of the candidates, the groups of each size and the bytes that the
groups take again, over all paths that are searched.
-/

namespace WinBlaze

open OnlineClasses

/-! ## Candidates -/

section Candidates

variable {P : Type*} (files : LocalFiles P)

/-- A path of a regular file with details. -/
def FoundWith (path : P) (file : LocalFile) (details : FileDetails) : Prop :=
  files path = .ok file ∧ file.Regular ∧ file.details = .ok details

/-- A path of a multiply-linked file. -/
def LinkedTo (path : P) (identity : UInt64 × BitVec 128) : Prop :=
  ∃ file details, FoundWith files path file details ∧ 1 < details.links ∧ details.identity = identity

/-- The path is new after those in front: no path of the same multiply-linked
file is among them. -/
def NewAfter (front : List P) (details : FileDetails) : Prop :=
  details.links ≤ 1 ∨ ∀ other ∈ front, ¬LinkedTo files other details.identity

/-- The paths that are compared: of the paths of a multiply-linked file the first one. -/
def Candidate (paths : List P) (path : P) (size : UInt64) : Prop :=
  ∃ front back file details, paths = front ++ path :: back ∧ FoundWith files path file details ∧
    file.len = size ∧ NewAfter files front details

/-- A path whose file is not looked at: it cannot be found, its contents are not
local, or its details cannot be read. -/
def Refused (path : P) : Prop :=
  (∃ error, files path = .error error) ∨ ∃ file, files path = .ok file ∧
    (offlineContent file = true ∨
      (file.isFile && !file.isSymlink) = true ∧ ∃ error, file.details = .error error)

variable {files} {paths : List P} {path other : P} {size : UInt64} {file : LocalFile}
  {details : FileDetails} {table : SizeTable P}

theorem FoundWith.not_refused (h : FoundWith files path file details) : ¬Refused files path := by
  rintro (⟨error, herror⟩ | ⟨found, hfound, hrefused⟩)
  · exact nomatch herror.symm.trans h.1
  · obtain rfl := Except.ok.inj (h.1.symm.trans hfound)
    rcases hrefused with hoffline | ⟨-, error, herror⟩
    · exact absurd (h.2.1.local_content.symm.trans hoffline) (by decide)
    · exact nomatch herror.symm.trans h.2.2

theorem Candidate.not_refused (h : Candidate files paths path size) : ¬Refused files path := by
  obtain ⟨-, -, file, details, -, hfound, -⟩ := h
  exact hfound.not_refused

theorem Candidate.isCandidate (h : Candidate files paths path size) : IsCandidate files size path := by
  obtain ⟨-, -, file, details, -, ⟨hfind, hregular, -⟩, hlen, -⟩ := h
  exact ⟨file, hfind, hregular, hlen⟩

theorem FoundWith.eq {found : LocalFile} {other : FileDetails} (h : FoundWith files path file details)
    (h' : FoundWith files path found other) : file = found ∧ details = other := by
  obtain rfl := Except.ok.inj (h.1.symm.trans h'.1)
  exact ⟨rfl, Except.ok.inj (h.2.2.symm.trans h'.2.2)⟩

/-- One more path at the end of the list. -/
theorem candidate_concat_iff :
    Candidate files (paths ++ [other]) path size ↔ Candidate files paths path size ∨
      path = other ∧ ∃ file details, FoundWith files other file details ∧ file.len = size ∧
        NewAfter files paths details := by
  constructor
  · rintro ⟨front, back, file, details, heq, hfound, hlen, hnew⟩
    rcases List.eq_nil_or_concat back with rfl | ⟨before, last, rfl⟩
    · obtain ⟨rfl, hlast⟩ := List.append_inj' heq rfl
      obtain rfl : other = path := by simpa using hlast
      exact Or.inr ⟨rfl, file, details, hfound, hlen, hnew⟩
    · rw [List.concat_eq_append, ← List.cons_append, ← List.append_assoc] at heq
      exact Or.inl ⟨front, before, file, details, (List.append_inj' heq rfl).1, hfound, hlen, hnew⟩
  · rintro (⟨front, back, file, details, rfl, hfound, hlen, hnew⟩ |
      ⟨rfl, file, details, hfound, hlen, hnew⟩)
    · exact ⟨front, back ++ [other], file, details, by simp, hfound, hlen, hnew⟩
    · exact ⟨paths, [], file, details, rfl, hfound, hlen, hnew⟩

/-- The table of sizes after the paths. -/
structure Tabled (files : LocalFiles P) (paths : List P) (table : SizeTable P) : Prop where
  sizes : ∀ path size, path ∈ table.sizes.bucket size ↔ Candidate files paths path size
  identities : ∀ identity,
    identity ∈ table.identities ↔ ∃ path ∈ paths, LinkedTo files path identity
  errors : ∀ path, path ∈ table.errors.map Prod.fst ↔ path ∈ paths ∧ Refused files path

theorem tabled_nil : Tabled files [] {} where
  sizes := by
    intro path size
    constructor
    · intro h
      simp [IdMap.bucket] at h
    · rintro ⟨front, back, -, -, heq, -⟩
      simp at heq
  identities := by simp
  errors := by simp

/-- A path that is no file with details changes neither the sizes nor the identities. -/
theorem Tabled.skip (h : Tabled files paths table)
    (hskip : ∀ file details, ¬FoundWith files other file details) {errors : List (P × String)}
    (herrors : ∀ path, path ∈ errors.map Prod.fst ↔ path ∈ paths ++ [other] ∧ Refused files path) :
    Tabled files (paths ++ [other]) { table with errors := errors } where
  sizes := by
    intro path size
    rw [candidate_concat_iff, ← h.sizes path size]
    constructor
    · exact Or.inl
    · rintro (hmem | ⟨-, file, details, hfound, -⟩)
      · exact hmem
      · exact absurd hfound (hskip file details)
  identities := by
    intro identity
    rw [h.identities identity]
    constructor
    · rintro ⟨path, hpath, hlinked⟩
      exact ⟨path, List.mem_append_left _ hpath, hlinked⟩
    · rintro ⟨path, hpath, hlinked⟩
      rcases List.mem_append.mp hpath with hpath | hpath
      · exact ⟨path, hpath, hlinked⟩
      · obtain rfl := List.mem_singleton.mp hpath
        obtain ⟨file, details, hfound, -⟩ := hlinked
        exact absurd hfound (hskip file details)
  errors := herrors

theorem linkedTo_iff (hfound : FoundWith files other file details) (identity : UInt64 × BitVec 128) :
    LinkedTo files other identity ↔ 1 < details.links ∧ details.identity = identity := by
  constructor
  · rintro ⟨found, others, hother, hlinks, hidentity⟩
    obtain ⟨rfl, rfl⟩ := hfound.eq hother
    exact ⟨hlinks, hidentity⟩
  · rintro ⟨hlinks, hidentity⟩
    exact ⟨file, details, hfound, hlinks, hidentity⟩

/-- A path that is not refused is not among the errors. -/
theorem Tabled.errors_keep (h : Tabled files paths table) (hother : ¬Refused files other) (path : P) :
    path ∈ table.errors.map Prod.fst ↔ path ∈ paths ++ [other] ∧ Refused files path := by
  rw [h.errors, List.mem_append, List.mem_singleton]
  refine ⟨fun hpath ↦ ⟨Or.inl hpath.1, hpath.2⟩, ?_⟩
  rintro ⟨hpath | rfl, hrefused⟩
  · exact ⟨hpath, hrefused⟩
  · exact absurd hrefused hother

/-- A path that is refused becomes an error. -/
theorem Tabled.fail (h : Tabled files paths table) (hother : Refused files other) (error : String) :
    Tabled files (paths ++ [other]) (table.fail other error) := by
  refine h.skip (fun file details hfound ↦ hfound.not_refused hother) fun path ↦ ?_
  rw [List.map_append, List.mem_append, h.errors, List.mem_append, or_and_right]
  refine or_congr_right ?_
  rw [List.map_singleton, List.mem_singleton]
  refine ⟨?_, And.left⟩
  rintro rfl
  exact ⟨rfl, hother⟩

/-- A file with details counts when it is new. -/
theorem Tabled.addFile (h : Tabled files paths table) (hfound : FoundWith files other file details) :
    Tabled files (paths ++ [other]) (table.addFile other file.len details) := by
  have hnew : ∀ size, (∃ found others, FoundWith files other found others ∧ found.len = size ∧
      NewAfter files paths others) ↔ file.len = size ∧ NewAfter files paths details := by
    intro size
    constructor
    · rintro ⟨found, others, hother, hlen, hnewAfter⟩
      obtain ⟨rfl, rfl⟩ := hfound.eq hother
      exact ⟨hlen, hnewAfter⟩
    · rintro ⟨hlen, hnewAfter⟩
      exact ⟨file, details, hfound, hlen, hnewAfter⟩
  have hseen : details.identity ∈ table.identities ↔
      ¬∀ path ∈ paths, ¬LinkedTo files path details.identity := by
    rw [h.identities]
    push Not
    rfl
  have hpushed : NewAfter files paths details → ∀ path size,
      path ∈ (table.sizes.push file.len other).bucket size ↔
        Candidate files (paths ++ [other]) path size := by
    intro hnewAfter path size
    rw [candidate_concat_iff, hnew, ← h.sizes path size, IdMap.mem_bucket_push]
    refine or_congr_right ⟨fun hlast ↦ ⟨hlast.2, hlast.1.symm, hnewAfter⟩, fun hlast ↦ ?_⟩
    exact ⟨hlast.2.1.symm, hlast.1⟩
  have hlinked : ∀ identity, (∃ path ∈ paths ++ [other], LinkedTo files path identity) ↔
      identity ∈ table.identities ∨ 1 < details.links ∧ details.identity = identity := by
    intro identity
    simp only [List.mem_append, List.mem_singleton, or_and_right, exists_or, exists_eq_left,
      linkedTo_iff hfound, h.identities]
  unfold SizeTable.addFile
  split
  case isTrue hlinks =>
    refine ⟨hpushed (Or.inl hlinks), fun identity ↦ ?_, h.errors_keep hfound.not_refused⟩
    have hnot : ¬1 < details.links := UInt32.not_lt.mpr hlinks
    simp only [hlinked, hnot, false_and, or_false]
  case isFalse hlinks =>
    have hlinks := UInt32.not_le.mp hlinks
    split
    case isTrue hmem =>
      refine ⟨fun path size ↦ ?_, fun identity ↦ ?_, h.errors_keep hfound.not_refused⟩
      · have hold : ¬NewAfter files paths details := by
          rintro (hle | hall)
          · exact absurd hlinks (UInt32.not_lt.mpr hle)
          · exact hseen.mp hmem hall
        simp [candidate_concat_iff, hnew, hold, h.sizes path size]
      · rw [hlinked]
        refine ⟨Or.inl, fun hor ↦ hor.elim id ?_⟩
        rintro ⟨-, rfl⟩
        exact hmem
    case isFalse hmem =>
      refine ⟨hpushed (Or.inr (not_not.mp (hseen.not.mp hmem))), fun identity ↦ ?_,
        h.errors_keep hfound.not_refused⟩
      rw [hlinked, List.mem_append, List.mem_singleton]
      simp only [hlinks, true_and, eq_comm]

theorem Tabled.add (h : Tabled files paths table) (other : P) :
    Tabled files (paths ++ [other]) (table.add files other) := by
  unfold SizeTable.add
  cases hfind : files other with
  | error error => exact h.fail (Or.inl ⟨error, hfind⟩) error
  | ok found =>
      by_cases hoffline : offlineContent found = true
      · simp only [if_pos hoffline]
        exact h.fail (Or.inr ⟨found, hfind, Or.inl hoffline⟩) _
      · simp only [if_neg hoffline]
        by_cases hregular : (found.isFile && !found.isSymlink) = true
        · simp only [if_pos hregular]
          cases hdetails : found.details with
          | error error =>
              exact h.fail (Or.inr ⟨found, hfind, Or.inr ⟨hregular, error, hdetails⟩⟩) error
          | ok details =>
              obtain ⟨hfile, hsymlink⟩ := Bool.and_eq_true_iff.mp hregular
              exact h.addFile ⟨hfind, ⟨by simpa using hoffline, hfile, by simpa using hsymlink⟩,
                hdetails⟩
        · simp only [if_neg hregular]
          refine h.skip (fun file details hfound ↦ hregular ?_) (h.errors_keep ?_)
          · obtain rfl := Except.ok.inj (hfind.symm.trans hfound.1)
            rw [hfound.2.1.isFile, hfound.2.1.isSymlink]
            rfl
          · rintro (⟨error, herror⟩ | ⟨file, hfile, hrefused⟩)
            · exact nomatch herror.symm.trans hfind
            · obtain rfl := Except.ok.inj (hfind.symm.trans hfile)
              exact hrefused.elim hoffline fun hdetails ↦ hregular hdetails.1

theorem tabled_foldl (files : LocalFiles P) (paths : List P) :
    Tabled files paths (paths.foldl (SizeTable.add files) {}) := by
  induction paths using List.reverseRecOn with
  | nil => exact tabled_nil
  | append_singleton front other ih =>
      rw [List.foldl_append]
      exact ih.add other

theorem Candidate.mem (h : Candidate files paths path size) : path ∈ paths := by
  obtain ⟨front, back, -, -, rfl, -⟩ := h
  exact List.mem_append_right _ List.mem_cons_self

/-- The path is compared under its size. -/
def Searched (files : LocalFiles P) (paths : List P) (path : P) : Prop :=
  ∃ size, Candidate files paths path size

/-- One path stands for all paths of a multiply-linked file. -/
theorem existsUnique_searched {identity : UInt64 × BitVec 128}
    (h : ∃ path ∈ paths, LinkedTo files path identity) :
    ∃! path, Searched files paths path ∧ LinkedTo files path identity := by
  induction paths using List.reverseRecOn with
  | nil => simp at h
  | append_singleton front last ih =>
      by_cases hfront : ∃ path ∈ front, LinkedTo files path identity
      · obtain ⟨path, ⟨⟨size, hcandidate⟩, hlinked⟩, hunique⟩ := ih hfront
        refine ⟨path, ⟨⟨size, candidate_concat_iff.mpr (Or.inl hcandidate)⟩, hlinked⟩, ?_⟩
        rintro other ⟨⟨size', hother⟩, hlinked'⟩
        rcases candidate_concat_iff.mp hother with hother | ⟨rfl, file, details, hfound, -, hnew⟩
        · exact hunique other ⟨⟨size', hother⟩, hlinked'⟩
        · obtain ⟨hlinks, rfl⟩ := (linkedTo_iff hfound identity).mp hlinked'
          rcases hnew with hle | hall
          · exact absurd hlinks (UInt32.not_lt.mpr hle)
          · exact absurd hlinked (hall path hcandidate.mem)
      · have hlast : LinkedTo files last identity := by
          obtain ⟨path, hpath, hlinked⟩ := h
          rcases List.mem_append.mp hpath with hpath | hpath
          · exact absurd ⟨path, hpath, hlinked⟩ hfront
          · exact List.mem_singleton.mp hpath ▸ hlinked
        obtain ⟨file, details, hfound, hlinks, rfl⟩ := hlast
        have hnew : NewAfter files front details :=
          Or.inr fun other hother hlinked ↦ hfront ⟨other, hother, hlinked⟩
        refine ⟨last, ⟨⟨file.len, candidate_concat_iff.mpr
          (Or.inr ⟨rfl, file, details, hfound, rfl, hnew⟩)⟩, file, details, hfound, hlinks, rfl⟩, ?_⟩
        rintro other ⟨⟨size, hother⟩, hlinked⟩
        rcases candidate_concat_iff.mp hother with hother | ⟨rfl, -⟩
        · exact absurd ⟨other, hother.mem, hlinked⟩ hfront
        · rfl

/-! ## Sizes -/

/-- The sizes with their candidates, in the order in which they are searched. -/
def searchedSizes (files : LocalFiles P) (paths : List P) : List (UInt64 × List P) :=
  KeyOrder.sortByKey (fun candidates ↦ candidates.1.toNat)
    (paths.foldl (SizeTable.add files) {}).sizes.records

theorem mem_searchedSizes {candidates : UInt64 × List P}
    (h : candidates ∈ searchedSizes files paths) :
    candidates.2 = (paths.foldl (SizeTable.add files) {}).sizes.bucket candidates.1 := by
  have hmem := (KeyOrder.mem_sortByKey _ _ _).mp h
  have hfind := (IdMap.find?_eq_some_iff _ candidates.1 candidates.2).mpr hmem
  simp [IdMap.bucket, hfind]

theorem exists_searchedSize (h : Candidate files paths path size) :
    ∃ candidates ∈ searchedSizes files paths, candidates.1 = size := by
  have hmem := ((tabled_foldl files paths).sizes path size).mpr h
  unfold IdMap.bucket at hmem
  cases hfind : (paths.foldl (SizeTable.add files) {}).sizes.find? size with
  | none => simp [hfind] at hmem
  | some candidates =>
      refine ⟨(size, candidates), (KeyOrder.mem_sortByKey _ _ _).mpr ?_, rfl⟩
      exact (IdMap.find?_eq_some_iff _ size candidates).mp hfind

theorem nodup_searchedSizes (files : LocalFiles P) (paths : List P) :
    ((searchedSizes files paths).map Prod.fst).Nodup :=
  KeyOrder.nodup_map_sortByKey _ _ (KeyedArena.nodup_keys _)

/-- The bytes of all files of a group but one. -/
def wasted (files : LocalFiles P) (group : List P) : ℕ :=
  ((group.head?.bind (contents files)).elim 0 List.length) * (group.length - 1)

variable {algorithm : HashAlgorithm} {sorted group : List P}

/-- Bytes added group by group, each sum cut off at the largest number. -/
theorem toNat_foldl_reclaimed (groups : List (List P)) {total : ℕ} {bytes : UInt64}
    (hbytes : bytes.toNat = min total Saturating.maxValue) :
    (groups.foldl (fun bytes group ↦ Saturating.satAdd bytes (reclaimed size group)) bytes).toNat =
      min (total + (groups.map (fun group ↦ size.toNat * (group.length - 1))).sum)
        Saturating.maxValue := by
  induction groups generalizing total bytes with
  | nil => simpa using hbytes
  | cons group rest ih =>
      have hreclaimed : (reclaimed size group).toNat =
          min (size.toNat * (group.length - 1)) Saturating.maxValue := by
        refine UInt64.toNat_ofNat_of_lt' (lt_of_le_of_lt (Nat.min_le_right _ _) ?_)
        decide
      have hnext : (Saturating.satAdd bytes (reclaimed size group)).toNat =
          min (total + size.toNat * (group.length - 1)) Saturating.maxValue := by
        rw [Saturating.toNat_satAdd, hbytes, hreclaimed]
        omega
      rw [List.foldl_cons, ih hnext, List.map_cons, List.sum_cons, Nat.add_assoc]

theorem mem_reportedGroups (h : group ∈ reportedGroups files algorithm sorted) :
    group ∈ sizeGroups files sorted := by
  unfold reportedGroups at h
  split at h
  · cases h
  · exact h

/-- The bytes of a group of a size. -/
theorem wasted_of_mem (hcandidates : ∀ path ∈ sorted, IsCandidate files size path)
    (h : group ∈ sizeGroups files sorted) : wasted files group = size.toNat * (group.length - 1) := by
  obtain ⟨hlength, path, -, rfl⟩ := mem_sizeGroups_iff.mp h
  obtain ⟨first, rest, hgroup⟩ := List.exists_cons_of_length_pos (Nat.lt_of_succ_lt hlength)
  have hmem : first ∈ readable files sorted :=
    List.mem_of_mem_filter (hgroup ▸ List.mem_cons_self)
  obtain ⟨hsorted, hsome⟩ := List.mem_filter.mp hmem
  obtain ⟨bytes, hbytes⟩ := Option.isSome_iff_exists.mp hsome
  have hlen := (hcandidates first hsorted).length_contents hbytes
  rw [wasted, hgroup, List.head?_cons, Option.bind_some, hbytes, Option.elim_some, hlen]

theorem reportedGroups_of_length_lt (h : sorted.length < 2) :
    reportedGroups files algorithm sorted = [] := by
  refine List.eq_nil_iff_forall_not_mem.mpr fun group hgroup ↦ ?_
  obtain ⟨hlength, path, -, rfl⟩ := mem_sizeGroups_iff.mp (mem_reportedGroups hgroup)
  have hle := (List.length_filter_le (fun other ↦ contents files other = contents files path)
    (readable files sorted)).trans (List.length_filter_le _ sorted)
  omega

end Candidates

/-! ## The report -/

section Report

variable {P : Type*} [LinearOrder P] (files : LocalFiles P)

/-- The files of a size in path order. -/
def IsSizeClass (paths : List P) (size : UInt64) (sorted : List P) : Prop :=
  sorted.Pairwise (· < ·) ∧ ∀ path, path ∈ sorted ↔ Candidate files paths path size

/-- The candidates of a size that the search puts among the errors: a single one is
not opened. -/
def sizeErrors (algorithm : HashAlgorithm) (candidates : UInt64 × List P) : List P :=
  if candidates.2.length < 2 then []
  else failedCandidates files algorithm (sortedCandidates candidates.2)

/-- What the report says when the sizes searched so far are these. -/
structure Reported (algorithm : HashAlgorithm) (before : List P) (done : List (UInt64 × List P))
    (report : DuplicateReport P) : Prop where
  groups : report.groups =
    done.flatMap (fun candidates ↦ reportedGroups files algorithm (sortedCandidates candidates.2))
  errors : report.errors.map Prod.fst = before ++ done.flatMap (sizeErrors files algorithm)
  reclaimable : report.reclaimableBytes.toNat =
    min (report.groups.map (wasted files)).sum Saturating.maxValue
  hashesReadable : HashesReadable files report.hashes

variable {files} {digest : String → List UInt8 → String} {algorithm : HashAlgorithm}
  {paths before : List P} {path : P} {size : UInt64} {done : List (UInt64 × List P)}
  {report : DuplicateReport P}

theorem Reported.addSize (h : Reported files algorithm before done report)
    {candidates : UInt64 × List P}
    (hcandidates : ∀ path ∈ candidates.2, IsCandidate files candidates.1 path) :
    Reported files algorithm before (done ++ [candidates])
      (report.addSize files digest algorithm candidates) := by
  have hsorted : ∀ path ∈ sortedCandidates candidates.2, IsCandidate files candidates.1 path :=
    fun path hpath ↦ hcandidates path (mem_sortedCandidates.mp hpath)
  unfold DuplicateReport.addSize
  split
  case isTrue hfew =>
    have hlength := (length_sortedCandidates_le candidates.2).trans_lt hfew
    refine ⟨?_, ?_, h.reclaimable, h.hashesReadable⟩
    · simp [h.groups, reportedGroups_of_length_lt hlength]
    · simp [h.errors, sizeErrors, hfew]
  case isFalse hmany =>
    obtain ⟨hgroups, herrors, hhashes⟩ :=
      groups_foldl_add digest algorithm report.errors hsorted h.hashesReadable
    refine ⟨?_, ?_, ?_, hhashes⟩
    · simp only [hgroups, h.groups, List.flatMap_append, List.flatMap_singleton]
    · rw [herrors, h.errors, List.flatMap_append, List.flatMap_singleton, List.append_assoc,
        sizeErrors, if_neg hmany]
    · have hwasted : ∀ group ∈ reportedGroups files algorithm (sortedCandidates candidates.2),
          wasted files group = candidates.1.toNat * (group.length - 1) :=
        fun group hgroup ↦ wasted_of_mem hsorted (mem_reportedGroups hgroup)
      simp only [hgroups, toNat_foldl_reclaimed _ h.reclaimable, List.map_append, List.sum_append,
        List.map_congr_left hwasted]

theorem Reported.foldl {sizes : List (UInt64 × List P)}
    (hcandidates : ∀ candidates ∈ sizes, ∀ path ∈ candidates.2, IsCandidate files candidates.1 path)
    (hstart : Reported files algorithm before [] report) :
    Reported files algorithm before sizes
      (sizes.foldl (DuplicateReport.addSize files digest algorithm) report) := by
  induction sizes using List.reverseRecOn with
  | nil => exact hstart
  | append_singleton front candidates ih =>
      rw [List.foldl_append]
      refine (ih fun other hother ↦ hcandidates other (List.mem_append_left _ hother)).addSize ?_
      exact hcandidates candidates (List.mem_append_right _ List.mem_cons_self)

/-- The candidates of a searched size. -/
theorem isSizeClass_of_mem {candidates : UInt64 × List P}
    (h : candidates ∈ searchedSizes files paths) :
    IsSizeClass files paths candidates.1 (sortedCandidates candidates.2) := by
  refine ⟨pairwise_sortedCandidates _, fun path ↦ ?_⟩
  rw [mem_sortedCandidates, mem_searchedSizes h]
  exact (tabled_foldl files paths).sizes path candidates.1

theorem reported_findDuplicates (files : LocalFiles P) (digest : String → List UInt8 → String)
    (algorithm : HashAlgorithm) (paths : List P) :
    Reported files algorithm ((paths.foldl (SizeTable.add files) {}).errors.map Prod.fst)
      (searchedSizes files paths) (findDuplicatesWithAlgorithm files digest algorithm paths) := by
  refine Reported.foldl (fun candidates hcandidates path hpath ↦ ?_)
    ⟨rfl, (List.append_nil _).symm, rfl, fun _ _ ↦ IdMap.find?_empty _⟩
  rw [← mem_sortedCandidates] at hpath
  exact (((isSizeClass_of_mem hcandidates).2 path).mp hpath).isCandidate

/-! ## The classes of equal files -/

/-- The groups are the classes, with two paths or more, of the searched paths
that can be read and have the same contents. Each is in path order, one path
stands for all links of a file, and no file that cannot be read is in a group or
has a digest. The errors are the paths that are refused and files that cannot be
read, each of them that another file is compared with. -/
structure ReportsDuplicates (files : LocalFiles P) (paths : List P) (report : DuplicateReport P) :
    Prop where
  mem_groups : ∀ group, group ∈ report.groups ↔ group.Pairwise (· < ·) ∧ 1 < group.length ∧
    ∃ bytes, ∀ path, path ∈ group ↔ Searched files paths path ∧ contents files path = some bytes
  nodup : report.groups.Nodup
  links : ∀ identity, (∃ path ∈ paths, LinkedTo files path identity) →
    ∃! path, Searched files paths path ∧ LinkedTo files path identity
  reclaimable : report.reclaimableBytes.toNat =
    min (report.groups.map (wasted files)).sum Saturating.maxValue
  unreadable : ∀ path, contents files path = none →
    (∀ group ∈ report.groups, path ∉ group) ∧ report.hashes.find? path = none
  errors_unreadable : ∀ path ∈ report.errors.map Prod.fst,
    path ∈ paths ∧ (Refused files path ∨ contents files path = none)
  unreadable_errors : ∀ path other size, Candidate files paths path size →
    Candidate files paths other size → path ≠ other → contents files path = none →
      path ∈ report.errors.map Prod.fst
  refused_errors : ∀ path ∈ paths, Refused files path → path ∈ report.errors.map Prod.fst

/-- Of the files of a size, when there are several, the first one in path order can
be read. -/
def LeastReadable (files : LocalFiles P) (paths : List P) : Prop :=
  ∀ first other size, Candidate files paths first size → Candidate files paths other size →
    first ≠ other → (∀ third, Candidate files paths third size → first ≤ third) →
      (contents files first).isSome

/-- Wherever two files of a size have the same contents, the first file of the
size, in path order, can be read. -/
def FirstsReadable (files : LocalFiles P) (paths : List P) : Prop :=
  ∀ path other size, Candidate files paths path size → Candidate files paths other size →
    path ≠ other → (contents files path).isSome → contents files path = contents files other →
      ∃ first, Candidate files paths first size ∧
        (∀ third, Candidate files paths third size → first ≤ third) ∧ (contents files first).isSome

/-- The groups of all sizes when no search is blocked. -/
def allGroups (files : LocalFiles P) (paths : List P) : List (List P) :=
  (searchedSizes files paths).flatMap (fun candidates ↦ sizeGroups files (sortedCandidates candidates.2))

variable {other : P} {group : List P} {candidates : UInt64 × List P}

omit [LinearOrder P] in
theorem Candidate.size_unique {size' : UInt64} (h : Candidate files paths path size)
    (h' : Candidate files paths path size') : size = size' := by
  obtain ⟨file, hfind, -, rfl⟩ := h.isCandidate
  obtain ⟨found, hfound, -, rfl⟩ := h'.isCandidate
  obtain rfl := Except.ok.inj (hfind.symm.trans hfound)
  rfl

/-- A class of a searched size. -/
theorem mem_class_iff (h : candidates ∈ searchedSizes files paths) {bytes : List UInt8}
    (hpath : Candidate files paths path candidates.1) (hbytes : contents files path = some bytes)
    (other : P) :
    other ∈ (readable files (sortedCandidates candidates.2)).filter
        (fun third ↦ contents files third = contents files path) ↔
      Searched files paths other ∧ contents files other = some bytes := by
  simp only [readable, List.mem_filter, (isSizeClass_of_mem h).2, hbytes, decide_eq_true_eq]
  constructor
  · rintro ⟨⟨hcandidate, -⟩, hsame⟩
    exact ⟨⟨_, hcandidate⟩, hsame⟩
  · rintro ⟨⟨size, hcandidate⟩, hsame⟩
    have hlen := (hcandidate.isCandidate.length_contents hsame).symm.trans
      (hpath.isCandidate.length_contents hbytes)
    obtain rfl := UInt64.toNat_inj.mp hlen
    exact ⟨⟨hcandidate, by simp [hsame]⟩, hsame⟩

theorem pairwise_class (h : candidates ∈ searchedSizes files paths) (path : P) :
    ((readable files (sortedCandidates candidates.2)).filter
      (fun third ↦ contents files third = contents files path)).Pairwise (· < ·) :=
  (((isSizeClass_of_mem h).1.filter _).filter _)

theorem mem_allGroups_iff :
    group ∈ allGroups files paths ↔ group.Pairwise (· < ·) ∧ 1 < group.length ∧
      ∃ bytes, ∀ path, path ∈ group ↔
        Searched files paths path ∧ contents files path = some bytes := by
  simp only [allGroups, List.mem_flatMap, mem_sizeGroups_iff]
  constructor
  · rintro ⟨candidates, hmem, hlength, path, hpath, rfl⟩
    obtain ⟨hsorted, hsome⟩ := List.mem_filter.mp hpath
    obtain ⟨bytes, hbytes⟩ := Option.isSome_iff_exists.mp hsome
    have hcandidate := ((isSizeClass_of_mem hmem).2 path).mp hsorted
    exact ⟨pairwise_class hmem path, hlength, bytes, mem_class_iff hmem hcandidate hbytes⟩
  · rintro ⟨hsorted, hlength, bytes, hgroup⟩
    obtain ⟨path, rest, rfl⟩ := List.exists_cons_of_length_pos (Nat.lt_of_succ_lt hlength)
    obtain ⟨⟨size, hcandidate⟩, hbytes⟩ := (hgroup path).mp List.mem_cons_self
    obtain ⟨candidates, hmem, rfl⟩ := exists_searchedSize hcandidate
    refine ⟨candidates, hmem, hlength, path, ?_, ?_⟩
    · exact List.mem_filter.mpr
        ⟨((isSizeClass_of_mem hmem).2 path).mpr hcandidate, by simp [hbytes]⟩
    · refine hsorted.eq_of_mem_iff (pairwise_class hmem path) fun other ↦ ?_
      rw [hgroup, mem_class_iff hmem hcandidate hbytes]

theorem nodup_allGroups (files : LocalFiles P) (paths : List P) : (allGroups files paths).Nodup := by
  refine List.nodup_flatMap.mpr ⟨fun candidates _ ↦ nodup_sizeGroups _, ?_⟩
  have hsizes := List.pairwise_map.mp (nodup_searchedSizes files paths)
  refine hsizes.imp_of_mem fun {a b} ha hb hne group hgroup hgroup' ↦ hne ?_
  obtain ⟨hlength, path, -, rfl⟩ := mem_sizeGroups_iff.mp hgroup
  obtain ⟨-, other, -, heq⟩ := mem_sizeGroups_iff.mp hgroup'
  obtain ⟨first, rest, hfirst⟩ := List.exists_cons_of_length_pos (Nat.lt_of_succ_lt hlength)
  have hleft : first ∈ sortedCandidates a.2 :=
    List.mem_of_mem_filter (List.mem_of_mem_filter (hfirst ▸ List.mem_cons_self))
  have hright : first ∈ sortedCandidates b.2 :=
    List.mem_of_mem_filter (List.mem_of_mem_filter (heq ▸ hfirst ▸ List.mem_cons_self))
  exact (((isSizeClass_of_mem ha).2 first).mp hleft).size_unique
    (((isSizeClass_of_mem hb).2 first).mp hright)

/-! ## The groups -/

omit [LinearOrder P] in
theorem exists_mem_ne (h : group.Nodup) (hlength : 1 < group.length) (path : P) :
    ∃ other ∈ group, other ≠ path := by
  match group, h, hlength with
  | first :: second :: rest, h, _ =>
      by_cases hfirst : first = path
      · refine ⟨second, by simp, fun hsecond ↦ ?_⟩
        simp [hfirst, hsecond] at h
      · exact ⟨first, List.mem_cons_self, hfirst⟩

omit [LinearOrder P] in
theorem one_lt_length (hpath : path ∈ group) (hother : other ∈ group) (hne : path ≠ other) :
    1 < group.length := by
  match group, hpath, hother with
  | [first], hpath, hother =>
      exact absurd ((List.mem_singleton.mp hpath).trans (List.mem_singleton.mp hother).symm) hne
  | first :: second :: rest, _, _ => simp

variable (files digest algorithm paths)

/-- A blocked size has no two files with the same contents. -/
theorem groups_eq_allGroups (h : algorithm ≠ .none ∨ FirstsReadable files paths) :
    (findDuplicatesWithAlgorithm files digest algorithm paths).groups = allGroups files paths := by
  rw [(reported_findDuplicates files digest algorithm paths).groups]
  refine List.flatMap_congr fun candidates hmem ↦ ?_
  unfold reportedGroups
  split
  case isFalse => rfl
  case isTrue hblocked =>
    refine (List.eq_nil_iff_forall_not_mem.mpr fun group hgroup ↦ ?_).symm
    obtain ⟨hlength, path, hpath, rfl⟩ := mem_sizeGroups_iff.mp hgroup
    have hclass := isSizeClass_of_mem hmem
    obtain ⟨hsorted, hsome⟩ := List.mem_filter.mp hpath
    obtain ⟨bytes, hbytes⟩ := Option.isSome_iff_exists.mp hsome
    have hcandidate := (hclass.2 path).mp hsorted
    obtain ⟨other, hother, hne⟩ := exists_mem_ne (pairwise_class hmem path).nodup hlength path
    obtain ⟨⟨size, hother⟩, hsame⟩ := (mem_class_iff hmem hcandidate hbytes other).mp hother
    have hlen := (hother.isCandidate.length_contents hsame).symm.trans
      (hcandidate.isCandidate.length_contents hbytes)
    obtain rfl := UInt64.toNat_inj.mp hlen
    obtain ⟨first, hfirst, hleast, hreadable⟩ := h.resolve_left (not_not.mpr hblocked.1) path other _
      hcandidate hother hne.symm hsome (hbytes.trans hsame.symm)
    -- the least candidate is at the head
    obtain ⟨head, hhead, hnone⟩ := Option.map_eq_some_iff.mp hblocked.2
    obtain ⟨rest, heq⟩ := List.head?_eq_some_iff.mp hhead
    have hsame : head = first := by
      have hle : first ≤ head := hleast head ((hclass.2 head).mp (heq ▸ List.mem_cons_self))
      have hin := (hclass.2 first).mpr hfirst
      have horder := hclass.1
      rw [heq] at hin horder
      rcases List.mem_cons.mp hin with hin | hin
      · exact hin.symm
      · exact absurd ((List.pairwise_cons.mp horder).1 first hin) (not_lt.mpr hle)
    rw [← hsame, hnone] at hreadable
    cases hreadable

/-- Otherwise two files with the same contents are missing from the report. -/
theorem exists_missing_group (h : ¬FirstsReadable files paths) :
    ∃ group ∈ allGroups files paths,
      group ∉ (findDuplicatesWithAlgorithm files digest .none paths).groups := by
  unfold FirstsReadable at h
  push Not at h
  obtain ⟨path, other, size, hpath, hother, hne, hsome, hsame, hfirst⟩ := h
  obtain ⟨bytes, hbytes⟩ := Option.isSome_iff_exists.mp hsome
  obtain ⟨candidates, hmem, rfl⟩ := exists_searchedSize hpath
  have hclass := mem_class_iff hmem hpath hbytes
  have hin := (hclass path).mpr ⟨⟨_, hpath⟩, hbytes⟩
  have hin' := (hclass other).mpr ⟨⟨_, hother⟩, hsame.symm.trans hbytes⟩
  refine ⟨_, mem_allGroups_iff.mpr ⟨pairwise_class hmem path, ?_, bytes, hclass⟩, fun hreported ↦ ?_⟩
  · exact one_lt_length hin hin' hne
  · rw [(reported_findDuplicates files digest .none paths).groups] at hreported
    obtain ⟨found, hfound, hgroup⟩ := List.mem_flatMap.mp hreported
    have hgroup' := mem_reportedGroups hgroup
    obtain ⟨-, third, -, heq⟩ := mem_sizeGroups_iff.mp hgroup'
    rw [heq] at hin
    have hsorted : path ∈ sortedCandidates found.2 :=
      List.mem_of_mem_filter (List.mem_of_mem_filter hin)
    have hcandidates := isSizeClass_of_mem hfound
    have hsize := ((hcandidates.2 path).mp hsorted).size_unique hpath
    obtain ⟨head, rest, hhead⟩ := List.exists_cons_of_ne_nil (List.ne_nil_of_mem hsorted)
    have hopen : (contents files head).isSome := by
      by_contra hnone
      have hblocked : Blocked files .none (sortedCandidates found.2) := by
        refine ⟨rfl, ?_⟩
        simpa [hhead] using hnone
      simp [reportedGroups, hblocked] at hgroup
    refine hfirst head ?_ (fun third hthird ↦ ?_) hopen
    · exact hsize ▸ (hcandidates.2 head).mp (hhead ▸ List.mem_cons_self)
    · have hin := (hcandidates.2 third).mpr (hsize ▸ hthird)
      have horder := hcandidates.1
      rw [hhead] at hin horder
      rcases List.mem_cons.mp hin with rfl | hin
      · exact le_rfl
      · exact ((List.pairwise_cons.mp horder).1 third hin).le

variable {files digest algorithm paths}

/-! ## The errors -/

/-- The files of a size have a first one in path order. -/
theorem IsSizeClass.head_le {first : P} {rest : List P}
    (h : IsSizeClass files paths size (first :: rest)) :
    Candidate files paths first size ∧ ∀ other, Candidate files paths other size → first ≤ other := by
  refine ⟨(h.2 first).mp List.mem_cons_self, fun other hother ↦ ?_⟩
  rcases List.mem_cons.mp ((h.2 other).mpr hother) with rfl | hrest
  · exact le_rfl
  · exact ((List.pairwise_cons.mp h.1).1 other hrest).le

theorem IsSizeClass.exists_head {sorted : List P} (h : IsSizeClass files paths size sorted)
    (hpath : Candidate files paths path size) : ∃ first rest, sorted = first :: rest :=
  List.exists_cons_of_ne_nil (List.ne_nil_of_mem ((h.2 path).mpr hpath))

theorem LeastReadable.firstsReadable (h : LeastReadable files paths) : FirstsReadable files paths := by
  intro path other size hpath hother hne _ _
  obtain ⟨candidates, hmem, rfl⟩ := exists_searchedSize hpath
  have hclass := isSizeClass_of_mem hmem
  obtain ⟨first, rest, hsorted⟩ := hclass.exists_head hpath
  rw [hsorted] at hclass
  obtain ⟨hfirst, hleast⟩ := hclass.head_le
  refine ⟨first, hfirst, hleast, ?_⟩
  by_cases heq : first = path
  · exact h first other _ hfirst hother (heq ▸ hne) hleast
  · exact h first path _ hfirst hpath heq hleast

/-- A size with two files is searched. -/
theorem not_blocked_of_mem (h : algorithm ≠ .none ∨ LeastReadable files paths)
    (hmem : candidates ∈ searchedSizes files paths)
    (hlength : 1 < (sortedCandidates candidates.2).length) :
    ¬Blocked files algorithm (sortedCandidates candidates.2) := by
  rintro ⟨halgorithm, hhead⟩
  have hclass := isSizeClass_of_mem hmem
  obtain ⟨first, rest, hsorted⟩ :=
    List.exists_cons_of_length_pos (Nat.lt_of_succ_lt hlength)
  obtain ⟨other, hother, hne⟩ := exists_mem_ne hclass.1.nodup hlength first
  have hother := (hclass.2 other).mp hother
  rw [hsorted] at hclass hhead
  obtain ⟨hfirst, hleast⟩ := hclass.head_le
  have hsome := h.resolve_left (not_not.mpr halgorithm) first other _ hfirst hother hne.symm hleast
  rw [Option.some.inj hhead] at hsome
  cases hsome

theorem mem_of_mem_sizeErrors (h : path ∈ sizeErrors files algorithm candidates) :
    path ∈ sortedCandidates candidates.2 := by
  unfold sizeErrors failedCandidates at h
  split_ifs at h
  · cases h
  · exact List.mem_of_mem_tail h
  · exact List.mem_of_mem_filter h

/-- The errors of a size are the files that cannot be read. -/
theorem contents_of_mem_sizeErrors (h : algorithm ≠ .none ∨ LeastReadable files paths)
    (hmem : candidates ∈ searchedSizes files paths)
    (hpath : path ∈ sizeErrors files algorithm candidates) : contents files path = none := by
  unfold sizeErrors failedCandidates at hpath
  split_ifs at hpath with hfew hblocked
  · cases hpath
  · have hlength : ¬1 < (sortedCandidates candidates.2).length :=
      fun hlength ↦ not_blocked_of_mem h hmem hlength hblocked
    have htail := List.length_pos_of_mem hpath
    rw [List.length_tail] at htail
    omega
  · simpa using (List.mem_filter.mp hpath).2

theorem mem_sizeErrors (h : algorithm ≠ .none ∨ LeastReadable files paths)
    (hmem : candidates ∈ searchedSizes files paths) (hpath : Candidate files paths path candidates.1)
    (hother : Candidate files paths other candidates.1) (hne : path ≠ other)
    (hnone : contents files path = none) : path ∈ sizeErrors files algorithm candidates := by
  have hclass := isSizeClass_of_mem hmem
  have hin := (hclass.2 path).mpr hpath
  have hlength := one_lt_length hin ((hclass.2 other).mpr hother) hne
  have hmany : ¬candidates.2.length < 2 :=
    Nat.not_lt.mpr (hlength.trans_le (length_sortedCandidates_le candidates.2))
  rw [sizeErrors, if_neg hmany, failedCandidates, if_neg (not_blocked_of_mem h hmem hlength)]
  exact List.mem_filter.mpr ⟨hin, by simp [hnone]⟩

/-- A blocked search does not name the file that it cannot read. -/
theorem first_not_mem_sizeErrors {first : P} (hmem : candidates ∈ searchedSizes files paths)
    (hfirst : Candidate files paths first candidates.1)
    (hleast : ∀ other, Candidate files paths other candidates.1 → first ≤ other)
    (hnone : contents files first = none) : first ∉ sizeErrors files .none candidates := by
  intro herror
  have hclass := isSizeClass_of_mem hmem
  obtain ⟨head, rest, hsorted⟩ := hclass.exists_head hfirst
  rw [hsorted] at hclass
  obtain rfl : head = first := le_antisymm (hclass.head_le.2 first hfirst) (hleast head hclass.head_le.1)
  have hblocked : Blocked files .none (sortedCandidates candidates.2) :=
    ⟨rfl, by rw [hsorted, List.head?_cons, Option.map_some, hnone]⟩
  unfold sizeErrors failedCandidates at herror
  rw [if_pos hblocked, hsorted] at herror
  split_ifs at herror
  · cases herror
  · exact lt_irrefl head ((List.pairwise_cons.mp hclass.1).1 head herror)

/-- Every error is a path that is refused, or one of a size. -/
theorem mem_errors_iff (path : P) :
    path ∈ (findDuplicatesWithAlgorithm files digest algorithm paths).errors.map Prod.fst ↔
      (path ∈ paths ∧ Refused files path) ∨
        ∃ candidates ∈ searchedSizes files paths, path ∈ sizeErrors files algorithm candidates := by
  rw [(reported_findDuplicates files digest algorithm paths).errors, List.mem_append,
    (tabled_foldl files paths).errors, List.mem_flatMap]

/-! ## When the report is right -/

theorem reportsDuplicates_of (h : algorithm ≠ .none ∨ LeastReadable files paths) :
    ReportsDuplicates files paths (findDuplicatesWithAlgorithm files digest algorithm paths) := by
  have hreported := reported_findDuplicates files digest algorithm paths
  have hgroups := groups_eq_allGroups files digest algorithm paths (h.imp_right (·.firstsReadable))
  refine ⟨fun group ↦ hgroups ▸ mem_allGroups_iff, hgroups ▸ nodup_allGroups files paths,
    fun identity ↦ existsUnique_searched, hreported.reclaimable, fun path hpath ↦ ?_,
    fun path hpath ↦ ?_, fun path other size hpath hother hne hnone ↦ ?_, fun path hpath hrefused ↦ ?_⟩
  · refine ⟨fun group hgroup hmem ↦ ?_, hreported.hashesReadable path hpath⟩
    obtain ⟨-, -, bytes, hbytes⟩ := mem_allGroups_iff.mp (hgroups ▸ hgroup)
    rw [((hbytes path).mp hmem).2] at hpath
    cases hpath
  · rcases (mem_errors_iff path).mp hpath with ⟨hin, hrefused⟩ | ⟨candidates, hmem, herror⟩
    · exact ⟨hin, Or.inl hrefused⟩
    · have hcandidate := ((isSizeClass_of_mem hmem).2 path).mp (mem_of_mem_sizeErrors herror)
      exact ⟨hcandidate.mem, Or.inr (contents_of_mem_sizeErrors h hmem herror)⟩
  · obtain ⟨candidates, hmem, rfl⟩ := exists_searchedSize hpath
    exact (mem_errors_iff path).mpr (Or.inr ⟨candidates, hmem, mem_sizeErrors h hmem hpath hother hne hnone⟩)
  · exact (mem_errors_iff path).mpr (Or.inl ⟨hpath, hrefused⟩)

/-- A size with a first file that cannot be read has an error missing. -/
theorem ReportsDuplicates.leastReadable
    (h : ReportsDuplicates files paths (findDuplicatesWithAlgorithm files digest .none paths)) :
    LeastReadable files paths := by
  intro first other size hfirst hother hne hleast
  by_contra hnot
  have hnone : contents files first = none := by simpa using hnot
  rcases (mem_errors_iff first).mp (h.unreadable_errors first other size hfirst hother hne hnone) with
    ⟨-, hrefused⟩ | ⟨candidates, hmem, herror⟩
  · exact hfirst.not_refused hrefused
  · have hcandidate := ((isSizeClass_of_mem hmem).2 first).mp (mem_of_mem_sizeErrors herror)
    obtain rfl := hcandidate.size_unique hfirst
    exact first_not_mem_sizeErrors hmem hfirst hleast hnone herror

end Report

/-! ## A locked file -/

def sampleFile (opened : Except String Unit) (file : BitVec 128) : LocalFile where
  attributes := 0x80
  isFile := true
  isSymlink := false
  len := 1
  bytes := [65]
  length_bytes := rfl
  details := .ok { allocationBytes := 4096, identity := (7, file), links := 1 }
  opened := opened

/-- Three files with the same byte, the first of which another process keeps locked. -/
def lockedFirst : LocalFiles String
  | "a" => .ok (sampleFile (.error "used by another process") 1)
  | "b" => .ok (sampleFile (.ok ()) 2)
  | "c" => .ok (sampleFile (.ok ()) 3)
  | _ => .error "not found"

end WinBlaze
