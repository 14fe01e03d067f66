import Mathlib.Tactic.Tauto
import WinBlaze.Scanner.Content

/-!
# Groups of one size

The groups found among the candidates of one size are the classes of the
readable ones with the same contents. One order of things is different: without
a digest a first candidate that cannot be read becomes a group, and every later
candidate fails with it.
-/

namespace WinBlaze

open OnlineClasses

section Reading

variable {P : Type*} (files : LocalFiles P)

/-- The contents of a file that can be opened. -/
def contents (path : P) : Option (List UInt8) :=
  (openLocalFile files path).toOption.map LocalFile.bytes

/-- A local file, not a link, that may be read without a download. -/
structure LocalFile.Regular (file : LocalFile) : Prop where
  local_content : offlineContent file = false
  isFile : file.isFile = true
  isSymlink : file.isSymlink = false

/-- The candidates of a size. -/
def IsCandidate (size : UInt64) (path : P) : Prop :=
  ∃ file, files path = .ok file ∧ file.Regular ∧ file.len = size

/-- The readable ones of a list. -/
def readable (paths : List P) : List P := paths.filter (fun path ↦ (contents files path).isSome)

variable {files} {size : UInt64} {path left right : P} {paths : List P} {bytes : List UInt8}

theorem openLocalFile_eq_ok {file : LocalFile} (h : openLocalFile files path = .ok file) :
    files path = .ok file ∧ file.rejected = false := by
  unfold openLocalFile at h
  cases hfind : files path with
  | error error => simp [hfind, bind, Except.bind] at h
  | ok found =>
      cases hrejected : found.rejected with
      | true => simp [hfind, hrejected, bind, Except.bind, throw, throwThe, MonadExceptOf.throw] at h
      | false =>
          cases hopened : found.opened with
          | error error =>
              simp [hfind, hrejected, hopened, bind, Except.bind] at h
          | ok =>
              simp only [hfind, hrejected, hopened, bind, Except.bind, pure, Except.pure,
                Bool.false_eq_true, if_false, Except.ok.injEq] at h
              exact ⟨congrArg Except.ok h, h ▸ hrejected⟩

theorem exists_of_contents (h : contents files path = some bytes) :
    ∃ file, openLocalFile files path = .ok file ∧ files path = .ok file ∧
      file.rejected = false ∧ file.bytes = bytes := by
  unfold contents at h
  cases hopen : openLocalFile files path with
  | error error => simp [hopen, Except.toOption] at h
  | ok file =>
      obtain ⟨hfind, hrejected⟩ := openLocalFile_eq_ok hopen
      exact ⟨file, rfl, hfind, hrejected, by simpa [hopen, Except.toOption] using h⟩

theorem exists_of_contents_eq_none (h : contents files path = none) :
    ∃ error, openLocalFile files path = .error error := by
  unfold contents at h
  cases hopen : openLocalFile files path with
  | error error => exact ⟨error, rfl⟩
  | ok file => simp [hopen, Except.toOption] at h

theorem IsCandidate.length_contents (h : IsCandidate files size path)
    (hbytes : contents files path = some bytes) : bytes.length = size.toNat := by
  obtain ⟨file, hfind, -, rfl⟩ := h
  obtain ⟨found, -, hfound, -, rfl⟩ := exists_of_contents hbytes
  obtain rfl := Except.ok.inj (hfind.symm.trans hfound)
  exact file.length_bytes

theorem compareBlocks_eq {capacity remaining : ℕ} {a b : List UInt8} (ha : a.length = remaining)
    (hb : b.length = remaining) (hcapacity : 0 < remaining → 0 < capacity) :
    compareBlocks capacity a b remaining = .ok (decide (a = b)) := by
  induction remaining using Nat.strong_induction_on generalizing a b with
  | _ remaining ih =>
      unfold compareBlocks
      by_cases hsize : min remaining capacity = 0
      · have hzero : remaining = 0 := by omega
        obtain rfl := List.length_eq_zero_iff.mp (ha.trans hzero)
        obtain rfl := List.length_eq_zero_iff.mp (hb.trans hzero)
        simp [hsize, pure, Except.pure]
      · have hlta : ¬a.length < min remaining capacity := by omega
        have hltb : ¬b.length < min remaining capacity := by omega
        rw [dif_neg hsize]
        simp only [readExact, if_neg hlta, if_neg hltb, pure, Except.pure, bind, Except.bind]
        by_cases htake : a.take (min remaining capacity) = b.take (min remaining capacity)
        · have hsame : a.drop (min remaining capacity) = b.drop (min remaining capacity) ↔ a = b := by
            refine ⟨fun hdrop ↦ ?_, fun heq ↦ heq ▸ rfl⟩
            rw [← List.take_append_drop (min remaining capacity) a, htake, hdrop,
              List.take_append_drop]
          rw [if_neg (not_not.mpr htake), ih _ (by omega) (by simp [ha]) (by simp [hb]) (by omega)]
          simp only [hsame]
        · have hne : a ≠ b := fun heq ↦ htake (heq ▸ rfl)
          simp [htake, hne]

theorem equalContents_eq {a b : List UInt8} (hleft : IsCandidate files size left)
    (hright : IsCandidate files size right) (ha : contents files left = some a)
    (hb : contents files right = some b) :
    equalContents files left right size = .ok (decide (a = b)) := by
  have hlena := hleft.length_contents ha
  have hlenb := hright.length_contents hb
  obtain ⟨file, hopen, hfind, -, rfl⟩ := exists_of_contents ha
  obtain ⟨other, hopen', hfind', -, rfl⟩ := exists_of_contents hb
  have hlen : ¬(file.len ≠ size ∨ other.len ≠ size) := by
    rw [file.length_bytes] at hlena
    rw [other.length_bytes] at hlenb
    simp [UInt64.toNat_inj.mp hlena, UInt64.toNat_inj.mp hlenb]
  unfold equalContents
  simp only [hopen, hopen', bind, Except.bind, if_neg hlen]
  exact compareBlocks_eq hlena hlenb (by omega)

theorem equalContents_error (size : UInt64) (h : contents files left = none ∨ contents files right = none) :
    ∃ error, equalContents files left right size = .error error := by
  unfold equalContents
  cases hleft : openLocalFile files left with
  | error error => exact ⟨error, rfl⟩
  | ok file =>
      have hright : contents files right = none := by
        refine h.resolve_left ?_
        simp [contents, hleft, Except.toOption]
      obtain ⟨error, hopen⟩ := exists_of_contents_eq_none hright
      exact ⟨error, by simp [hopen, bind, Except.bind]⟩

theorem readable_concat_of_some (h : contents files path = some bytes) :
    readable files (paths ++ [path]) = readable files paths ++ [path] := by
  simp [readable, h]

theorem readable_concat_of_none (h : contents files path = none) :
    readable files (paths ++ [path]) = readable files paths := by
  simp [readable, h]

/-- The classes with two files or more. -/
def sizeGroups (files : LocalFiles P) (sorted : List P) : List (List P) :=
  ((classes (contents files) (readable files sorted)).map NonemptyList.toList).filter
    (fun group ↦ 1 < group.length)

/-- A group of a size: readable files with the same contents. -/
theorem mem_sizeGroups_iff {sorted group : List P} :
    group ∈ sizeGroups files sorted ↔
      1 < group.length ∧ ∃ path ∈ readable files sorted,
        group = (readable files sorted).filter (fun other ↦ contents files other = contents files path) := by
  have hclasses := isClasses_classes (contents files) (readable files sorted)
  simp only [sizeGroups, List.mem_filter, List.mem_map, decide_eq_true_eq, and_comm]
  refine and_congr_right fun _ ↦ ?_
  constructor
  · rintro ⟨g, hg, rfl⟩
    exact ⟨g.first, hclasses.first_mem hg, hclasses.members g hg⟩
  · rintro ⟨path, hpath, rfl⟩
    obtain ⟨g, hg, hkey⟩ := hclasses.covers path hpath
    exact ⟨g, hg, by rw [hclasses.members g hg, hkey]⟩

theorem nodup_sizeGroups (sorted : List P) : (sizeGroups files sorted).Nodup := by
  have hclasses := isClasses_classes (contents files) (readable files sorted)
  refine List.Nodup.filter _ ((List.nodup_map_iff_inj_on ?_).mpr fun g hg h hh heq ↦ ?_)
  · exact hclasses.apart.imp fun hne heq ↦ hne (congrArg _ (congrArg NonemptyList.first heq))
  · cases g
    cases h
    simpa [NonemptyList.toList] using heq

variable (digest : String → List UInt8 → String) (provider : String)

theorem fileDigest_eq (h : IsCandidate files size path) (hbytes : contents files path = some bytes) :
    fileDigest files digest path provider = .ok (digest provider bytes) := by
  obtain ⟨file, hfind, hregular, -⟩ := h
  obtain ⟨found, hopen, hfound, -, rfl⟩ := exists_of_contents hbytes
  obtain rfl := Except.ok.inj (hfind.symm.trans hfound)
  simp [fileDigest, hfind, hopen, hregular.isFile, hregular.isSymlink, hregular.local_content, bind,
    Except.bind, pure, Except.pure]

theorem fileDigest_error (h : contents files path = none) :
    ∃ error, fileDigest files digest path provider = .error error := by
  obtain ⟨error, hopen⟩ := exists_of_contents_eq_none h
  unfold fileDigest
  cases files path with
  | error error => exact ⟨error, rfl⟩
  | ok found =>
      by_cases hregular : (!found.isFile || found.isSymlink || offlineContent found) = true
      · exact ⟨_, by simp only [bind, Except.bind, if_pos hregular]; rfl⟩
      · exact ⟨error, by simp only [bind, Except.bind, if_neg hregular, hopen]⟩

end Reading

section Grouping

variable {P : Type*} [LinearOrder P] (files : LocalFiles P) (digest : String → List UInt8 → String)
  (algorithm : HashAlgorithm)

/-- When digests are asked for, that of a file that can be read is known. -/
def Hashed (hashes : IdMap P String) (path : P) : Prop :=
  ∀ provider, algorithm.provider = some provider → ∀ bytes, contents files path = some bytes →
    hashes.find? path = some (digest provider bytes)

/-- Only files that can be read have digests. -/
def HashesReadable (hashes : IdMap P String) : Prop :=
  ∀ path, contents files path = none → hashes.find? path = none

variable {files digest algorithm} {size : UInt64} {path : P} {hashes : IdMap P String}
  {groups : List (NonemptyList P)}

theorem exists_provider (h : algorithm ≠ .none) :
    ∃ provider, algorithm.provider = some provider := by
  cases algorithm with
  | none => exact absurd rfl h
  | sha256 => exact ⟨_, rfl⟩
  | md5 => exact ⟨_, rfl⟩
  | sha1 => exact ⟨_, rfl⟩
  | sha512 => exact ⟨_, rfl⟩

/-- Among groups of readable files the loop finds the class of a readable one. -/
theorem findDestination_eq {bytes : List UInt8} (hpath : IsCandidate files size path)
    (hbytes : contents files path = some bytes) (hhash : Hashed files digest algorithm hashes path)
    (hgroups : ∀ g ∈ groups, IsCandidate files size g.first ∧
      (contents files g.first).isSome ∧ Hashed files digest algorithm hashes g.first)
    (index : ℕ) :
    findDestination files algorithm hashes size path groups index =
      .ok ((search (contents files) groups path).map (· + index)) := by
  induction groups generalizing index with
  | nil => rfl
  | cons g rest ih =>
      obtain ⟨hcandidate, hreadable, hhashed⟩ := hgroups g List.mem_cons_self
      obtain ⟨first, hfirst⟩ := Option.isSome_iff_exists.mp hreadable
      have hrest := fun index ↦ ih (fun other hother ↦ hgroups other (List.mem_cons_of_mem _ hother)) index
      have hskip : ∀ index, (search (contents files) rest path).map (· + (index + 1)) =
          ((search (contents files) rest path).map (· + 1)).map (· + index) := by
        intro index
        rw [Option.map_map]
        congr 1
        funext place
        simp only [Function.comp_apply]
        omega
      have hkey : contents files g.first = contents files path ↔ first = bytes := by
        rw [hfirst, hbytes, Option.some.injEq]
      rw [search_cons, findDestination]
      split
      case isTrue hdiffer =>
        obtain ⟨provider, hprovider⟩ := exists_provider hdiffer.1
        have hne : first ≠ bytes := by
          rintro rfl
          exact hdiffer.2 ((hhashed provider hprovider first hfirst).trans
            (hhash provider hprovider first hbytes).symm)
        rw [hrest, if_neg (hkey.not.mpr hne), hskip]
      case isFalse =>
        rw [equalContents_eq hcandidate hpath hfirst hbytes]
        by_cases heq : first = bytes
        · simp [heq, hkey, pure, Except.pure]
        · rw [if_neg (hkey.not.mpr heq), ← hskip]
          simp only [heq, decide_false, hrest]

/-- Without a digest a file that cannot be read stops the loop. -/
theorem findDestination_error (hashes : IdMap P String) (size : UInt64) {path : P}
    {g : NonemptyList P} (rest : List (NonemptyList P)) (index : ℕ)
    (h : contents files g.first = none ∨ contents files path = none) :
    ∃ error, findDestination files .none hashes size path (g :: rest) index = .error error := by
  obtain ⟨error, herror⟩ := equalContents_error size h
  exact ⟨error, by simp [findDestination, herror, throw, throwThe, MonadExceptOf.throw]⟩

/-! ## One candidate after the other -/

variable (files digest algorithm)

/-- The groups of a table are the classes of the readable candidates so far, and
the other candidates are among its errors, behind those of the sizes before. -/
structure Grouped (before done : List P) (table : GroupTable P) : Prop where
  groups : table.groups = classes (contents files) (readable files done)
  errors : table.errors.map Prod.fst =
    before ++ done.filter (fun path ↦ (contents files path).isNone)
  hashed : ∀ path ∈ done, Hashed files digest algorithm table.hashes path
  hashesReadable : HashesReadable files table.hashes

variable {files digest algorithm} {before done : List P} {table : GroupTable P}

theorem Grouped.first_mem (h : Grouped files digest algorithm before done table) {g : NonemptyList P}
    (hg : g ∈ table.groups) : g.first ∈ readable files done :=
  (isClasses_classes _ _).first_mem (h.groups ▸ hg)

/-- The hashes after a readable candidate. -/
theorem hashCandidate_eq {bytes : List UInt8} (hpath : IsCandidate files size path)
    (hbytes : contents files path = some bytes)
    (hhashed : ∀ other ∈ done, Hashed files digest algorithm hashes other)
    (hreadable : HashesReadable files hashes) :
    ∃ after, hashCandidate files digest algorithm hashes path = .ok after ∧
      (∀ other ∈ done ++ [path], Hashed files digest algorithm after other) ∧
      HashesReadable files after := by
  unfold hashCandidate
  cases hprovider : algorithm.provider with
  | none =>
      refine ⟨hashes, rfl, fun other _ provider hother ↦ ?_, hreadable⟩
      rw [hprovider] at hother
      cases hother
  | some provider =>
      refine ⟨hashes.set path (digest provider bytes), ?_, fun other hother name hname text htext ↦ ?_,
        fun other hother ↦ ?_⟩
      · simp only [fileDigest_eq digest provider hpath hbytes, Except.map]
      · obtain rfl := Option.some.inj (hprovider.symm.trans hname)
        rw [IdMap.find?_set]
        by_cases heq : other = path
        · subst heq
          rw [if_pos rfl, Option.some.inj (hbytes.symm.trans htext)]
        · rw [if_neg heq]
          have hin : other ∈ done := by simpa [heq] using hother
          exact hhashed other hin provider hprovider text htext
      · have hne : other ≠ path := by
          rintro rfl
          rw [hbytes] at hother
          cases hother
        rw [IdMap.find?_set, if_neg hne]
        exact hreadable other hother

/-- A candidate joins its class, or fails when it cannot be read. -/
theorem Grouped.add (h : Grouped files digest algorithm before done table)
    (hdone : ∀ other ∈ done, IsCandidate files size other) (hpath : IsCandidate files size path)
    (hready : contents files path = none → algorithm = .none → table.groups ≠ []) :
    Grouped files digest algorithm before (done ++ [path])
      (GroupTable.add files digest algorithm size table path) := by
  unfold GroupTable.add
  cases hbytes : contents files path with
  | some bytes =>
      obtain ⟨after, hhash, hhashed, hreadable⟩ :=
        hashCandidate_eq hpath hbytes h.hashed h.hashesReadable
      have hgroups : ∀ g ∈ table.groups, IsCandidate files size g.first ∧
          (contents files g.first).isSome ∧ Hashed files digest algorithm after g.first := by
        intro g hg
        obtain ⟨hmem, hsome⟩ := List.mem_filter.mp (h.first_mem hg)
        exact ⟨hdone _ hmem, hsome, hhashed _ (List.mem_append_left _ hmem)⟩
      have hfind := findDestination_eq hpath hbytes
        (hhashed path (List.mem_append_right _ List.mem_cons_self)) hgroups 0
      simp only [hhash, hfind]
      refine ⟨?_, ?_, hhashed, hreadable⟩
      · rw [readable_concat_of_some hbytes, classes_concat, ← h.groups]
        simp [join]
      · rw [h.errors, List.filter_append]
        simp [hbytes]
  | none =>
      have hfailed : ∀ error, Grouped files digest algorithm before (done ++ [path])
          { table with errors := table.errors ++ [(path, error)] } := by
        intro error
        refine ⟨?_, ?_, fun other hother ↦ ?_, h.hashesReadable⟩
        · rw [readable_concat_of_none hbytes]
          exact h.groups
        · rw [List.map_append, h.errors, List.filter_append, List.append_assoc]
          simp [hbytes]
        · rcases List.mem_append.mp hother with hother | hother
          · exact h.hashed other hother
          · obtain rfl := List.mem_singleton.mp hother
            intro provider _ text htext
            rw [hbytes] at htext
            cases htext
      by_cases hnone : algorithm = .none
      · subst hnone
        obtain ⟨g, rest, hgroups⟩ := List.exists_cons_of_ne_nil (hready hbytes rfl)
        have hstop : contents files g.first = none ∨ contents files path = none := Or.inr hbytes
        obtain ⟨error, herror⟩ := findDestination_error table.hashes size rest 0 hstop
        have hhash : hashCandidate files digest .none table.hashes path = .ok table.hashes := rfl
        simp only [hhash, hgroups, herror]
        simpa only [hgroups] using hfailed error
      · obtain ⟨provider, hprovider⟩ := exists_provider hnone
        obtain ⟨error, herror⟩ := fileDigest_error digest provider hbytes
        have hhash : hashCandidate files digest algorithm table.hashes path = .error error := by
          simp [hashCandidate, hprovider, herror, Except.map]
        simp only [hhash]
        exact hfailed error

/-! ## All candidates of a size -/

/-- The first candidate cannot be read, and no digest is asked for. -/
def Blocked (files : LocalFiles P) (algorithm : HashAlgorithm) (sorted : List P) : Prop :=
  algorithm = .none ∧ sorted.head?.map (contents files) = some none

instance decidableBlocked (files : LocalFiles P) (algorithm : HashAlgorithm) (sorted : List P) :
    Decidable (Blocked files algorithm sorted) :=
  inferInstanceAs (Decidable (_ ∧ _))

theorem Grouped.foldl (hstart : Grouped files digest algorithm before [] table) {sorted : List P}
    (hcandidates : ∀ other ∈ sorted, IsCandidate files size other)
    (hopen : ¬Blocked files algorithm sorted) :
    Grouped files digest algorithm before sorted
      (sorted.foldl (GroupTable.add files digest algorithm size) table) := by
  induction sorted using List.reverseRecOn with
  | nil => exact hstart
  | append_singleton front path ih =>
      have hfront : ∀ other ∈ front, IsCandidate files size other :=
        fun other hother ↦ hcandidates other (List.mem_append_left _ hother)
      rw [List.foldl_append]
      cases front with
      | nil =>
          refine hstart.add hfront (hcandidates path (List.mem_append_right _ List.mem_cons_self)) ?_
          exact fun hnone halgorithm ↦ absurd ⟨halgorithm, congrArg some hnone⟩ hopen
      | cons first rest =>
          have hgrouped := ih hfront hopen
          refine hgrouped.add hfront
            (hcandidates path (List.mem_append_right _ List.mem_cons_self)) fun _ halgorithm ↦ ?_
          have hfirst : (contents files first).isSome := by
            rw [Option.isSome_iff_ne_none]
            exact fun hnone ↦ hopen ⟨halgorithm, congrArg some hnone⟩
          have hmem : first ∈ readable files (first :: rest) :=
            List.mem_filter.mpr ⟨List.mem_cons_self, hfirst⟩
          obtain ⟨g, hg, -⟩ := (isClasses_classes (contents files) _).covers first hmem
          rw [hgrouped.groups]
          exact List.ne_nil_of_mem hg

/-- After a first candidate that cannot be read, every candidate fails. -/
theorem foldl_of_blocked (digest : String → List UInt8 → String) (size : UInt64)
    {table : GroupTable P} {first : P} (hfirst : contents files first = none) (rest : List P)
    (hgroups : table.groups = [⟨first, []⟩]) :
    (rest.foldl (GroupTable.add files digest .none size) table).groups = [⟨first, []⟩] ∧
      (rest.foldl (GroupTable.add files digest .none size) table).errors.map Prod.fst =
        table.errors.map Prod.fst ++ rest ∧
      (rest.foldl (GroupTable.add files digest .none size) table).hashes = table.hashes := by
  induction rest generalizing table with
  | nil => exact ⟨hgroups, (List.append_nil _).symm, rfl⟩
  | cons path rest ih =>
      have hstop : contents files (NonemptyList.mk first []).first = none ∨
          contents files path = none := Or.inl hfirst
      obtain ⟨error, herror⟩ := findDestination_error table.hashes size [] 0 hstop
      have hadd : GroupTable.add files digest .none size table path =
          { table with errors := table.errors ++ [(path, error)] } := by
        have hhash : hashCandidate files digest .none table.hashes path = .ok table.hashes := rfl
        simp only [GroupTable.add, hhash, hgroups, herror]
      obtain ⟨hsame, herrors, hhashes⟩ :=
        @ih { table with errors := table.errors ++ [(path, error)] } hgroups
      rw [List.foldl_cons, hadd]
      refine ⟨hsame, ?_, hhashes⟩
      rw [herrors, List.map_append, List.append_assoc]
      rfl

/-! ## What is reported -/

/-- What the search reports of a size: nothing when it is blocked. -/
def reportedGroups (files : LocalFiles P) (algorithm : HashAlgorithm) (sorted : List P) :
    List (List P) :=
  if Blocked files algorithm sorted then [] else sizeGroups files sorted

/-- The candidates of a size that are among the errors: those that cannot be read,
or, when the search is blocked, all but the first. -/
def failedCandidates (files : LocalFiles P) (algorithm : HashAlgorithm) (sorted : List P) : List P :=
  if Blocked files algorithm sorted then sorted.tail
  else sorted.filter (fun path ↦ (contents files path).isNone)

/-- The table after all candidates of a size. -/
theorem groups_foldl_add (digest : String → List UInt8 → String) (algorithm : HashAlgorithm)
    (errors : List (P × String)) {sorted : List P}
    (hcandidates : ∀ path ∈ sorted, IsCandidate files size path)
    (hhashes : HashesReadable files hashes) :
    ((sorted.foldl (GroupTable.add files digest algorithm size)
        { groups := [], errors := errors, hashes := hashes }).groups.map NonemptyList.toList).filter
          (fun group ↦ 1 < group.length) = reportedGroups files algorithm sorted ∧
      (sorted.foldl (GroupTable.add files digest algorithm size)
        { groups := [], errors := errors, hashes := hashes }).errors.map Prod.fst =
          errors.map Prod.fst ++ failedCandidates files algorithm sorted ∧
      HashesReadable files (sorted.foldl (GroupTable.add files digest algorithm size)
        { groups := [], errors := errors, hashes := hashes }).hashes := by
  unfold reportedGroups failedCandidates
  split
  case isTrue hblocked =>
    obtain ⟨rfl, hhead⟩ := hblocked
    obtain ⟨first, hfirst, hnone⟩ := Option.map_eq_some_iff.mp hhead
    obtain ⟨rest, rfl⟩ := List.head?_eq_some_iff.mp hfirst
    have hstart : (GroupTable.mk [⟨first, []⟩] errors hashes).groups = [⟨first, []⟩] := rfl
    obtain ⟨hgroups, herrors, hsame⟩ := foldl_of_blocked digest size hnone rest hstart
    have hadd : GroupTable.add files digest .none size
        { groups := [], errors := errors, hashes := hashes } first =
          { groups := [⟨first, []⟩], errors := errors, hashes := hashes } := rfl
    rw [List.foldl_cons, hadd, hgroups, hsame]
    exact ⟨rfl, herrors, hhashes⟩
  case isFalse hopen =>
    have hstart : Grouped files digest algorithm (errors.map Prod.fst) []
        { groups := [], errors := errors, hashes := hashes } :=
      ⟨rfl, (List.append_nil _).symm, fun _ h ↦ (nomatch h), hhashes⟩
    have hgrouped := hstart.foldl hcandidates hopen
    rw [hgrouped.groups]
    exact ⟨rfl, hgrouped.errors, hgrouped.hashesReadable⟩

/-! ## Sorted candidates -/

theorem mem_destutter'_ne {path first : P} {rest : List P} :
    path ∈ rest.destutter' (· ≠ ·) first ↔ path = first ∨ path ∈ rest := by
  induction rest generalizing first with
  | nil => simp
  | cons second rest ih =>
      rw [List.destutter'_cons]
      split
      case isTrue hne => simp only [List.mem_cons, ih]
      case isFalse heq =>
        obtain rfl := not_not.mp heq
        simp only [ih, List.mem_cons, or_self_left]

theorem mem_sortedCandidates {candidates : List P} :
    path ∈ sortedCandidates candidates ↔ path ∈ candidates := by
  have hsort : path ∈ candidates.insertionSort (· ≤ ·) ↔ path ∈ candidates :=
    (List.perm_insertionSort _ candidates).mem_iff
  rw [← hsort, sortedCandidates]
  cases candidates.insertionSort (· ≤ ·) with
  | nil => simp
  | cons first rest => rw [List.destutter_cons', mem_destutter'_ne, List.mem_cons]

theorem length_sortedCandidates_le (candidates : List P) :
    (sortedCandidates candidates).length ≤ candidates.length := by
  have hle := (List.destutter_sublist (· ≠ ·) (candidates.insertionSort (· ≤ ·))).length_le
  rwa [List.length_insertionSort] at hle

theorem pairwise_sortedCandidates (candidates : List P) :
    (sortedCandidates candidates).Pairwise (· < ·) := by
  have hle : (sortedCandidates candidates).Pairwise (· ≤ ·) :=
    (List.pairwise_insertionSort (· ≤ ·) candidates).sublist (List.destutter_sublist _ _)
  have hne : (sortedCandidates candidates).IsChain (· ≠ ·) := List.isChain_destutter _ _
  rw [List.isChain_iff_forall_rel_of_append_cons_cons] at hne
  refine List.isChain_iff_pairwise.mp
    (List.isChain_iff_forall_rel_of_append_cons_cons.mpr fun a b front back heq ↦ ?_)
  have hab := List.isChain_iff_forall_rel_of_append_cons_cons.mp hle.isChain heq
  exact lt_of_le_of_ne hab (hne heq)

end Grouping

end WinBlaze
