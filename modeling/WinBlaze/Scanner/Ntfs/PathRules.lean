import WinBlaze.Scanner.Ntfs.Batch

/-!
# Two rules for directory paths

Both backends give a directory the path of its parent with its name joined to
it. They differ at directories without a known parent, which the streaming
backend joins to the root and the batch backend gives the root's own path; at
empty names, which only the batch backend skips; and at directories whose
parent is a file, which only the batch backend follows further up. On entries
whose parents form no cycle each rule gives every directory one path.
-/

namespace WinBlaze

namespace Ntfs

open ParentChain

/-- What the paths of an entry and those below it depend on. -/
structure EntryInfo where
  parent : Option UInt64
  name : String
  isDirectory : Bool
  deriving DecidableEq

/-- The entries other than the root, by id. -/
abbrev EntryGraph := UInt64 → Option EntryInfo

/-- The parent, unless the entry names itself. -/
def EntryInfo.above (info : EntryInfo) (id : UInt64) : Option UInt64 :=
  info.parent.filter (fun parent ↦ parent ≠ id)

def link (graph : EntryGraph) (id : UInt64) : Option UInt64 :=
  (graph id).bind (fun info ↦ info.above id)

/-- The parent of a directory, unless it names itself. -/
def directoryAbove (graph : EntryGraph) (id : UInt64) : Option UInt64 :=
  (graph id).bind (fun info ↦ if info.isDirectory then info.above id else none)

/-- The base with the name joined to it, or the base alone for an empty name. -/
def extendPath (base name : String) : String := if name.isEmpty then base else joinPath base name

/-- The path of the streaming rule. -/
inductive StreamPath (graph : EntryGraph) (rootText : String) : UInt64 → String → Prop
  | top {id : UInt64} {info : EntryInfo} : graph id = some info → info.isDirectory = true →
      (∀ parent above, info.above id = some parent → parent ≠ ntfsRootRecord →
        graph parent = some above → above.isDirectory = false) →
          StreamPath graph rootText id (joinPath rootText info.name)
  | under {id parent : UInt64} {info : EntryInfo} {path : String} : graph id = some info →
      info.isDirectory = true → info.above id = some parent → parent ≠ ntfsRootRecord →
        StreamPath graph rootText parent path →
          StreamPath graph rootText id (joinPath path info.name)

/-- The path of the batch rule. -/
inductive BatchPath (graph : EntryGraph) (rootText : String) : UInt64 → String → Prop
  | cut {id : UInt64} {info : EntryInfo} : graph id = some info →
      (∀ parent, info.above id = some parent → parent ≠ ntfsRootRecord ∧ graph parent = none) →
        BatchPath graph rootText id rootText
  | root {id : UInt64} {info : EntryInfo} : graph id = some info →
      info.above id = some ntfsRootRecord → BatchPath graph rootText id (extendPath rootText info.name)
  | under {id parent : UInt64} {info : EntryInfo} {path : String} : graph id = some info →
      info.above id = some parent → parent ≠ ntfsRootRecord → BatchPath graph rootText parent path →
        BatchPath graph rootText id (extendPath path info.name)

/-- Up to the root, or to an unknown parent, all entries have empty names. -/
inductive Nameless (graph : EntryGraph) : UInt64 → Prop
  | cut {id : UInt64} {info : EntryInfo} : graph id = some info →
      (∀ parent, info.above id = some parent → parent ≠ ntfsRootRecord ∧ graph parent = none) →
        Nameless graph id
  | root {id : UInt64} {info : EntryInfo} : graph id = some info →
      info.above id = some ntfsRootRecord → info.name = "" → Nameless graph id
  | under {id parent : UInt64} {info : EntryInfo} : graph id = some info →
      info.above id = some parent → parent ≠ ntfsRootRecord → info.name = "" →
        Nameless graph parent → Nameless graph id

/-- Where the two rules agree for a directory if they do for its parent. -/
def RulesMeet (graph : EntryGraph) (rootText : String) (id : UInt64) (info : EntryInfo) : Prop :=
  match info.above id with
  | none => info.name = "" ∧ endsWithBackslash rootText = true
  | some parent =>
      if parent = ntfsRootRecord then info.name ≠ "" ∨ endsWithBackslash rootText = true
      else
        match graph parent with
        | none => info.name = "" ∧ endsWithBackslash rootText = true
        | some above =>
            if above.isDirectory then
              info.name ≠ "" ∨ above.name = "" ∨ endsWithBackslash above.name = true
            else Nameless graph parent ∧ (info.name ≠ "" ∨ endsWithBackslash rootText = true)

/-! ## Joined paths -/

theorem toList_joinPath (base name : String) :
    (joinPath base name).toList =
      (if endsWithBackslash base then base.toList else base.toList ++ ['\\']) ++ name.toList := by
  unfold joinPath
  cases endsWithBackslash base <;> simp

theorem joinPath_empty_iff (base : String) :
    joinPath base "" = base ↔ endsWithBackslash base = true := by
  constructor
  · intro h
    by_contra hends
    have hlist := congrArg String.toList h
    rw [toList_joinPath, if_neg hends] at hlist
    simp at hlist
  · intro hends
    apply String.toList_inj.mp
    rw [toList_joinPath, if_pos hends]
    simp

theorem eq_joinPath_iff (base name : String) :
    base = joinPath base name ↔ name = "" ∧ endsWithBackslash base = true := by
  constructor
  · intro h
    have hlength := congrArg List.length (congrArg String.toList h)
    rw [toList_joinPath, List.length_append] at hlength
    have hbase : base.toList.length ≤
        (if endsWithBackslash base then base.toList else base.toList ++ ['\\']).length := by
      split
      case isTrue => exact le_rfl
      case isFalse =>
        rw [List.length_append]
        exact Nat.le_add_right _ _
    have hname : name = "" := by
      apply String.toList_eq_nil_iff.mp
      apply List.length_eq_zero_iff.mp
      omega
    refine ⟨hname, ?_⟩
    rw [hname, eq_comm, joinPath_empty_iff] at h
    exact h
  · rintro ⟨rfl, hends⟩
    exact ((joinPath_empty_iff base).mpr hends).symm

theorem extendPath_eq_joinPath_iff (base name : String) :
    extendPath base name = joinPath base name ↔ name ≠ "" ∨ endsWithBackslash base = true := by
  unfold extendPath
  by_cases hname : name = ""
  · subst hname
    rw [if_pos (by decide), eq_comm, joinPath_empty_iff]
    exact (or_iff_right fun h ↦ h rfl).symm
  · have hempty : ¬ name.isEmpty = true := fun h ↦ hname (String.isEmpty_iff.mp h)
    rw [if_neg hempty]
    exact iff_of_true rfl (Or.inl hname)

theorem endsWithBackslash_joinPath (base name : String) :
    endsWithBackslash (joinPath base name) = true ↔
      name = "" ∨ endsWithBackslash name = true := by
  by_cases hname : name = ""
  · subst hname
    refine iff_of_true ?_ (Or.inl rfl)
    rw [endsWithBackslash, toList_joinPath]
    cases hends : endsWithBackslash base with
    | true => simpa [endsWithBackslash] using hends
    | false => simp
  · have hlist : name.toList ≠ [] := fun h ↦ hname (String.toList_eq_nil_iff.mp h)
    rw [endsWithBackslash, toList_joinPath, List.getLast?_append_of_ne_nil _ hlist]
    simp [hname, endsWithBackslash]

/-! ## One path for every directory -/

section Graph

variable {graph : EntryGraph} {rootText : String}

theorem link_of_above {id parent : UInt64} {info : EntryInfo} (hinfo : graph id = some info)
    (habove : info.above id = some parent) : link graph id = some parent := by
  rw [link, hinfo, Option.bind_some, habove]

theorem StreamPath.exists_info {id : UInt64} {path : String} (h : StreamPath graph rootText id path) :
    ∃ info, graph id = some info ∧ info.isDirectory = true := by
  cases h with
  | top hinfo hdirectory => exact ⟨_, hinfo, hdirectory⟩
  | under hinfo hdirectory => exact ⟨_, hinfo, hdirectory⟩

theorem BatchPath.exists_info {id : UInt64} {path : String} (h : BatchPath graph rootText id path) :
    ∃ info, graph id = some info := by
  cases h with
  | cut hinfo => exact ⟨_, hinfo⟩
  | root hinfo => exact ⟨_, hinfo⟩
  | under hinfo => exact ⟨_, hinfo⟩

/-- A directory at the top has no path above it. -/
theorem StreamPath.not_top {parent : UInt64} {path : String} (h : StreamPath graph rootText parent path)
    (htop : ∀ above, graph parent = some above → above.isDirectory = false) : False := by
  obtain ⟨above, habove, hdirectory⟩ := h.exists_info
  rw [htop above habove] at hdirectory
  cases hdirectory

theorem StreamPath.unique {id : UInt64} {path other : String}
    (h : StreamPath graph rootText id path) (h' : StreamPath graph rootText id other) :
    path = other := by
  induction h generalizing other with
  | top hinfo _ htop =>
      cases h' with
      | top hinfo' => rw [Option.some.inj (hinfo.symm.trans hinfo')]
      | under hinfo' _ habove hne hparent =>
          obtain rfl := Option.some.inj (hinfo.symm.trans hinfo')
          exact (hparent.not_top fun above ↦ htop _ above habove hne).elim
  | under hinfo _ habove hne hparent ih =>
      cases h' with
      | top hinfo' _ htop =>
          obtain rfl := Option.some.inj (hinfo.symm.trans hinfo')
          exact (hparent.not_top fun above ↦ htop _ above habove hne).elim
      | under hinfo' _ habove' _ hparent' =>
          obtain rfl := Option.some.inj (hinfo.symm.trans hinfo')
          obtain rfl := Option.some.inj (habove.symm.trans habove')
          rw [ih hparent']

theorem BatchPath.unique {id : UInt64} {path other : String}
    (h : BatchPath graph rootText id path) (h' : BatchPath graph rootText id other) :
    path = other := by
  induction h generalizing other with
  | cut hinfo hcut =>
      cases h' with
      | cut => rfl
      | root hinfo' hparent =>
          obtain rfl := Option.some.inj (hinfo.symm.trans hinfo')
          exact ((hcut _ hparent).1 rfl).elim
      | under hinfo' hparent _ habove =>
          obtain rfl := Option.some.inj (hinfo.symm.trans hinfo')
          obtain ⟨above, hfound⟩ := habove.exists_info
          rw [(hcut _ hparent).2] at hfound
          cases hfound
  | root hinfo hparent =>
      cases h' with
      | cut hinfo' hcut =>
          obtain rfl := Option.some.inj (hinfo.symm.trans hinfo')
          exact ((hcut _ hparent).1 rfl).elim
      | root hinfo' => rw [Option.some.inj (hinfo.symm.trans hinfo')]
      | under hinfo' hparent' hne =>
          obtain rfl := Option.some.inj (hinfo.symm.trans hinfo')
          exact (hne (Option.some.inj (hparent'.symm.trans hparent))).elim
  | under hinfo hparent hne habove ih =>
      cases h' with
      | cut hinfo' hcut =>
          obtain rfl := Option.some.inj (hinfo.symm.trans hinfo')
          obtain ⟨above, hfound⟩ := habove.exists_info
          rw [(hcut _ hparent).2] at hfound
          cases hfound
      | root hinfo' hparent' =>
          obtain rfl := Option.some.inj (hinfo.symm.trans hinfo')
          exact (hne (Option.some.inj (hparent.symm.trans hparent'))).elim
      | under hinfo' hparent' _ habove' =>
          obtain rfl := Option.some.inj (hinfo.symm.trans hinfo')
          obtain rfl := Option.some.inj (hparent.symm.trans hparent')
          rw [ih habove']

theorem directoryAbove_of_above {id parent : UInt64} {info : EntryInfo} (hinfo : graph id = some info)
    (hdirectory : info.isDirectory = true) (habove : info.above id = some parent) :
    directoryAbove graph id = some parent := by
  rw [directoryAbove, hinfo, Option.bind_some, if_pos hdirectory, habove]

theorem link_of_directoryAbove (id parent : UInt64) (h : directoryAbove graph id = some parent) :
    link graph id = some parent := by
  obtain ⟨info, hinfo, habove⟩ := Option.bind_eq_some_iff.mp h
  split at habove
  case isTrue => exact link_of_above hinfo habove
  case isFalse => cases habove

theorem exists_streamPath (rootText : String) {id : UInt64} (hends : Ends (directoryAbove graph) id)
    {info : EntryInfo} (hinfo : graph id = some info) (hdirectory : info.isDirectory = true) :
    ∃ path, StreamPath graph rootText id path := by
  refine Ends.induction (P := fun id ↦ ∀ info, graph id = some info → info.isDirectory = true →
    ∃ path, StreamPath graph rootText id path) ?_ hends info hinfo hdirectory
  intro id ih info hinfo hdirectory
  by_cases hunder : ∃ parent above, info.above id = some parent ∧ parent ≠ ntfsRootRecord ∧
      graph parent = some above ∧ above.isDirectory = true
  · obtain ⟨parent, above, habove, hne, hfound, hparent⟩ := hunder
    obtain ⟨path, hpath⟩ :=
      ih parent (directoryAbove_of_above hinfo hdirectory habove) above hfound hparent
    exact ⟨_, .under hinfo hdirectory habove hne hpath⟩
  · refine ⟨_, .top hinfo hdirectory fun parent above habove hne hfound ↦ ?_⟩
    by_contra hparent
    apply hunder
    exact ⟨parent, above, habove, hne, hfound, Bool.not_eq_false _ ▸ hparent⟩

theorem exists_batchPath (rootText : String) {id : UInt64} (hends : Ends (link graph) id)
    {info : EntryInfo} (hinfo : graph id = some info) :
    ∃ path, BatchPath graph rootText id path := by
  refine Ends.induction (P := fun id ↦ ∀ info, graph id = some info →
    ∃ path, BatchPath graph rootText id path) ?_ hends info hinfo
  intro id ih info hinfo
  by_cases hcut : ∀ parent, info.above id = some parent →
      parent ≠ ntfsRootRecord ∧ graph parent = none
  · exact ⟨_, .cut hinfo hcut⟩
  · push Not at hcut
    obtain ⟨parent, hparent, hknown⟩ := hcut
    by_cases hroot : parent = ntfsRootRecord
    · exact ⟨_, .root hinfo (hroot ▸ hparent)⟩
    · obtain ⟨above, habove⟩ := Option.ne_none_iff_exists'.mp (hknown hroot)
      obtain ⟨path, hpath⟩ := ih parent (link_of_above hinfo hparent) above habove
      exact ⟨_, .under hinfo hparent hroot hpath⟩

/-! ## Where the rules agree -/

/-- The length of a path with a separator at its end. -/
def separatedLength (path : String) : ℕ := (joinPath path "").toList.length

theorem length_joinPath (base name : String) :
    (joinPath base name).toList.length = separatedLength base + name.toList.length := by
  rw [separatedLength, toList_joinPath, toList_joinPath, List.length_append, List.length_append]
  simp

theorem length_le_separatedLength (path : String) : path.toList.length ≤ separatedLength path := by
  rw [separatedLength, toList_joinPath]
  split <;> simp

theorem length_pos_of_ne {name : String} (h : name ≠ "") : 0 < name.toList.length := by
  apply List.length_pos_iff.mpr
  intro hnil
  exact h (String.toList_eq_nil_iff.mp hnil)

theorem length_extendPath {name : String} (h : name ≠ "") (base : String) :
    (extendPath base name).toList.length = separatedLength base + name.toList.length := by
  have hempty : ¬ name.isEmpty = true := fun hname ↦ h (String.isEmpty_iff.mp hname)
  rw [extendPath, if_neg hempty, length_joinPath]

theorem length_le_extendPath (base name : String) :
    base.toList.length + name.toList.length ≤ (extendPath base name).toList.length := by
  unfold extendPath
  split
  case isTrue hempty => simp [String.isEmpty_iff.mp hempty]
  case isFalse =>
    rw [length_joinPath]
    exact Nat.add_le_add_right (length_le_separatedLength base) _

theorem extendPath_empty (base : String) : extendPath base "" = base := if_pos rfl

theorem Nameless.batchPath {id : UInt64} (h : Nameless graph id) :
    BatchPath graph rootText id rootText := by
  induction h with
  | cut hinfo hcut => exact .cut hinfo hcut
  | root hinfo hparent hname =>
      have hpath : BatchPath graph rootText _ (extendPath rootText _) := .root hinfo hparent
      rwa [hname, extendPath_empty] at hpath
  | under hinfo hparent hne hname _ ih =>
      have hpath := BatchPath.under hinfo hparent hne ih
      rwa [hname, extendPath_empty] at hpath

/-- A path with a name in it is longer than that of the root. -/
theorem BatchPath.nameless_or_longer {id : UInt64} {path : String}
    (h : BatchPath graph rootText id path) :
    (path = rootText ∧ Nameless graph id) ∨ separatedLength rootText < path.toList.length := by
  induction h with
  | cut hinfo hcut => exact Or.inl ⟨rfl, .cut hinfo hcut⟩
  | @root id info hinfo hparent =>
      by_cases hname : info.name = ""
      · rw [hname, extendPath_empty]
        exact Or.inl ⟨rfl, .root hinfo hparent hname⟩
      · right
        rw [length_extendPath hname]
        have hpos := length_pos_of_ne hname
        omega
  | @under id parent info path hinfo hparent hne habove ih =>
      have hlonger := length_le_extendPath path info.name
      rcases ih with ⟨rfl, hnameless⟩ | hlong
      · by_cases hname : info.name = ""
        · rw [hname, extendPath_empty]
          exact Or.inl ⟨rfl, .under hinfo hparent hne hname hnameless⟩
        · right
          rw [length_extendPath hname]
          have hpos := length_pos_of_ne hname
          omega
      · right
        omega

theorem BatchPath.eq_rootText_iff {id : UInt64} {path : String}
    (h : BatchPath graph rootText id path) : path = rootText ↔ Nameless graph id := by
  constructor
  · rintro rfl
    have hle := length_le_separatedLength path
    rcases h.nameless_or_longer with ⟨-, hnameless⟩ | hlonger
    · exact hnameless
    · omega
  · intro hnameless
    exact h.unique hnameless.batchPath

/-- Below an entry that is no directory, the rules agree only if it adds nothing
to the root's path. -/
theorem BatchPath.joinPath_eq_extendPath_iff {id : UInt64} {path : String}
    (h : BatchPath graph rootText id path) (name : String) :
    joinPath rootText name = extendPath path name ↔
      Nameless graph id ∧ (name ≠ "" ∨ endsWithBackslash rootText = true) := by
  rw [← h.eq_rootText_iff, ← extendPath_eq_joinPath_iff]
  constructor
  · intro heq
    rcases h.nameless_or_longer with ⟨rfl, -⟩ | hlonger
    · exact ⟨rfl, heq.symm⟩
    · have hlength := congrArg List.length (congrArg String.toList heq)
      have hle := length_le_extendPath path name
      rw [length_joinPath] at hlength
      omega
  · rintro ⟨rfl, heq⟩
    exact heq.symm

/-- A path of the streaming rule ends as the directory's own name does. -/
theorem StreamPath.endsWithBackslash_iff {id : UInt64} {info : EntryInfo} {path : String}
    (h : StreamPath graph rootText id path) (hinfo : graph id = some info) :
    endsWithBackslash path = true ↔ info.name = "" ∨ endsWithBackslash info.name = true := by
  cases h with
  | top hinfo' =>
      obtain rfl := Option.some.inj (hinfo.symm.trans hinfo')
      exact endsWithBackslash_joinPath _ _
  | under hinfo' =>
      obtain rfl := Option.some.inj (hinfo.symm.trans hinfo')
      exact endsWithBackslash_joinPath _ _

/-- Where the rules agree for the parent, they agree for the directory exactly
when they meet there. -/
theorem paths_eq_iff_rulesMeet {id : UInt64} {info : EntryInfo} (hinfo : graph id = some info)
    (hdirectory : info.isDirectory = true) (hends : Ends (link graph) id) {streamed resolved : String}
    (hstream : StreamPath graph rootText id streamed) (hbatch : BatchPath graph rootText id resolved)
    (hparents : ∀ parent, link graph id = some parent → ∀ path other,
      StreamPath graph rootText parent path → BatchPath graph rootText parent other → path = other) :
    streamed = resolved ↔ RulesMeet graph rootText id info := by
  unfold RulesMeet
  cases hparent : info.above id with
  | none =>
      have htop : StreamPath graph rootText id (joinPath rootText info.name) :=
        .top hinfo hdirectory fun parent above h ↦ by rw [hparent] at h; cases h
      have hcut : BatchPath graph rootText id rootText :=
        .cut hinfo fun parent h ↦ by rw [hparent] at h; cases h
      rw [hstream.unique htop, hbatch.unique hcut, eq_comm, eq_joinPath_iff]
  | some parent =>
      have hlink := link_of_above hinfo hparent
      have hsame : ∀ other, info.above id = some other → other = parent := fun other h ↦
        Option.some.inj (h.symm.trans hparent)
      dsimp only
      by_cases hroot : parent = ntfsRootRecord
      · have htop : StreamPath graph rootText id (joinPath rootText info.name) :=
          .top hinfo hdirectory fun other above h hne ↦ (hne ((hsame other h).trans hroot)).elim
        rw [if_pos hroot, hstream.unique htop, hbatch.unique (.root hinfo (hroot ▸ hparent)), eq_comm,
          extendPath_eq_joinPath_iff]
      · rw [if_neg hroot]
        cases habove : graph parent with
        | none =>
            have htop : StreamPath graph rootText id (joinPath rootText info.name) := by
              refine .top hinfo hdirectory fun other above h _ hfound ↦ ?_
              rw [hsame other h, habove] at hfound
              cases hfound
            have hcut : BatchPath graph rootText id rootText :=
              .cut hinfo fun other h ↦ by
                rw [hsame other h]
                exact ⟨hroot, habove⟩
            rw [hstream.unique htop, hbatch.unique hcut, eq_comm, eq_joinPath_iff]
        | some above =>
            have hendsParent := (ends_iff_of_some hlink).mp hends
            obtain ⟨other, hother⟩ := exists_batchPath rootText hendsParent habove
            rw [hbatch.unique (.under hinfo hparent hroot hother)]
            dsimp only
            cases hfile : above.isDirectory with
            | true =>
                obtain ⟨path, hpath⟩ := exists_streamPath rootText
                  (hendsParent.of_links link_of_directoryAbove) habove hfile
                rw [if_pos rfl, hstream.unique (.under hinfo hdirectory hparent hroot hpath),
                  ← hparents parent hlink path other hpath hother, eq_comm,
                  extendPath_eq_joinPath_iff, hpath.endsWithBackslash_iff habove]
            | false =>
                have htop : StreamPath graph rootText id (joinPath rootText info.name) := by
                  refine .top hinfo hdirectory fun others found h _ hfound ↦ ?_
                  rw [hsame others h, habove] at hfound
                  rwa [← Option.some.inj hfound]
                rw [if_neg Bool.false_ne_true, hstream.unique htop]
                exact hother.joinPath_eq_extendPath_iff info.name

/-- Where the parents of directories come to an end, the rules agree everywhere exactly when they
meet everywhere. -/
theorem rules_agree_iff
    (hends : ∀ id info, graph id = some info → info.isDirectory = true → Ends (link graph) id) :
    (∀ id path other, StreamPath graph rootText id path → BatchPath graph rootText id other →
        path = other) ↔
      ∀ id info, graph id = some info → info.isDirectory = true → RulesMeet graph rootText id info := by
  constructor
  · intro hagree id info hinfo hdirectory
    have hid := hends id info hinfo hdirectory
    obtain ⟨path, hpath⟩ :=
      exists_streamPath rootText (hid.of_links link_of_directoryAbove) hinfo hdirectory
    obtain ⟨other, hother⟩ := exists_batchPath rootText hid hinfo
    apply (paths_eq_iff_rulesMeet hinfo hdirectory hid hpath hother fun parent _ ↦ hagree parent).mp
    exact hagree id path other hpath hother
  · intro hmeet id path other hpath hother
    obtain ⟨info, hinfo, hdirectory⟩ := hpath.exists_info
    have hid := hends id info hinfo hdirectory
    refine Ends.induction (P := fun id ↦ Ends (link graph) id → ∀ path other,
      StreamPath graph rootText id path → BatchPath graph rootText id other → path = other)
      ?_ hid hid path other hpath hother
    intro id ih hid path other hpath hother
    obtain ⟨info, hinfo, hdirectory⟩ := hpath.exists_info
    refine (paths_eq_iff_rulesMeet hinfo hdirectory hid hpath hother fun parent hparent ↦ ?_).mpr
      (hmeet id info hinfo hdirectory)
    exact ih parent hparent ((ends_iff_of_some hparent).mp hid)

end Graph

end Ntfs

end WinBlaze
