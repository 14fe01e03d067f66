import WinBlaze.Lib.Climbs
import WinBlaze.Scanner.Ntfs.PathRules

/-!
# Cycles through files

The batch backend follows files like directories, so what it climbs from a
directory may come back to itself. The entry behind which it does then stands
below the root, and as its path is kept, so it does for all directories that run
into the same cycle later. The first of them is the one with the smallest id.
-/

namespace WinBlaze

namespace Ntfs

open ParentChain

def IsDirectory (graph : EntryGraph) (id : UInt64) : Prop :=
  ∃ info, graph id = some info ∧ info.isDirectory = true

/-- The climb from the first of the directories below this entry comes back behind it. -/
def CutOff (graph : EntryGraph) (id : UInt64) : Prop :=
  ∃ first, IsDirectory graph first ∧ ComesBack (link graph) first id ∧
    ∀ other, IsDirectory graph other → Above (link graph) id other → first ≤ other

open Classical in
/-- The entries as the batch backend follows them, with all cycles below directories cut. -/
noncomputable def cutGraph (graph : EntryGraph) : EntryGraph := fun id ↦
  (graph id).map fun info ↦ if CutOff graph id then { info with parent := some ntfsRootRecord } else info

/-- The directory and all directories above it have empty names. -/
inductive NamelessUp (graph : EntryGraph) : UInt64 → Prop
  | top {id : UInt64} {info : EntryInfo} : graph id = some info → info.isDirectory = true →
      (∀ parent above, info.above id = some parent → parent ≠ ntfsRootRecord →
        graph parent = some above → above.isDirectory = false) → info.name = "" → NamelessUp graph id
  | under {id parent : UInt64} {info : EntryInfo} : graph id = some info →
      info.isDirectory = true → info.above id = some parent → parent ≠ ntfsRootRecord →
        info.name = "" → NamelessUp graph parent → NamelessUp graph id

/-- Where a directory is cut off from a directory, that one adds nothing to the root's path. -/
def CutsNameless (graph : EntryGraph) : Prop :=
  ∀ id info parent, CutOff graph id → graph id = some info → info.isDirectory = true →
    info.above id = some parent → IsDirectory graph parent → NamelessUp graph parent

section Graph

variable {graph : EntryGraph} {rootText : String}

/-! ## The cut entries -/

theorem cutGraph_of_not {id : UInt64} (h : ¬ CutOff graph id) : cutGraph graph id = graph id := by
  rw [cutGraph]
  cases graph id with
  | none => rfl
  | some info => rw [Option.map_some, if_neg h]

theorem cutGraph_eq_none_iff (id : UInt64) : cutGraph graph id = none ↔ graph id = none :=
  Option.map_eq_none_iff

/-- Cutting changes parents only. -/
theorem exists_info_of_cutGraph {id : UInt64} {info : EntryInfo} (h : cutGraph graph id = some info) :
    ∃ old, graph id = some old ∧ old.name = info.name ∧ old.isDirectory = info.isDirectory := by
  obtain ⟨old, hold, rfl⟩ := Option.map_eq_some_iff.mp h
  refine ⟨old, hold, ?_⟩
  split <;> exact ⟨rfl, rfl⟩

theorem exists_cutGraph {id : UInt64} {info : EntryInfo} (h : graph id = some info) :
    ∃ cut, cutGraph graph id = some cut ∧ cut.name = info.name ∧ cut.isDirectory = info.isDirectory := by
  refine ⟨_, by rw [cutGraph, h, Option.map_some], ?_⟩
  split <;> exact ⟨rfl, rfl⟩

/-- An entry that is cut off stands below the root. -/
theorem CutOff.exists_below_root {id : UInt64} {info : EntryInfo} (h : CutOff graph id)
    (hinfo : graph id = some info) (hid : id ≠ ntfsRootRecord) :
    ∃ cut, cutGraph graph id = some cut ∧ cut.name = info.name ∧ cut.isDirectory = info.isDirectory ∧
      cut.above id = some ntfsRootRecord := by
  refine ⟨{ info with parent := some ntfsRootRecord }, ?_, rfl, rfl, ?_⟩
  · rw [cutGraph, hinfo, Option.map_some, if_pos h]
  · rw [EntryInfo.above, Option.filter_some, if_pos (by simpa using hid.symm)]

theorem CutOff.batchPath {id : UInt64} {info : EntryInfo} (h : CutOff graph id)
    (hinfo : graph id = some info) (hid : id ≠ ntfsRootRecord) :
    BatchPath (cutGraph graph) rootText id (extendPath rootText info.name) := by
  obtain ⟨cut, hcut, hname, -, habove⟩ := h.exists_below_root hinfo hid
  rw [← hname]
  exact .root hcut habove

/-- A path of the batch rule comes from parents that come to an end. -/
theorem BatchPath.ends {id : UInt64} {path : String} (hroot : graph ntfsRootRecord = none)
    (h : BatchPath graph rootText id path) : Ends (link graph) id := by
  have hnone : ∀ id, graph id = none → Ends (link graph) id := fun id hid ↦
    ends_of_none (by rw [link, hid, Option.bind_none])
  induction h with
  | @cut id info hinfo hcut =>
      cases habove : info.above id with
      | none => exact ends_of_none (by rw [link, hinfo, Option.bind_some, habove])
      | some parent =>
          exact (ends_iff_of_some (link_of_above hinfo habove)).mpr (hnone parent (hcut parent habove).2)
  | root hinfo habove =>
      exact (ends_iff_of_some (link_of_above hinfo habove)).mpr (hnone _ hroot)
  | under hinfo habove _ _ ih => exact (ends_iff_of_some (link_of_above hinfo habove)).mpr ih

/-! ## Directories without names -/

theorem joinPath_joinPath_empty (base name : String) :
    joinPath (joinPath base "") name = joinPath base name := by
  apply String.toList_inj.mp
  have hends : endsWithBackslash (joinPath base "") = true :=
    (endsWithBackslash_joinPath base "").mpr (Or.inl rfl)
  rw [toList_joinPath, if_pos hends, toList_joinPath, toList_joinPath]
  simp

theorem NamelessUp.streamPath {id : UInt64} (h : NamelessUp graph id) :
    StreamPath graph rootText id (joinPath rootText "") := by
  induction h with
  | top hinfo hdirectory htop hname =>
      rw [← hname]
      exact .top hinfo hdirectory htop
  | under hinfo hdirectory habove hne hname _ ih =>
      have hpath := StreamPath.under hinfo hdirectory habove hne ih
      rwa [hname, joinPath_joinPath_empty] at hpath

/-- A name on the way makes the path longer. -/
theorem StreamPath.namelessUp_or_longer {id : UInt64} {path : String}
    (h : StreamPath graph rootText id path) :
    NamelessUp graph id ∨ separatedLength rootText < path.toList.length := by
  induction h with
  | @top id info hinfo hdirectory htop =>
      by_cases hname : info.name = ""
      · exact Or.inl (.top hinfo hdirectory htop hname)
      · right
        have hpos := length_pos_of_ne hname
        rw [length_joinPath]
        omega
  | @under id parent info path hinfo hdirectory habove hne hpath ih =>
      have hle := length_le_separatedLength path
      rcases ih with hnameless | hlonger
      · by_cases hname : info.name = ""
        · exact Or.inl (.under hinfo hdirectory habove hne hname hnameless)
        · right
          obtain rfl := hpath.unique hnameless.streamPath
          have hpos := length_pos_of_ne hname
          have hroot : separatedLength rootText = (joinPath rootText "").toList.length := rfl
          rw [length_joinPath]
          omega
      · right
        rw [length_joinPath]
        omega

theorem length_extendPath_le (base name : String) :
    (extendPath base name).toList.length ≤ separatedLength base + name.toList.length := by
  by_cases hname : name = ""
  · rw [hname, extendPath_empty]
    exact (length_le_separatedLength base).trans (Nat.le_add_right _ _)
  · rw [length_extendPath hname]

/-- A directory below a directory has the path of one below the root only without names above it. -/
theorem StreamPath.namelessUp {parent : UInt64} {path name : String}
    (h : StreamPath graph rootText parent path)
    (heq : joinPath path name = extendPath rootText name) : NamelessUp graph parent := by
  rcases h.namelessUp_or_longer with hnameless | hlonger
  · exact hnameless
  · have hlength := congrArg List.length (congrArg String.toList heq)
    have hle := length_le_separatedLength path
    have hextended := length_extendPath_le rootText name
    rw [length_joinPath] at hlength
    omega

/-! ## The rules with cycles through files -/

/-- Where cuts change no path of the streaming rule, it gives the same paths behind them. -/
theorem StreamPath.cutGraph (hcuts : CutsNameless graph) (hroot : graph ntfsRootRecord = none)
    {id : UInt64} {path : String} (h : StreamPath graph rootText id path) :
    StreamPath (cutGraph graph) rootText id path := by
  have hcutTop : ∀ {id : UInt64} {info : EntryInfo}, graph id = some info → info.isDirectory = true →
      CutOff graph id → StreamPath (Ntfs.cutGraph graph) rootText id (joinPath rootText info.name) := by
    intro id info hinfo hdirectory hcut
    have hid : id ≠ ntfsRootRecord := by
      rintro rfl
      rw [hroot] at hinfo
      cases hinfo
    obtain ⟨cut, hfound, hname, hkind, htop⟩ := hcut.exists_below_root hinfo hid
    rw [← hname]
    refine .top hfound (hkind.trans hdirectory) fun parent above habove hne _ ↦ ?_
    rw [htop] at habove
    exact absurd (Option.some.inj habove).symm hne
  induction h with
  | @top id info hinfo hdirectory htop =>
      by_cases hcut : CutOff graph id
      · exact hcutTop hinfo hdirectory hcut
      · refine .top ((cutGraph_of_not hcut).trans hinfo) hdirectory fun parent above habove hne hfound ↦ ?_
        obtain ⟨old, hold, -, hkind⟩ := exists_info_of_cutGraph hfound
        rw [← hkind]
        exact htop parent old habove hne hold
  | @under id parent info path hinfo hdirectory habove hne hparent ih =>
      by_cases hcut : CutOff graph id
      · obtain ⟨above, hfound, hkind⟩ := hparent.exists_info
        have hnameless := hcuts id info parent hcut hinfo hdirectory habove ⟨above, hfound, hkind⟩
        rw [hparent.unique hnameless.streamPath, joinPath_joinPath_empty]
        exact hcutTop hinfo hdirectory hcut
      · exact .under ((cutGraph_of_not hcut).trans hinfo) hdirectory habove hne ih

/-- Where directories are not above themselves, the rules agree everywhere exactly when they meet
everywhere once the cycles are cut, and no cut takes away a name. -/
theorem cut_rules_agree_iff (hroot : graph ntfsRootRecord = none)
    (hdirectories : ∀ id, Ends (directoryAbove graph) id)
    (hends : ∀ id, IsDirectory (cutGraph graph) id → Ends (link (cutGraph graph)) id) :
    (∀ id path other, StreamPath graph rootText id path →
        BatchPath (cutGraph graph) rootText id other → path = other) ↔
      (∀ id info, cutGraph graph id = some info → info.isDirectory = true →
        RulesMeet (cutGraph graph) rootText id info) ∧ CutsNameless graph := by
  have hmeet : (∀ id path other, StreamPath (cutGraph graph) rootText id path →
      BatchPath (cutGraph graph) rootText id other → path = other) ↔
        ∀ id info, cutGraph graph id = some info → info.isDirectory = true →
          RulesMeet (cutGraph graph) rootText id info :=
    rules_agree_iff fun id info hinfo hdirectory ↦ hends id ⟨info, hinfo, hdirectory⟩
  constructor
  · intro hagree
    have hcuts : CutsNameless graph := by
      rintro id info parent hcut hinfo hdirectory habove ⟨above, hfound, hkind⟩
      have hne : parent ≠ ntfsRootRecord := by
        rintro rfl
        rw [hroot] at hfound
        cases hfound
      have hid : id ≠ ntfsRootRecord := by
        rintro rfl
        rw [hroot] at hinfo
        cases hinfo
      obtain ⟨path, hpath⟩ := exists_streamPath rootText (hdirectories parent) hfound hkind
      have heq : joinPath path info.name = extendPath rootText info.name :=
        hagree id _ _ (.under hinfo hdirectory habove hne hpath) (hcut.batchPath hinfo hid)
      exact hpath.namelessUp heq
    refine ⟨hmeet.mp fun id path other hpath hother ↦ ?_, hcuts⟩
    obtain ⟨cut, hcut, hdirectory⟩ := hpath.exists_info
    obtain ⟨info, hinfo, -, hkind⟩ := exists_info_of_cutGraph hcut
    obtain ⟨streamed, hstreamed⟩ :=
      exists_streamPath rootText (hdirectories id) hinfo (hkind.trans hdirectory)
    rw [hpath.unique (hstreamed.cutGraph hcuts hroot)]
    exact hagree id streamed other hstreamed hother
  · rintro ⟨hrules, hcuts⟩ id path other hpath hother
    exact hmeet.mpr hrules id path other (hpath.cutGraph hcuts hroot) hother

end Graph

end Ntfs

end WinBlaze
