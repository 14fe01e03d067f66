import WinBlaze.Scanner.Ntfs.StreamOutcomes

/-!
# The paths the streaming backend resolves

While records come in a directory is emitted behind its parent. What waits at
the end is released from the top: a bucket whose key does not wait itself has no
directory for its key, so its directories belong under the root, and without
cycles there always is such a bucket. So every directory is emitted under its
path of the streaming rule.
-/

namespace WinBlaze

namespace Ntfs

open ParentChain

/-- No directory has this id. -/
def NoDirectory (graph : EntryGraph) (id : UInt64) : Prop :=
  ∀ info, graph id = some info → info.isDirectory = false

theorem normalizedParent_eq (entry : ParsedNtfsEntry) :
    normalizedParent entry =
      ((infoOf entry).above entry.fileId.val).getD ntfsRootRecord := by
  rw [normalizedParent, infoOf, EntryInfo.above]
  cases entry.parentDirectoryId with
  | none => rfl
  | some parent =>
      by_cases hself : parent = entry.fileId.val
      · simp [hself, Option.filter]
      · simp [hself, Option.filter]

section Rule

variable {graph : EntryGraph} {rootText : String} {entry : ParsedNtfsEntry}

theorem above_of_ne_root (h : normalizedParent entry ≠ ntfsRootRecord) :
    (infoOf entry).above entry.fileId.val = some (normalizedParent entry) := by
  rw [normalizedParent_eq] at h ⊢
  cases habove : (infoOf entry).above entry.fileId.val with
  | none =>
      rw [habove] at h
      exact (h rfl).elim
  | some parent => rfl

/-- A directory without a directory above it belongs under the root. -/
theorem streamPath_top (hinfo : graph entry.fileId.val = some (infoOf entry))
    (hdirectory : entry.isDirectory = true)
    (htop : normalizedParent entry = ntfsRootRecord ∨ NoDirectory graph (normalizedParent entry)) :
    StreamPath graph rootText entry.fileId.val (joinPath rootText entry.name) := by
  refine .top hinfo hdirectory fun parent above habove hne hfound ↦ ?_
  have hparent : normalizedParent entry = parent := by rw [normalizedParent_eq, habove, Option.getD_some]
  rw [hparent] at htop
  rcases htop with hroot | hnone
  · exact (hne hroot).elim
  · exact hnone above hfound

theorem streamPath_under (hinfo : graph entry.fileId.val = some (infoOf entry))
    (hdirectory : entry.isDirectory = true) (hne : normalizedParent entry ≠ ntfsRootRecord)
    {path : String} (hpath : StreamPath graph rootText (normalizedParent entry) path) :
    StreamPath graph rootText entry.fileId.val (joinPath path entry.name) :=
  .under hinfo hdirectory (above_of_ne_root hne) hne hpath

end Rule

namespace NtfsStreamState

/-- No bucket is empty. -/
def Occupied (state : NtfsStreamState) : Prop := ∀ parent, state.orphanDirs.find? parent ≠ some []

/-- Directories of `fed` are emitted under their paths, directories on the
worklist have an emitted parent or none at all, and waiting ones have a parent
that is not emitted. -/
structure Routed (rootText : String) (fed : List ParsedRecordOutcome) (seen : List ParsedNtfsEntry)
    (done : List (ParsedNtfsEntry × String)) (state : NtfsStreamState) : Prop
    extends Streamed rootText seen done state where
  keys : seen.map entryKey = (entriesOf fed).map entryKey
  paths : ∀ placed ∈ done,
    StreamPath (recordGraph fed) rootText placed.1.fileId.val placed.2
  onCascade : ∀ entry ∈ state.cascade,
    (state.resolvedPaths.find? (normalizedParent entry)).isSome = true ∨
      NoDirectory (recordGraph fed) (normalizedParent entry)
  unresolved : ∀ entry ∈ state.waiting, state.resolvedPaths.find? (normalizedParent entry) = none
  occupied : Occupied state

/-- Emptying a bucket removes it. -/
theorem Occupied.erase {state next : NtfsStreamState} (h : Occupied state) {key : UInt64}
    (hnext : next.orphanDirs = state.orphanDirs.erase key) : Occupied next := by
  intro parent hfind
  rw [hnext] at hfind
  by_cases hparent : parent = key
  · rw [hparent, IdMap.find?_erase_self] at hfind
    cases hfind
  · rw [IdMap.find?_erase_of_ne _ hparent] at hfind
    exact h parent hfind

theorem Occupied.drainCascade {state : NtfsStreamState} (h : Occupied state) :
    Occupied state.drainCascade :=
  (drainCascade_induction (P := Occupied) (fun _ _ _ hs ↦ hs.erase rfl) state h).1

theorem Occupied.ingestOutcome {state : NtfsStreamState} (h : Occupied state)
    (outcome : ParsedRecordOutcome) : Occupied (state.ingestOutcome outcome) := by
  cases outcome with
  | none => exact h
  | extension extension =>
      unfold Occupied
      rw [NtfsStreamState.ingestOutcome, (sameDirectories_ingestExtension state extension).orphanDirs]
      exact h
  | entry entry =>
      rw [NtfsStreamState.ingestOutcome, ingestEntry, ingestSized]
      split
      case isFalse => exact h
      case isTrue =>
        split
        case isTrue => exact h
        case isFalse =>
          split
          case isTrue =>
            apply Occupied.drainCascade
            exact h
          case isFalse =>
            intro parent hfind
            rw [IdMap.find?_push] at hfind
            split at hfind
            case isTrue => simp at hfind
            case isFalse => exact h parent hfind

theorem occupied_foldl (rootText : String) (fed : List ParsedRecordOutcome) :
    Occupied (fed.foldl ingestOutcome (emitRoot { rootText := rootText })) := by
  have hroot : Occupied (emitRoot { rootText := rootText }) := fun parent hfind ↦ by cases hfind
  generalize emitRoot { rootText := rootText } = state at hroot ⊢
  induction fed generalizing state with
  | nil => exact hroot
  | cons outcome rest ih => exact ih _ (hroot.ingestOutcome outcome)

section Step

variable {rootText : String} {fed : List ParsedRecordOutcome} {seen : List ParsedNtfsEntry}
  {done : List (ParsedNtfsEntry × String)} {state : NtfsStreamState} {entry : ParsedNtfsEntry}

/-- A streamed directory is in the graph. -/
theorem recordGraph_of_streamed (hdistinct : DistinctRecords fed)
    (hkeys : seen.map entryKey = (entriesOf fed).map entryKey)
    (hmem : entry ∈ seen.filter isStreamed) :
    recordGraph fed entry.fileId.val = some (infoOf entry) ∧ entry.isDirectory = true := by
  obtain ⟨hseen, hstreamed⟩ := List.mem_filter.mp hmem
  refine ⟨(hdistinct.recordGraph_eq_some_iff _ _).mpr ⟨isStreamed_ne_root hstreamed, ?_⟩, ?_⟩
  · rw [← hkeys]
    exact List.mem_map_of_mem (f := entryKey) hseen
  · exact (Bool.and_eq_true_iff.mp hstreamed).1

/-- Emitting the end of the worklist gives it its path. -/
theorem Routed.emitDirectory (h : Routed rootText fed seen done state)
    (hdistinct : DistinctRecords fed) (hlast : state.cascade.getLast? = some entry) :
    Routed rootText fed seen (done ++ [state.placedLast entry])
      (state.popCascade.emitDirectory entry) := by
  obtain ⟨front, hfront⟩ := List.getLast?_eq_some_iff.mp hlast
  have hmem : entry ∈ state.cascade := by simp [hfront]
  have hpop : state.cascade.dropLast = front := by rw [hfront, List.dropLast_concat]
  have hstreamed : entry ∈ seen.filter isStreamed := by
    apply h.accounted.mem_iff.mp
    simp [hmem]
  obtain ⟨hinfo, hdirectory⟩ := recordGraph_of_streamed hdistinct h.keys hstreamed
  refine ⟨h.toStreamed.emitDirectory hlast, h.keys, ?_, ?_, ?_, h.occupied.erase rfl⟩
  · intro placed hplaced
    rcases List.mem_append.mp hplaced with hold | hnew
    · exact h.paths placed hold
    · obtain rfl := List.mem_singleton.mp hnew
      rw [placedLast, cascadePath]
      cases hparent : state.resolvedPaths.find? (normalizedParent entry) with
      | none =>
          have hresolved := h.onCascade entry hmem
          rw [hparent] at hresolved
          rw [Option.getD_none, h.root]
          exact streamPath_top hinfo hdirectory (Or.inr (hresolved.resolve_left Bool.false_ne_true))
      | some path =>
          rcases h.resolved _ path hparent with ⟨hroot, rfl⟩ | ⟨parent, hdone, hid⟩
          · exact streamPath_top hinfo hdirectory (Or.inl hroot)
          · have hpath := h.paths _ hdone
            rw [hid] at hpath
            have hparentStreamed : parent ∈ seen.filter isStreamed := by
              apply h.accounted.mem_iff.mp
              exact List.mem_append_left _ (List.mem_map.mpr ⟨_, hdone, rfl⟩)
            have hne := isStreamed_ne_root (List.mem_filter.mp hparentStreamed).2
            rw [hid] at hne
            exact streamPath_under hinfo hdirectory hne hpath
  · intro other hother
    rw [NtfsStreamState.emitDirectory, popCascade, IdMap.find?_set]
    split
    case isTrue => exact Or.inl rfl
    case isFalse hne =>
      rw [NtfsStreamState.emitDirectory, popCascade, hpop] at hother
      rcases List.mem_append.mp hother with hold | hchild
      · apply h.onCascade
        rw [hfront]
        exact List.mem_append_left _ hold
      · -- Children come from the bucket of the emitted directory.
        cases hfind : state.orphanDirs.find? entry.fileId.val with
        | none => simp [IdMap.bucket, hfind] at hchild
        | some children =>
            simp only [IdMap.bucket, hfind, Option.getD_some] at hchild
            exact (hne (h.buckets _ children hfind other hchild)).elim
  · intro other hother
    obtain ⟨hne, hwaiting⟩ := h.toStreamed.parent_ne_of_erase hother
    rw [NtfsStreamState.emitDirectory, popCascade, IdMap.find?_set_of_ne _ _ hne]
    exact h.unresolved other hwaiting

theorem Routed.drainCascade (h : Routed rootText fed seen done state)
    (hdistinct : DistinctRecords fed) :
    (∃ done, Routed rootText fed seen done state.drainCascade) ∧ state.drainCascade.cascade = [] := by
  refine drainCascade_induction (P := fun s ↦ ∃ done, Routed rootText fed seen done s) ?_ state
    ⟨done, h⟩
  rintro s entry hlast ⟨done, hs⟩
  exact ⟨_, hs.emitDirectory hdistinct hlast⟩

/-- A bucket without a directory for its key is released under the root. -/
theorem Routed.releaseBucket (h : Routed rootText fed seen done state)
    (hdistinct : DistinctRecords fed) (hcascade : state.cascade = []) {parent : UInt64}
    (hparent : NoDirectory (recordGraph fed) parent) :
    (∃ done, Routed rootText fed seen done (state.releaseBucket parent)) ∧
      (state.releaseBucket parent).cascade = [] := by
  rw [NtfsStreamState.releaseBucket]
  split
  case h_2 => exact ⟨⟨done, h⟩, hcascade⟩
  case h_1 children hfind =>
    refine Routed.drainCascade ⟨h.toStreamed.moveBucket hfind, h.keys, h.paths, ?_, ?_,
      h.occupied.erase rfl⟩ hdistinct
    · intro entry hentry
      rw [hcascade, List.nil_append] at hentry
      rw [h.buckets parent children hfind entry hentry]
      exact Or.inr hparent
    · intro entry hentry
      exact h.unresolved entry (h.toStreamed.parent_ne_of_erase hentry).2

/-- A key that is neither emitted nor waiting is that of no directory. -/
theorem Routed.noDirectory_of_key (h : Routed rootText fed seen done state)
    (hdistinct : DistinctRecords fed) (hcascade : state.cascade = []) {key : UInt64}
    (hkey : state.resolvedPaths.find? key = none)
    (hwaiting : key ∉ state.waiting.map (fun entry ↦ entry.fileId.val)) :
    NoDirectory (recordGraph fed) key := by
  intro info hinfo
  by_contra hdirectory
  obtain ⟨hne, hmem⟩ := (hdistinct.recordGraph_eq_some_iff key info).mp hinfo
  rw [← h.keys] at hmem
  obtain ⟨entry, hseen, hentry⟩ := List.mem_map.mp hmem
  obtain ⟨rfl, rfl⟩ := Prod.ext_iff.mp hentry
  have hstreamed : isStreamed entry = true :=
    Bool.and_eq_true_iff.mpr ⟨Bool.eq_true_of_not_eq_false hdirectory, decide_eq_true hne⟩
  have haccounted := h.accounted.mem_iff.mpr (List.mem_filter.mpr ⟨hseen, hstreamed⟩)
  rw [hcascade, List.nil_append] at haccounted
  rcases List.mem_append.mp haccounted with hdone | hwaits
  · obtain ⟨placed, hplaced, rfl⟩ := List.mem_map.mp hdone
    have hresolved := h.doneResolved placed hplaced
    rw [show state.resolvedPaths.find? placed.1.fileId.val = none from hkey] at hresolved
    cases hresolved
  · exact hwaiting (List.mem_map.mpr ⟨entry, hwaits, rfl⟩)

/-- Without cycles some bucket's key does not wait. -/
theorem Routed.exists_key_notMem_waiting (h : Routed rootText fed seen done state)
    (hdistinct : DistinctRecords fed) (hends : ∀ id, Ends (directoryAbove (recordGraph fed)) id) {key : UInt64}
    (hkey : key ∈ state.orphanKeys) :
    ∃ key ∈ state.orphanKeys, key ∉ state.waiting.map (fun entry ↦ entry.fileId.val) := by
  by_contra! hall
  have hnone : ∀ id, id ∉ state.waiting.map (fun entry ↦ entry.fileId.val) := by
    intro id
    refine Ends.induction (P := fun id ↦
      id ∉ state.waiting.map (fun entry ↦ entry.fileId.val)) ?_ (hends id)
    intro id ih hid
    obtain ⟨entry, hwaits, rfl⟩ := List.mem_map.mp hid
    obtain ⟨parent, children, hfind, hchild⟩ := (IdMap.mem_elements_iff _ entry).mp hwaits
    obtain rfl := h.buckets parent children hfind entry hchild
    have hparent : normalizedParent entry ∈ state.orphanKeys :=
      List.mem_map.mpr ⟨_, (IdMap.find?_eq_some_iff _ _ children).mp hfind, rfl⟩
    have hne : normalizedParent entry ≠ ntfsRootRecord := by
      intro hroot
      have hunresolved := h.unresolved entry hwaits
      rw [hroot, h.rootResolved] at hunresolved
      cases hunresolved
    have hstreamed : entry ∈ seen.filter isStreamed := by
      apply h.accounted.mem_iff.mp
      exact List.mem_append_right _ (List.mem_append_right _ hwaits)
    obtain ⟨hinfo, hdirectory⟩ := recordGraph_of_streamed hdistinct h.keys hstreamed
    exact ih _ (directoryAbove_of_above hinfo hdirectory (above_of_ne_root hne)) (hall _ hparent)
  exact hnone key (hall key hkey)

/-- The buckets released in a round are those of no directory. -/
theorem Routed.noDirectory_of_stuck (h : Routed rootText fed seen done state)
    (hdistinct : DistinctRecords fed) (hends : ∀ id, Ends (directoryAbove (recordGraph fed)) id)
    (hcascade : state.cascade = []) {key : UInt64} (hkey : key ∈ state.stuckKeys) :
    NoDirectory (recordGraph fed) key := by
  rw [stuckKeys, KeyOrder.mem_sortByKey] at hkey
  split at hkey
  case isTrue hempty =>
    -- With buckets left one of them can be released, so there are none.
    have hmin : key ∈ state.orphanKeys := List.min?_mem (Option.mem_toList.mp hkey)
    obtain ⟨free, hfree, hwaiting⟩ := h.exists_key_notMem_waiting hdistinct hends hmin
    rw [List.isEmpty_iff, List.filter_eq_nil_iff] at hempty
    exact (hempty free hfree (decide_eq_true hwaiting)).elim
  case isFalse =>
    obtain ⟨hmem, hwaiting⟩ := List.mem_filter.mp hkey
    refine h.noDirectory_of_key hdistinct hcascade ?_ (of_decide_eq_true hwaiting)
    obtain ⟨⟨parent, children⟩, hpair, rfl⟩ := List.mem_map.mp hmem
    have hfind := (IdMap.find?_eq_some_iff _ _ children).mpr hpair
    obtain ⟨child, rest, rfl⟩ := List.exists_cons_of_ne_nil fun hnil ↦ h.occupied parent (hnil ▸ hfind)
    have hparent := h.buckets parent _ hfind child List.mem_cons_self
    have hwaits : child ∈ state.waiting :=
      (IdMap.mem_elements_iff _ child).mpr ⟨parent, _, hfind, List.mem_cons_self⟩
    rw [← hparent]
    exact h.unresolved child hwaits

theorem Routed.finishRound (h : Routed rootText fed seen done state)
    (hdistinct : DistinctRecords fed) (hends : ∀ id, Ends (directoryAbove (recordGraph fed)) id)
    (hcascade : state.cascade = []) :
    (∃ done, Routed rootText fed seen done state.finishRound) ∧ state.finishRound.cascade = [] := by
  have hkeys : ∀ key ∈ state.stuckKeys, NoDirectory (recordGraph fed) key := fun key hkey ↦
    h.noDirectory_of_stuck hdistinct hends hcascade hkey
  rw [NtfsStreamState.finishRound]
  generalize state.stuckKeys = keys at hkeys
  induction keys generalizing state done with
  | nil => exact ⟨⟨done, h⟩, hcascade⟩
  | cons key rest ih =>
      obtain ⟨⟨next, hrelease⟩, hempty⟩ :=
        h.releaseBucket hdistinct hcascade (hkeys key List.mem_cons_self)
      exact ih hrelease hempty fun other hother ↦ hkeys other (List.mem_cons_of_mem key hother)

theorem Routed.finish (h : Routed rootText fed seen done state)
    (hdistinct : DistinctRecords fed) (hends : ∀ id, Ends (directoryAbove (recordGraph fed)) id)
    (hcascade : state.cascade = []) :
    (∃ done, Routed rootText fed seen done state.finish) ∧ state.finish.cascade = [] ∧
      state.finish.orphanDirs.records = [] := by
  induction state using NtfsStreamState.finish.induct generalizing done with
  | case1 state hempty =>
      rw [NtfsStreamState.finish, dif_pos hempty]
      exact ⟨⟨done, h⟩, hcascade, List.isEmpty_iff.mp hempty⟩
  | case2 state hempty ih =>
      obtain ⟨⟨next, hround⟩, hdrained⟩ := h.finishRound hdistinct hends hcascade
      rw [NtfsStreamState.finish, dif_neg hempty]
      exact ih hround hdrained

/-- While records come in, what stands under its parent has its path. -/
theorem streamPath_of_placed
    (hinfos : ∀ placed ∈ done, recordGraph fed placed.1.fileId.val = some (infoOf placed.1) ∧
      placed.1.isDirectory = true ∧ placed.1.fileId.val ≠ ntfsRootRecord)
    (h : Placed rootText done) : ∀ placed ∈ done,
      StreamPath (recordGraph fed) rootText placed.1.fileId.val placed.2 := by
  induction h with
  | nil => exact fun placed hplaced ↦ by cases hplaced
  | @snoc earlier last _ hunder ih =>
      have hearlier := ih fun placed hplaced ↦ hinfos placed (List.mem_append_left _ hplaced)
      intro placed hplaced
      rcases List.mem_append.mp hplaced with hold | hnew
      · exact hearlier placed hold
      · obtain rfl := List.mem_singleton.mp hnew
        obtain ⟨hinfo, hdirectory, -⟩ := hinfos placed (List.mem_append_right _ hnew)
        obtain ⟨parentPath, hpath, ⟨hroot, rfl⟩ | ⟨parent, hparent, hid⟩⟩ := hunder
        · rw [hpath]
          exact streamPath_top hinfo hdirectory (Or.inl hroot)
        · obtain ⟨-, -, hne⟩ := hinfos _ (List.mem_append_left _ hparent)
          have hparentPath := hearlier _ hparent
          rw [hid] at hne hparentPath
          rw [hpath]
          exact streamPath_under hinfo hdirectory hne hparentPath

/-- Once all records are in, directories are emitted or wait as the rule has it. -/
theorem exists_routed (rootText : String) (hdistinct : DistinctRecords fed) :
    ∃ seen done, Routed rootText fed seen done
      (fed.foldl ingestOutcome (emitRoot { rootText := rootText })) := by
  have hfed := fed_foldl rootText fed
  obtain ⟨seen, done, hsettled, hkeys⟩ := hfed.settled
  refine ⟨seen, done, hsettled.toStreamed, hkeys, ?_, ?_, hsettled.unresolved,
    occupied_foldl rootText fed⟩
  · refine streamPath_of_placed (fun placed hplaced ↦ ?_) hsettled.placed
    have hstreamed : placed.1 ∈ seen.filter isStreamed := by
      apply hsettled.accounted.mem_iff.mp
      exact List.mem_append_left _ (List.mem_map_of_mem hplaced)
    obtain ⟨hinfo, hdirectory⟩ := recordGraph_of_streamed hdistinct hkeys hstreamed
    exact ⟨hinfo, hdirectory, isStreamed_ne_root (List.mem_filter.mp hstreamed).2⟩
  · exact fun entry hentry ↦ Or.inl (hsettled.onCascade entry hentry)

end Step

/-- The streaming backend emits the root and every directory under its path of
the streaming rule. -/
theorem givesPath_enumerateOutcomes_iff (rootText : String) {fed : List ParsedRecordOutcome}
    (hdistinct : DistinctRecords fed) (hends : ∀ id, Ends (directoryAbove (recordGraph fed)) id) (id : UInt64)
    (path : String) :
    GivesPath (enumerateOutcomes rootText fed).emittedDirectories id path ↔
      (id = ntfsRootRecord ∧ path = rootText) ∨ StreamPath (recordGraph fed) rootText id path := by
  obtain ⟨seen, start, hstart⟩ := exists_routed rootText hdistinct
  obtain ⟨⟨done, h⟩, hcascade, horphans⟩ :=
    hstart.finish hdistinct hends (fed_foldl rootText fed).drained
  have hemitted : (enumerateOutcomes rootText fed).emittedDirectories = rootDirectory rootText ::
      done.map (fun placed ↦ streamDirectory placed.1 placed.2) := h.emitted
  rw [hemitted]
  constructor
  · rintro ⟨directory, hmem, rfl, rfl⟩
    rcases List.mem_cons.mp hmem with rfl | hdone
    · exact Or.inl ⟨rfl, rfl⟩
    · obtain ⟨placed, hplaced, rfl⟩ := List.mem_map.mp hdone
      exact Or.inr (h.paths placed hplaced)
  · rintro (⟨rfl, rfl⟩ | hpath)
    · exact ⟨rootDirectory path, List.mem_cons_self, rfl, rfl⟩
    · obtain ⟨info, hinfo, hdirectory⟩ := hpath.exists_info
      obtain ⟨hne, hkey⟩ := (hdistinct.recordGraph_eq_some_iff id info).mp hinfo
      rw [← h.keys] at hkey
      obtain ⟨entry, hseen, hentry⟩ := List.mem_map.mp hkey
      obtain ⟨rfl, rfl⟩ := Prod.ext_iff.mp hentry
      have hstreamed : isStreamed entry = true :=
        Bool.and_eq_true_iff.mpr ⟨hdirectory, decide_eq_true hne⟩
      have haccounted := h.accounted.mem_iff.mpr (List.mem_filter.mpr ⟨hseen, hstreamed⟩)
      have hwaiting : waiting (finish (fed.foldl ingestOutcome (emitRoot { rootText := rootText }))) =
          [] := by
        rw [waiting, IdMap.elements, horphans]
        rfl
      rw [hcascade, hwaiting, List.append_nil, List.append_nil] at haccounted
      obtain ⟨placed, hplaced, rfl⟩ := List.mem_map.mp haccounted
      refine ⟨streamDirectory placed.1 placed.2,
        List.mem_cons_of_mem _ (List.mem_map.mpr ⟨placed, hplaced, rfl⟩), rfl, ?_⟩
      exact (h.paths placed hplaced).unique hpath

end NtfsStreamState

end Ntfs

end WinBlaze
