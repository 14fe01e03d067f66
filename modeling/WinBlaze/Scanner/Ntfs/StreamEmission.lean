import WinBlaze.Scanner.Ntfs.Stream

/-!
# What the streaming enumeration emits

Every directory taken in is emitted, on the worklist or in a bucket. While
entries come in only buckets with an unresolved parent are left, so whatever
hangs on the root is emitted behind its parent and under its parent's path.
-/

namespace WinBlaze

def ScanEvent.directory? : ScanEvent → Option DirectoryRecord
  | .directoryFound directory => some directory
  | _ => none

def ScanEvent.file? : ScanEvent → Option FileRecord
  | .fileFound file => some file
  | _ => none

namespace Ntfs

/-- A directory entry other than the root. -/
def isStreamed (entry : ParsedNtfsEntry) : Bool :=
  entry.isDirectory && entry.fileId.val ≠ ntfsRootRecord

/-- A directory with its path stands under one of the earlier ones or the root. -/
def UnderParent (rootText : String) (earlier : List (ParsedNtfsEntry × String))
    (placed : ParsedNtfsEntry × String) : Prop :=
  ∃ parentPath, placed.2 = joinPath parentPath placed.1.name ∧
    ((normalizedParent placed.1 = ntfsRootRecord ∧ parentPath = rootText) ∨
      ∃ parent, (parent, parentPath) ∈ earlier ∧ parent.fileId.val = normalizedParent placed.1)

/-- Directories with their paths, each behind its parent. -/
inductive Placed (rootText : String) : List (ParsedNtfsEntry × String) → Prop
  | nil : Placed rootText []
  | snoc {earlier : List (ParsedNtfsEntry × String)} {placed : ParsedNtfsEntry × String} :
      Placed rootText earlier → UnderParent rootText earlier placed →
        Placed rootText (earlier ++ [placed])

theorem Placed.exists_split {rootText : String} {done : List (ParsedNtfsEntry × String)}
    (h : Placed rootText done) {placed : ParsedNtfsEntry × String} (hmem : placed ∈ done) :
    ∃ earlier later, done = earlier ++ placed :: later ∧ UnderParent rootText earlier placed := by
  induction h with
  | nil => cases hmem
  | @snoc earlier last hplaced hunder ih =>
      rcases List.mem_append.mp hmem with hearlier | hlast
      · obtain ⟨before, after, rfl, hbefore⟩ := ih hearlier
        exact ⟨before, after ++ [last], by simp, hbefore⟩
      · obtain rfl := List.mem_singleton.mp hlast
        exact ⟨earlier, [], rfl, hunder⟩

namespace NtfsStreamState

/-- The directories of `seen` are emitted (as `done`, in this order), on the
worklist or waiting in the bucket of their parent. -/
structure Streamed (rootText : String) (seen : List ParsedNtfsEntry)
    (done : List (ParsedNtfsEntry × String)) (state : NtfsStreamState) : Prop where
  root : state.rootText = rootText
  emitted : state.events.filterMap ScanEvent.directory? =
    rootDirectory rootText :: done.map (fun placed ↦ streamDirectory placed.1 placed.2)
  accounted : (done.map Prod.fst ++ (state.cascade ++ state.waiting)).Perm (seen.filter isStreamed)
  rootResolved : state.resolvedPaths.find? ntfsRootRecord = some rootText
  doneResolved : ∀ placed ∈ done, (state.resolvedPaths.find? placed.1.fileId.val).isSome = true
  resolved : ∀ id path, state.resolvedPaths.find? id = some path →
    (id = ntfsRootRecord ∧ path = rootText) ∨
      ∃ entry, (entry, path) ∈ done ∧ entry.fileId.val = id
  buckets : ∀ parent children, state.orphanDirs.find? parent = some children →
    ∀ child ∈ children, normalizedParent child = parent

/-- While entries come in, directories wait only for parents without a path,
and the worklist holds only directories whose parent has one. -/
structure Settled (rootText : String) (seen : List ParsedNtfsEntry)
    (done : List (ParsedNtfsEntry × String)) (state : NtfsStreamState) : Prop
    extends Streamed rootText seen done state where
  placed : Placed rootText done
  onCascade : ∀ entry ∈ state.cascade,
    (state.resolvedPaths.find? (normalizedParent entry)).isSome = true
  unresolved : ∀ entry ∈ state.waiting, state.resolvedPaths.find? (normalizedParent entry) = none

section Step

variable {rootText : String} {seen : List ParsedNtfsEntry}
  {done : List (ParsedNtfsEntry × String)} {state : NtfsStreamState} {entry : ParsedNtfsEntry}

/-- The directory at the end of the worklist, with the path it is emitted under. -/
def placedLast (state : NtfsStreamState) (entry : ParsedNtfsEntry) : ParsedNtfsEntry × String :=
  (entry, state.cascadePath entry)

theorem Streamed.isStreamed_of_cascade (h : Streamed rootText seen done state)
    (hmem : entry ∈ state.cascade) : isStreamed entry = true := by
  have hseen : entry ∈ seen.filter isStreamed := by
    apply h.accounted.mem_iff.mp
    simp [hmem]
  exact (List.mem_filter.mp hseen).2

theorem isStreamed_ne_root (h : isStreamed entry = true) : entry.fileId.val ≠ ntfsRootRecord := by
  rw [isStreamed, Bool.and_eq_true] at h
  exact of_decide_eq_true h.2

/-- Elements left in the buckets are not in the one that was emptied. -/
theorem Streamed.parent_ne_of_erase (h : Streamed rootText seen done state) {key : UInt64}
    {child : ParsedNtfsEntry} (hchild : child ∈ (state.orphanDirs.erase key).elements) :
    normalizedParent child ≠ key ∧ child ∈ state.waiting := by
  obtain ⟨parent, children, hfind, hmem⟩ := (IdMap.mem_elements_iff _ child).mp hchild
  have hne : parent ≠ key := by
    rintro rfl
    rw [IdMap.find?_erase_self] at hfind
    cases hfind
  rw [IdMap.find?_erase_of_ne state.orphanDirs hne] at hfind
  refine ⟨?_, (IdMap.mem_elements_iff _ child).mpr ⟨parent, children, hfind, hmem⟩⟩
  rw [h.buckets parent children hfind child hmem]
  exact hne

theorem Streamed.emitDirectory (h : Streamed rootText seen done state)
    (hlast : state.cascade.getLast? = some entry) :
    Streamed rootText seen (done ++ [state.placedLast entry])
      (state.popCascade.emitDirectory entry) := by
  obtain ⟨front, hfront⟩ := List.getLast?_eq_some_iff.mp hlast
  have hmem : entry ∈ state.cascade := by simp [hfront]
  have hroot := isStreamed_ne_root (h.isStreamed_of_cascade hmem)
  have hpop : state.cascade.dropLast = front := by rw [hfront, List.dropLast_concat]
  refine ⟨h.root, ?_, ?_, ?_, ?_, ?_, ?_⟩
  · rw [NtfsStreamState.emitDirectory, popCascade, List.filterMap_append, h.emitted]
    simp [ScanEvent.directory?, placedLast, cascadePath]
  · have hwaiting := IdMap.elements_perm_erase state.orphanDirs entry.fileId.val
    have hold := h.accounted
    simp only [NtfsStreamState.emitDirectory, popCascade, waiting, hpop, List.map_append,
      List.map_cons, List.map_nil, placedLast] at hold ⊢
    rw [hfront] at hold
    refine List.Perm.trans ?_ hold
    -- The entry moves from the end of the worklist to the end of `done`.
    rw [List.append_assoc]
    apply List.Perm.append_left
    have hmove : ([entry] ++ (front ++ state.orphanDirs.bucket entry.fileId.val ++
        (state.orphanDirs.erase entry.fileId.val).elements)).Perm
        (front ++ [entry] ++ (state.orphanDirs.bucket entry.fileId.val ++
          (state.orphanDirs.erase entry.fileId.val).elements)) := by
      rw [List.append_assoc front, List.append_assoc front, List.singleton_append,
        List.singleton_append]
      exact List.perm_middle.symm
    exact hmove.trans (hwaiting.symm.append_left _)
  · rw [NtfsStreamState.emitDirectory, popCascade, IdMap.find?_set_of_ne _ _ hroot.symm]
    exact h.rootResolved
  · intro placed hplaced
    rw [NtfsStreamState.emitDirectory, popCascade, IdMap.find?_set]
    split
    case isTrue => rfl
    case isFalse hne =>
      rcases List.mem_append.mp hplaced with hdone | hnew
      · exact h.doneResolved placed hdone
      · obtain rfl := List.mem_singleton.mp hnew
        exact (hne rfl).elim
  · intro id path hfind
    rw [NtfsStreamState.emitDirectory, popCascade, IdMap.find?_set] at hfind
    split at hfind
    case isTrue hid =>
      refine Or.inr ⟨entry, ?_, hid.symm⟩
      rw [← Option.some.inj hfind]
      exact List.mem_append_right _ (List.mem_singleton.mpr rfl)
    case isFalse =>
      rcases h.resolved id path hfind with hroot | ⟨other, hother, hid⟩
      · exact Or.inl hroot
      · exact Or.inr ⟨other, List.mem_append_left _ hother, hid⟩
  · intro parent children hfind
    have hne : parent ≠ entry.fileId.val := by
      rintro rfl
      rw [NtfsStreamState.emitDirectory, popCascade, IdMap.find?_erase_self] at hfind
      cases hfind
    rw [NtfsStreamState.emitDirectory, popCascade,
      IdMap.find?_erase_of_ne state.orphanDirs hne] at hfind
    exact h.buckets parent children hfind

theorem Settled.emitDirectory (h : Settled rootText seen done state)
    (hlast : state.cascade.getLast? = some entry) :
    Settled rootText seen (done ++ [state.placedLast entry])
      (state.popCascade.emitDirectory entry) := by
  obtain ⟨front, hfront⟩ := List.getLast?_eq_some_iff.mp hlast
  have hmem : entry ∈ state.cascade := by simp [hfront]
  have hpop : state.cascade.dropLast = front := by rw [hfront, List.dropLast_concat]
  refine ⟨h.toStreamed.emitDirectory hlast, ?_, ?_, ?_⟩
  · obtain ⟨parentPath, hparent⟩ := Option.isSome_iff_exists.mp (h.onCascade entry hmem)
    refine h.placed.snoc ⟨parentPath, ?_, ?_⟩
    · rw [placedLast, cascadePath, hparent, Option.getD_some]
    · rcases h.resolved _ parentPath hparent with ⟨hroot, hpath⟩ | ⟨parent, hdone, hid⟩
      · exact Or.inl ⟨hroot, hpath⟩
      · exact Or.inr ⟨parent, hdone, hid⟩
  · intro other hother
    rw [NtfsStreamState.emitDirectory, popCascade, IdMap.find?_set]
    split
    case isTrue => rfl
    case isFalse hne =>
      rw [NtfsStreamState.emitDirectory, popCascade, hpop] at hother
      rcases List.mem_append.mp hother with hold | hchild
      · apply h.onCascade
        rw [hfront]
        exact List.mem_append_left _ hold
      · -- Children come from the bucket of the emitted directory.
        cases hfind : state.orphanDirs.find? entry.fileId.val with
        | none => simp [IdMap.bucket, hfind] at hchild
        | some children =>
            simp only [IdMap.bucket, hfind, Option.getD_some] at hchild
            exact (hne (h.buckets _ children hfind other hchild)).elim
  · intro other hother
    obtain ⟨hne, hwaiting⟩ := h.toStreamed.parent_ne_of_erase hother
    rw [NtfsStreamState.emitDirectory, popCascade, IdMap.find?_set_of_ne _ _ hne]
    exact h.unresolved other hwaiting

end Step

section Run

variable {rootText : String} {seen : List ParsedNtfsEntry}
  {done : List (ParsedNtfsEntry × String)} {state : NtfsStreamState}

/-! ## Taking in entries -/

theorem Settled.drainCascade (h : Settled rootText seen done state) :
    (∃ done, Settled rootText seen done state.drainCascade) ∧ state.drainCascade.cascade = [] := by
  refine drainCascade_induction (P := fun s ↦ ∃ done, Settled rootText seen done s) ?_ state ⟨done, h⟩
  rintro s entry hlast ⟨done, hs⟩
  exact ⟨_, hs.emitDirectory hlast⟩

/-- Nothing about directories changed. -/
structure SameDirectories (state next : NtfsStreamState) : Prop where
  rootText : next.rootText = state.rootText
  resolvedPaths : next.resolvedPaths = state.resolvedPaths
  orphanDirs : next.orphanDirs = state.orphanDirs
  cascade : next.cascade = state.cascade
  emitted : next.events.filterMap ScanEvent.directory? = state.events.filterMap ScanEvent.directory?

theorem Settled.frame (h : Settled rootText seen done state) {next : NtfsStreamState}
    (hsame : SameDirectories state next) {seen' : List ParsedNtfsEntry}
    (hseen : seen'.filter isStreamed = seen.filter isStreamed) :
    Settled rootText seen' done next := by
  have hwaiting : next.waiting = state.waiting := by rw [waiting, hsame.orphanDirs, waiting]
  refine ⟨⟨?_, ?_, ?_, ?_, ?_, ?_, ?_⟩, h.placed, ?_, ?_⟩
  · rw [hsame.rootText, h.root]
  · rw [hsame.emitted, h.emitted]
  · rw [hsame.cascade, hwaiting, hseen]
    exact h.accounted
  · rw [hsame.resolvedPaths]
    exact h.rootResolved
  · rw [hsame.resolvedPaths]
    exact h.doneResolved
  · rw [hsame.resolvedPaths]
    exact h.resolved
  · rw [hsame.orphanDirs]
    exact h.buckets
  · rw [hsame.cascade, hsame.resolvedPaths]
    exact h.onCascade
  · rw [hwaiting, hsame.resolvedPaths]
    exact h.unresolved

theorem sameDirectories_emitFile (state : NtfsStreamState) (entry : ParsedNtfsEntry) :
    SameDirectories state (state.emitFile entry) := by
  refine ⟨rfl, rfl, rfl, rfl, ?_⟩
  rw [emitFile, List.filterMap_append]
  exact List.append_nil _

/-- A directory whose parent has a path goes on the worklist. -/
theorem Settled.push_cascade (h : Settled rootText seen done state) {entry : ParsedNtfsEntry}
    (hentry : isStreamed entry = true)
    (hparent : (state.resolvedPaths.find? (normalizedParent entry)).isSome = true) :
    Settled rootText (seen ++ [entry]) done { state with cascade := state.cascade ++ [entry] } := by
  refine ⟨⟨h.root, h.emitted, ?_, h.rootResolved, h.doneResolved, h.resolved, h.buckets⟩, h.placed,
    ?_, h.unresolved⟩
  · have hfilter : (seen ++ [entry]).filter isStreamed = seen.filter isStreamed ++ [entry] := by
      simp [hentry]
    rw [hfilter]
    refine List.Perm.trans ?_ (h.accounted.append_right [entry])
    rw [List.append_assoc (done.map Prod.fst)]
    apply List.Perm.append_left
    rw [List.append_assoc, List.append_assoc]
    exact List.Perm.append_left _ List.perm_append_comm
  · intro other hother
    rcases List.mem_append.mp hother with hold | hnew
    · exact h.onCascade other hold
    · rwa [List.mem_singleton.mp hnew]

/-- A directory whose parent has no path yet waits in its bucket. -/
theorem Settled.push_orphan (h : Settled rootText seen done state) {entry : ParsedNtfsEntry}
    (hentry : isStreamed entry = true)
    (hparent : state.resolvedPaths.find? (normalizedParent entry) = none) :
    Settled rootText (seen ++ [entry]) done
      { state with orphanDirs := state.orphanDirs.push (normalizedParent entry) entry } := by
  have hwaiting := IdMap.elements_push_perm state.orphanDirs (normalizedParent entry) entry
  refine ⟨⟨h.root, h.emitted, ?_, h.rootResolved, h.doneResolved, h.resolved, ?_⟩, h.placed,
    h.onCascade, ?_⟩
  · have hfilter : (seen ++ [entry]).filter isStreamed = seen.filter isStreamed ++ [entry] := by
      simp [hentry]
    rw [hfilter]
    refine List.Perm.trans ?_ (h.accounted.append_right [entry])
    rw [List.append_assoc (done.map Prod.fst)]
    apply List.Perm.append_left
    rw [List.append_assoc]
    apply List.Perm.append_left
    exact hwaiting.trans (List.perm_append_singleton entry _).symm
  · intro parent children hfind child hchild
    rw [IdMap.find?_push] at hfind
    split at hfind
    case isTrue heq =>
      rw [← Option.some.inj hfind, List.mem_append, List.mem_singleton] at hchild
      rcases hchild with hold | rfl
      · cases hbucket : state.orphanDirs.find? (normalizedParent entry) with
        | none => simp [IdMap.bucket, hbucket] at hold
        | some old =>
            simp only [IdMap.bucket, hbucket, Option.getD_some] at hold
            rw [heq]
            exact h.buckets _ old hbucket child hold
      · exact heq.symm
    case isFalse => exact h.buckets parent children hfind child hchild
  · intro other hother
    rcases List.mem_cons.mp (hwaiting.mem_iff.mp hother) with rfl | hold
    · exact hparent
    · exact h.unresolved other hold

theorem Settled.ingestSized (h : Settled rootText seen done state) (hcascade : state.cascade = [])
    (entry : ParsedNtfsEntry) :
    (∃ done, Settled rootText (seen ++ [entry]) done (state.ingestSized entry)) ∧
      (state.ingestSized entry).cascade = [] := by
  rw [NtfsStreamState.ingestSized]
  cases hdirectory : entry.isDirectory with
  | false =>
      have hseen : (seen ++ [entry]).filter isStreamed = seen.filter isStreamed := by
        simp [isStreamed, hdirectory]
      exact ⟨⟨done, h.frame (sameDirectories_emitFile state entry) hseen⟩, hcascade⟩
  | true =>
      rw [if_pos rfl]
      by_cases hroot : entry.fileId.val = ntfsRootRecord
      · have hseen : (seen ++ [entry]).filter isStreamed = seen.filter isStreamed := by
          simp [isStreamed, hroot]
        rw [if_pos hroot]
        exact ⟨⟨done, h.frame ⟨rfl, rfl, rfl, rfl, rfl⟩ hseen⟩, hcascade⟩
      · have hentry : isStreamed entry = true := by
          rw [isStreamed, hdirectory]
          exact decide_eq_true hroot
        rw [if_neg hroot]
        by_cases hparent :
            (state.resolvedPaths.find? (normalizedParent entry)).isSome = true
        · rw [if_pos hparent]
          exact (h.push_cascade hentry hparent).drainCascade
        · rw [if_neg hparent]
          have hnone := Option.not_isSome_iff_eq_none.mp hparent
          exact ⟨⟨done, h.push_orphan hentry hnone⟩, hcascade⟩

theorem settled_emitRoot (rootText : String) :
    Settled rootText [] [] (emitRoot { rootText := rootText }) := by
  refine ⟨⟨rfl, rfl, List.Perm.refl _, ?_, ?_, ?_, ?_⟩, .nil, ?_, ?_⟩
  · exact IdMap.find?_set_self _ _ _
  · intro placed hplaced
    cases hplaced
  · intro id path hfind
    rw [emitRoot, IdMap.find?_set] at hfind
    split at hfind
    case isTrue hid => exact Or.inl ⟨hid, (Option.some.inj hfind).symm⟩
    case isFalse => cases hfind
  · intro parent children hfind
    cases hfind
  · intro entry hentry
    cases hentry
  · intro entry hentry
    cases hentry

/-! ## The final pass -/

/-- Directories emitted later go behind those emitted already. -/
theorem Streamed.drainCascade (h : Streamed rootText seen done state) :
    (∃ later, Streamed rootText seen (done ++ later) state.drainCascade) ∧
      state.drainCascade.cascade = [] := by
  refine drainCascade_induction (P := fun s ↦ ∃ later, Streamed rootText seen (done ++ later) s)
    ?_ state ⟨[], by rwa [List.append_nil]⟩
  rintro s entry hlast ⟨later, hs⟩
  have hnext := hs.emitDirectory hlast
  rw [List.append_assoc] at hnext
  exact ⟨_, hnext⟩

/-- The directories of a bucket go on the worklist. -/
theorem Streamed.moveBucket (h : Streamed rootText seen done state) {parent : UInt64}
    {children : List ParsedNtfsEntry} (hfind : state.orphanDirs.find? parent = some children) :
    Streamed rootText seen done { state with
      orphanDirs := state.orphanDirs.erase parent
      cascade := state.cascade ++ children } := by
  refine ⟨h.root, h.emitted, ?_, h.rootResolved, h.doneResolved, h.resolved, ?_⟩
  · have hwaiting := IdMap.elements_perm_erase state.orphanDirs parent
    rw [IdMap.bucket, hfind, Option.getD_some] at hwaiting
    refine List.Perm.trans ?_ h.accounted
    apply List.Perm.append_left
    rw [List.append_assoc]
    exact List.Perm.append_left _ hwaiting.symm
  · intro key others hothers
    have hne : key ≠ parent := by
      rintro rfl
      rw [IdMap.find?_erase_self] at hothers
      cases hothers
    rw [IdMap.find?_erase_of_ne state.orphanDirs hne] at hothers
    exact h.buckets key others hothers

theorem Streamed.releaseBucket (h : Streamed rootText seen done state)
    (hcascade : state.cascade = []) (parent : UInt64) :
    (∃ later, Streamed rootText seen (done ++ later) (state.releaseBucket parent)) ∧
      (state.releaseBucket parent).cascade = [] := by
  rw [NtfsStreamState.releaseBucket]
  split
  case h_2 => exact ⟨⟨[], by rwa [List.append_nil]⟩, hcascade⟩
  case h_1 children hfind => exact (h.moveBucket hfind).drainCascade

theorem Streamed.finishRound (h : Streamed rootText seen done state)
    (hcascade : state.cascade = []) :
    (∃ later, Streamed rootText seen (done ++ later) state.finishRound) ∧
      state.finishRound.cascade = [] := by
  rw [NtfsStreamState.finishRound]
  generalize state.stuckKeys = keys
  induction keys generalizing state done with
  | nil => exact ⟨⟨[], by rwa [List.append_nil]⟩, hcascade⟩
  | cons key rest ih =>
      obtain ⟨⟨later, hrelease⟩, hempty⟩ := h.releaseBucket hcascade key
      obtain ⟨⟨last, hrest⟩, hdrained⟩ := ih hrelease hempty
      rw [List.append_assoc] at hrest
      exact ⟨⟨later ++ last, hrest⟩, hdrained⟩

theorem Streamed.finish (h : Streamed rootText seen done state) (hcascade : state.cascade = []) :
    (∃ later, Streamed rootText seen (done ++ later) state.finish) ∧
      state.finish.cascade = [] ∧ state.finish.orphanDirs.records = [] := by
  induction state using NtfsStreamState.finish.induct generalizing done with
  | case1 state hempty =>
      rw [NtfsStreamState.finish, dif_pos hempty]
      exact ⟨⟨[], by rwa [List.append_nil]⟩, hcascade, List.isEmpty_iff.mp hempty⟩
  | case2 state hempty ih =>
      obtain ⟨⟨later, hround⟩, hdrained⟩ := h.finishRound hcascade
      obtain ⟨⟨last, hfinish⟩, hrest⟩ := ih hround hdrained
      rw [NtfsStreamState.finish, dif_neg hempty]
      rw [List.append_assoc] at hfinish
      exact ⟨⟨later ++ last, hfinish⟩, hrest⟩

end Run

end NtfsStreamState

end Ntfs

end WinBlaze
