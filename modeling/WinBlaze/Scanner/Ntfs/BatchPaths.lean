import WinBlaze.Scanner.Ntfs.BatchResult
import WinBlaze.Scanner.Ntfs.FileCycles

/-!
# The paths the batch backend resolves

The cache of resolved paths only ever holds paths of the batch rule, with the
cycles cut that run through files. The directories come in the order of their
ids, and once one below a cycle has been resolved the whole cycle is cached: so
the guard against cycles stops exactly at the cut, and every directory is
enumerated under its path of the batch rule.
-/

namespace WinBlaze

namespace Ntfs

open ParentChain

def infoOf (entry : ParsedNtfsEntry) : EntryInfo :=
  ⟨entry.parentDirectoryId, entry.name, entry.isDirectory⟩

/-- The parents and names of the entries. -/
def entryGraph (entries : Entries) : EntryGraph := fun id ↦
  if id = ntfsRootRecord then none else (entries.get? id).map infoOf

theorem entryGraph_of_ne (entries : Entries) {id : UInt64} (hid : id ≠ ntfsRootRecord) :
    entryGraph entries id = (entries.get? id).map infoOf := if_neg hid

theorem ne_root_of_entryGraph {entries : Entries} {id : UInt64} {info : EntryInfo}
    (h : entryGraph entries id = some info) : id ≠ ntfsRootRecord := by
  rintro rfl
  rw [entryGraph, if_pos rfl] at h
  cases h

theorem ne_root_of_batchPath {entries : Entries} {rootText : String} {id : UInt64} {path : String}
    (h : BatchPath (cutGraph (entryGraph entries)) rootText id path) : id ≠ ntfsRootRecord := by
  obtain ⟨cut, hcut⟩ := h.exists_info
  obtain ⟨info, hinfo, -⟩ := exists_info_of_cutGraph hcut
  exact ne_root_of_entryGraph hinfo

/-- The root's own path, or the path of the batch rule. -/
def HasPath (entries : Entries) (rootText : String) (id : UInt64) (path : String) : Prop :=
  (id = ntfsRootRecord ∧ path = rootText) ∨ BatchPath (cutGraph (entryGraph entries)) rootText id path

/-- The entries on a cycle above this one are cached or still on the stack. -/
def CyclesCached (entries : Entries) (resolved : ResolvedPaths) (stack : List UInt64) (id : UInt64) : Prop :=
  ∀ top, Above (link (entryGraph entries)) top id → OnCycle (link (entryGraph entries)) top →
    (resolved.find? top).isSome = true ∨ top ∈ stack

structure CacheSound (entries : Entries) (rootText : String) (resolved : ResolvedPaths)
    (stack : List UInt64) : Prop where
  root : (resolved.find? ntfsRootRecord).isSome = true
  paths : ∀ id path, resolved.find? id = some path → HasPath entries rootText id path
  cycles : ∀ id, (resolved.find? id).isSome = true → CyclesCached entries resolved stack id

/-- A resolution that has come from `start` to `id`. -/
structure Climbing (entries : Entries) (rootText : String) (start : UInt64) (resolved : ResolvedPaths)
    (stack : List UInt64) (id : UInt64) : Prop where
  cache : CacheSound entries rootText resolved []
  directory : IsDirectory (entryGraph entries) start
  earlier : ∀ other, IsDirectory (entryGraph entries) other → other < start →
    CyclesCached entries resolved [] other
  climb : Climbs (link (entryGraph entries)) start stack id
  fresh : ∀ below ∈ stack, resolved.find? below = none
  known : id ≠ ntfsRootRecord → (entries.get? id).isSome = true

/-- What a resolution gives that is behind these entries. -/
structure Resolves (entries : Entries) (rootText : String) (resolved : ResolvedPaths)
    (stack : List UInt64) (id : UInt64) (result : String × ResolvedPaths) : Prop where
  again : id ∈ stack → result = (rootText, resolved)
  path : id ∉ stack → HasPath entries rootText id result.1
  cache : CacheSound entries rootText result.2 stack
  kept : ∀ other, (resolved.find? other).isSome = true → (result.2.find? other).isSome = true
  cycles : CyclesCached entries result.2 stack id

section Resolve

variable {entries : Entries} {rootText : String} {resolved : ResolvedPaths} {start id : UInt64}
  {stack : List UInt64}

theorem isSome_find?_set {other : UInt64} {path : String} (h : (resolved.find? other).isSome = true) :
    ((resolved.set id path).find? other).isSome = true := by
  rw [IdMap.find?_set]
  split
  case isTrue => rfl
  case isFalse => exact h

/-- Where following parents ends there are no cycles to cache. -/
theorem CyclesCached.of_ends (h : Ends (link (entryGraph entries)) id) :
    CyclesCached entries resolved stack id :=
  fun _ habove hcycle ↦ absurd hcycle (habove.not_onCycle h)

theorem CyclesCached.push (h : CyclesCached entries resolved [] id) :
    CyclesCached entries resolved stack id :=
  fun top habove hcycle ↦ Or.inl ((h top habove hcycle).resolve_right List.not_mem_nil)

theorem CyclesCached.kept {other : ResolvedPaths} (h : CyclesCached entries resolved stack id)
    (hkept : ∀ id, (resolved.find? id).isSome = true → (other.find? id).isSome = true) :
    CyclesCached entries other stack id :=
  fun top habove hcycle ↦ (h top habove hcycle).imp_left (hkept top)

/-- What leaves the stack is cached. -/
theorem CyclesCached.set {other : UInt64} {path : String}
    (h : CyclesCached entries resolved (id :: stack) other) :
    CyclesCached entries (resolved.set id path) stack other := by
  intro top habove hcycle
  rcases h top habove hcycle with hcached | hstack
  · exact Or.inl (isSome_find?_set hcached)
  · rcases List.mem_cons.mp hstack with rfl | hstack
    · left
      rw [IdMap.find?_set_self]
      rfl
    · exact Or.inr hstack

theorem CyclesCached.of_parent {parent : UInt64} (hlink : link (entryGraph entries) id = some parent)
    (h : CyclesCached entries resolved (id :: stack) parent) :
    CyclesCached entries resolved (id :: stack) id := by
  intro top habove hcycle
  by_cases hid : id = top
  · exact Or.inr (hid ▸ List.mem_cons_self)
  · exact h top ((above_iff_of_some hlink hid).mp habove) hcycle

theorem CacheSound.push (h : CacheSound entries rootText resolved []) :
    CacheSound entries rootText resolved stack :=
  ⟨h.root, h.paths, fun other hother ↦ (h.cycles other hother).push⟩

theorem CacheSound.set (h : CacheSound entries rootText resolved (id :: stack)) {path : String}
    (hpath : BatchPath (cutGraph (entryGraph entries)) rootText id path)
    (hcycles : CyclesCached entries resolved (id :: stack) id) :
    CacheSound entries rootText (resolved.set id path) stack := by
  refine ⟨isSome_find?_set h.root, fun other found hfind ↦ ?_, fun other hother ↦ ?_⟩
  · rw [IdMap.find?_set] at hfind
    split at hfind
    case isTrue heq =>
      rw [heq, ← Option.some.inj hfind]
      exact Or.inr hpath
    case isFalse => exact h.paths other found hfind
  · rw [IdMap.find?_set] at hother
    split at hother
    case isTrue heq => exact heq ▸ hcycles.set
    case isFalse => exact (h.cycles other hother).set

/-- An entry that leads to the end is not cut off. -/
theorem not_cutOff_of_ends (h : Ends (link (entryGraph entries)) id) : ¬ CutOff (entryGraph entries) id := by
  rintro ⟨first, -, hback, -⟩
  exact hback.onCycle.not_ends h

/-- The entry is cut off exactly where its parent is on the stack: the directory the climb has come
from is the first below a cycle that is not cached. -/
theorem Climbing.cutOff_iff (h : Climbing entries rootText start resolved stack id)
    (hfind : resolved.find? id = none) (hstack : id ∉ stack) {parent : UInt64}
    (hlink : link (entryGraph entries) id = some parent) :
    CutOff (entryGraph entries) id ↔ parent ∈ id :: stack := by
  have hfirst : OnCycle (link (entryGraph entries)) id → ∀ other, IsDirectory (entryGraph entries) other →
      Above (link (entryGraph entries)) id other → start ≤ other := by
    intro hcycle other hother habove
    by_contra hless
    rcases h.earlier other hother (UInt64.not_le.mp hless) id habove hcycle with hcached | hnil
    · rw [hfind] at hcached
      cases hcached
    · exact absurd hnil List.not_mem_nil
  constructor
  · rintro ⟨first, hdirectory, hback, hleast⟩
    have hle := hfirst hback.onCycle first hdirectory hback.above
    obtain rfl := UInt64.le_antisymm hle (hleast start h.directory h.climb.above)
    exact hback.mem h.climb hstack hlink
  · intro hparent
    have hback : ComesBack (link (entryGraph entries)) start id :=
      ⟨stack, parent, h.climb.step hstack hlink, hparent⟩
    exact ⟨start, h.directory, hback, hfirst hback.onCycle⟩

theorem Climbing.push (h : Climbing entries rootText start resolved stack id)
    (hfind : resolved.find? id = none) (hstack : id ∉ stack) {parent : UInt64}
    (hlink : link (entryGraph entries) id = some parent)
    (hparent : parent ≠ ntfsRootRecord → (entries.get? parent).isSome = true) :
    Climbing entries rootText start resolved (id :: stack) parent where
  cache := h.cache
  directory := h.directory
  earlier := h.earlier
  climb := h.climb.step hstack hlink
  fresh := List.forall_mem_cons.mpr ⟨hfind, h.fresh⟩
  known := hparent

theorem resolves_of_cached (hcache : CacheSound entries rootText resolved []) {path : String}
    (hfind : resolved.find? id = some path) (hstack : id ∉ stack) :
    Resolves entries rootText resolved stack id (path, resolved) where
  again h := absurd h hstack
  path _ := hcache.paths id path hfind
  cache := hcache.push
  kept _ h := h
  cycles := (hcache.cycles id (by rw [hfind]; rfl)).push

/-- The climb has come back, so everything further up is on the stack. -/
theorem Climbing.resolves_again (h : Climbing entries rootText start resolved stack id)
    (hstack : id ∈ stack) : Resolves entries rootText resolved stack id (rootText, resolved) where
  again _ := rfl
  path hnew := absurd hstack hnew
  cache := h.cache.push
  kept _ hkept := hkept
  cycles _ habove _ := Or.inr (h.climb.mem_of_above hstack habove)

/-- An entry without a parent has the root's path. -/
theorem Climbing.resolves_top (h : Climbing entries rootText start resolved stack id)
    (hstack : id ∉ stack) {info : EntryInfo} (hinfo : entryGraph entries id = some info)
    (habove : info.above id = none) :
    Resolves entries rootText resolved stack id (rootText, resolved.set id rootText) := by
  have hends : Ends (link (entryGraph entries)) id :=
    ends_of_none (by rw [link, hinfo, Option.bind_some, habove])
  have hpath : BatchPath (cutGraph (entryGraph entries)) rootText id rootText := by
    refine .cut ((cutGraph_of_not (not_cutOff_of_ends hends)).trans hinfo) fun parent hparent ↦ ?_
    rw [habove] at hparent
    cases hparent
  exact {
    again := fun hmem ↦ absurd hmem hstack
    path := fun _ ↦ Or.inr hpath
    cache := h.cache.push.set hpath (.of_ends hends)
    kept := fun _ ↦ isSome_find?_set
    cycles := .of_ends hends }

/-- An entry without a known parent has the root's path, which is not cached. -/
theorem Climbing.resolves_orphan (h : Climbing entries rootText start resolved stack id)
    (hstack : id ∉ stack) {info : EntryInfo} (hinfo : entryGraph entries id = some info)
    {parent : UInt64} (habove : info.above id = some parent) (hne : parent ≠ ntfsRootRecord)
    (hmissing : entryGraph entries parent = none) :
    Resolves entries rootText resolved stack id (rootText, resolved) := by
  have hends : Ends (link (entryGraph entries)) id :=
    (ends_iff_of_some (link_of_above hinfo habove)).mpr
      (ends_of_none (by rw [link, hmissing, Option.bind_none]))
  refine ⟨fun hmem ↦ absurd hmem hstack, fun _ ↦ Or.inr ?_, h.cache.push, fun _ hkept ↦ hkept, .of_ends hends⟩
  refine .cut ((cutGraph_of_not (not_cutOff_of_ends hends)).trans hinfo) fun other hother ↦ ?_
  obtain rfl := Option.some.inj (habove.symm.trans hother)
  exact ⟨hne, (cutGraph_eq_none_iff parent).mpr hmissing⟩

/-- The path of the parent is extended, or that of the root where the entry is cut off. -/
theorem Climbing.resolves_extended (h : Climbing entries rootText start resolved stack id)
    (hfind : resolved.find? id = none) (hstack : id ∉ stack) {info : EntryInfo}
    (hinfo : entryGraph entries id = some info) {parent : UInt64} (habove : info.above id = some parent)
    {result : String × ResolvedPaths}
    (hparent : Resolves entries rootText resolved (id :: stack) parent result) :
    Resolves entries rootText resolved stack id
      (extendPath result.1 info.name, result.2.set id (extendPath result.1 info.name)) := by
  have hlink := link_of_above hinfo habove
  have hcut := h.cutOff_iff hfind hstack hlink
  have hpath : BatchPath (cutGraph (entryGraph entries)) rootText id (extendPath result.1 info.name) := by
    by_cases hback : parent ∈ id :: stack
    · rw [hparent.again hback]
      exact (hcut.mpr hback).batchPath hinfo (ne_root_of_entryGraph hinfo)
    · have hsame := (cutGraph_of_not fun h ↦ hback (hcut.mp h)).trans hinfo
      rcases hparent.path hback with ⟨hroot, hpath⟩ | hpath
      · rw [hpath]
        exact .root hsame (hroot ▸ habove)
      · exact .under hsame habove (ne_root_of_batchPath hpath) hpath
  have hcycles := CyclesCached.of_parent hlink hparent.cycles
  exact {
    again := fun hmem ↦ absurd hmem hstack
    path := fun _ ↦ Or.inr hpath
    cache := hparent.cache.set hpath hcycles
    kept := fun other hother ↦ isSome_find?_set (hparent.kept other hother)
    cycles := hcycles.set }

/-- Resolving finds the path of the batch rule and keeps the cache sound. -/
theorem resolves_resolveEntryPath (h : Climbing entries rootText start resolved stack id) :
    Resolves entries rootText resolved stack id (resolveEntryPath entries rootText id resolved stack) := by
  induction hleft : (unvisited entries stack).length using Nat.strong_induction_on generalizing stack id with
  | h left ih =>
      rw [resolveEntryPath]
      cases hfind : resolved.find? id with
      | some path =>
          refine resolves_of_cached h.cache hfind fun hmem ↦ ?_
          rw [h.fresh id hmem] at hfind
          cases hfind
      | none =>
          have hroot : id ≠ ntfsRootRecord := by
            rintro rfl
            have hsome := h.cache.root
            rw [hfind] at hsome
            cases hsome
          by_cases hstack : id ∈ stack
          · rw [dif_pos hstack]
            exact h.resolves_again hstack
          · dsimp only
            rw [dif_neg hstack]
            split
            case h_1 hnone =>
              have hsome := h.known hroot
              rw [hnone] at hsome
              cases hsome
            case h_2 entry hentry =>
              have hinfo : entryGraph entries id = some (infoOf entry) := by
                rw [entryGraph_of_ne entries hroot, hentry, Option.map_some]
              cases hparent : entry.parentDirectoryId with
              | none => exact h.resolves_top hstack hinfo (by simp [EntryInfo.above, infoOf, hparent])
              | some parent =>
                  have habove : (infoOf entry).above id = if parent = id then none else some parent := by
                    simp [EntryInfo.above, infoOf, hparent, Option.filter]
                  dsimp only
                  by_cases hself : parent = id
                  · rw [if_pos (Or.inl hself)]
                    exact h.resolves_top hstack hinfo (habove.trans (if_pos hself))
                  · rw [if_neg hself] at habove
                    rw [if_neg (not_or.mpr ⟨hself, hroot⟩)]
                    split
                    case isTrue hmissing =>
                      obtain ⟨hnone, hne⟩ := hmissing
                      refine h.resolves_orphan hstack hinfo habove hne ?_
                      rw [entryGraph_of_ne entries hne, Option.isNone_iff_eq_none.mp hnone, Option.map_none]
                    case isFalse hpresent =>
                      refine h.resolves_extended hfind hstack hinfo habove
                        (ih _ (hleft ▸ length_unvisited_lt hentry hstack) ?_ rfl)
                      refine h.push hfind hstack (link_of_above hinfo habove) fun hne ↦ ?_
                      rw [← Option.not_isNone]
                      by_contra hnone
                      exact hpresent ⟨by simpa using hnone, hne⟩

end Resolve

/-! ## The enumerated directories -/

theorem HasPath.unique {entries : Entries} {rootText : String} {id : UInt64} {path other : String}
    (h : HasPath entries rootText id path) (h' : HasPath entries rootText id other) :
    path = other := by
  rcases h with ⟨hroot, rfl⟩ | hpath
  · rcases h' with ⟨-, rfl⟩ | hother
    · rfl
    · exact (ne_root_of_batchPath hother hroot).elim
  · rcases h' with ⟨hroot, -⟩ | hother
    · exact (ne_root_of_batchPath hpath hroot).elim
    · exact hpath.unique hother

/-- A directory among these has this id and this path. -/
def GivesPath (directories : List DirectoryRecord) (id : UInt64) (path : String) : Prop :=
  ∃ directory ∈ directories, directory.id.val = id ∧ directory.fullPath = path

/-- The cache is sound, and so are the paths of the directories so far. Cycles above those are cached. -/
structure VisitSound (entries : Entries) (rootText : String) (done : List ParsedNtfsEntry)
    (state : BatchState) : Prop where
  cache : CacheSound entries rootText state.resolvedPaths []
  paths : ∀ directory ∈ state.directories,
    HasPath entries rootText directory.id.val directory.fullPath
  earlier : ∀ entry ∈ done, entry.isDirectory = true →
    CyclesCached entries state.resolvedPaths [] entry.fileId.val

section Visit

variable {entries : Entries} {rootText : String}

theorem exists_entry_of_isDirectory {id : UInt64} (h : IsDirectory (entryGraph entries) id) :
    ∃ entry ∈ entries.records, entry.isDirectory = true ∧ entry.fileId.val = id := by
  obtain ⟨info, hinfo, hdirectory⟩ := h
  rw [entryGraph_of_ne _ (ne_root_of_entryGraph hinfo)] at hinfo
  obtain ⟨entry, hget, rfl⟩ := Option.map_eq_some_iff.mp hinfo
  obtain ⟨hmem, hid⟩ := (KeyedArena.get?_eq_some_iff _ _ entry).mp hget
  exact ⟨entry, hmem, hdirectory, hid⟩

/-- Where all directories with smaller ids have been visited, the next one is resolved. -/
theorem VisitSound.resolves {done : List ParsedNtfsEntry} {state : BatchState}
    (h : VisitSound entries rootText done state) {entry : ParsedNtfsEntry} (hmem : entry ∈ entries.records)
    (hdirectory : entry.isDirectory = true)
    (hless : ∀ other ∈ entries.records, other.fileId.val < entry.fileId.val → other ∈ done) :
    Resolves entries rootText state.resolvedPaths [] entry.fileId.val
      (resolveEntryPath entries rootText entry.fileId.val state.resolvedPaths []) := by
  by_cases hroot : entry.fileId.val = ntfsRootRecord
  · obtain ⟨path, hpath⟩ := Option.isSome_iff_exists.mp h.cache.root
    rw [← hroot] at hpath
    rw [resolveEntryPath, hpath]
    exact resolves_of_cached h.cache hpath List.not_mem_nil
  · have hget := (KeyedArena.get?_eq_some_iff entries entry.fileId.val entry).mpr ⟨hmem, rfl⟩
    have hclimbing : Climbing entries rootText entry.fileId.val state.resolvedPaths [] entry.fileId.val := {
      cache := h.cache
      directory := ⟨infoOf entry, by rw [entryGraph_of_ne _ hroot, hget, Option.map_some], hdirectory⟩
      earlier := by
        intro id hid hid'
        obtain ⟨other, hother, hkind, rfl⟩ := exists_entry_of_isDirectory hid
        exact h.earlier other (hless other hother hid') hkind
      climb := .start
      fresh := fun below hbelow ↦ absurd hbelow List.not_mem_nil
      known := fun _ ↦ by rw [hget, Option.isSome_some] }
    exact resolves_resolveEntryPath hclimbing

theorem VisitSound.visitEntry {done : List ParsedNtfsEntry} {state : BatchState}
    (h : VisitSound entries rootText done state) {entry : ParsedNtfsEntry} (hmem : entry ∈ entries.records)
    (hless : ∀ other ∈ entries.records, other.fileId.val < entry.fileId.val → other ∈ done) :
    VisitSound entries rootText (done ++ [entry]) (visitEntry entries rootText state entry) := by
  rw [Ntfs.visitEntry]
  split
  case isFalse hfile =>
    refine ⟨h.cache, h.paths, fun other hother hdirectory ↦ ?_⟩
    rcases List.mem_append.mp hother with hold | hnew
    · exact h.earlier other hold hdirectory
    · obtain rfl := List.mem_singleton.mp hnew
      exact absurd hdirectory hfile
  case isTrue hdirectory =>
    have hresolves := h.resolves hmem hdirectory hless
    refine ⟨hresolves.cache, fun directory hmem' ↦ ?_, fun other hother hkind ↦ ?_⟩
    · rcases List.mem_append.mp hmem' with hold | hnew
      · exact h.paths directory hold
      · obtain rfl := List.mem_singleton.mp hnew
        exact hresolves.path List.not_mem_nil
    · rcases List.mem_append.mp hother with hold | hnew
      · exact (h.earlier other hold hkind).kept hresolves.kept
      · obtain rfl := List.mem_singleton.mp hnew
        exact hresolves.cycles

theorem visitSound_start : VisitSound entries rootText []
    { resolvedPaths := IdMap.set .empty ntfsRootRecord rootText } := by
  have hfound : ∀ id path, (IdMap.set .empty ntfsRootRecord rootText : ResolvedPaths).find? id = some path →
      id = ntfsRootRecord ∧ path = rootText := by
    intro id path hfind
    rw [IdMap.find?_set] at hfind
    split at hfind
    case isTrue hid => exact ⟨hid, (Option.some.inj hfind).symm⟩
    case isFalse => cases hfind
  refine ⟨⟨?_, fun id path hfind ↦ Or.inl (hfound id path hfind), fun id hid ↦ ?_⟩, ?_, ?_⟩
  · rw [IdMap.find?_set_self]
    rfl
  · obtain ⟨path, hpath⟩ := Option.isSome_iff_exists.mp hid
    rw [(hfound id path hpath).1]
    apply CyclesCached.of_ends
    apply ends_of_none
    rw [link, entryGraph, if_pos rfl, Option.bind_none]
  · exact fun directory hdirectory ↦ absurd hdirectory List.not_mem_nil
  · exact fun entry hentry ↦ absurd hentry List.not_mem_nil

/-- The entries are visited in the order of their ids. -/
theorem visitSound_visitEntries :
    VisitSound entries rootText (orderedEntries entries) (visitEntries rootText entries) := by
  have hmem : ∀ entry, entry ∈ orderedEntries entries ↔ entry ∈ entries.records := fun entry ↦
    KeyOrder.mem_sortByKey _ _ entry
  have hsorted : (orderedEntries entries).Pairwise fun first second ↦
      first.fileId.val.toNat ≤ second.fileId.val.toNat := KeyOrder.sortByKey_pairwise _ _
  have hvisits : ∀ done rest state, done ++ rest = orderedEntries entries →
      VisitSound entries rootText done state →
        VisitSound entries rootText (done ++ rest) (rest.foldl (visitEntry entries rootText) state) := by
    intro done rest
    induction rest generalizing done with
    | nil =>
        intro state _ hstate
        rwa [List.append_nil]
    | cons entry rest ih =>
        intro state hall hstate
        have hvisit : VisitSound entries rootText (done ++ [entry]) (visitEntry entries rootText state entry) := by
          refine hstate.visitEntry ?_ fun other hother hless ↦ ?_
          · rw [← hmem, ← hall]
            exact List.mem_append_right _ List.mem_cons_self
          · rw [← hmem, ← hall] at hother
            rcases List.mem_append.mp hother with hdone | hlater
            · exact hdone
            · have hafter := (List.pairwise_append.mp (hall ▸ hsorted)).2.1
              rcases List.mem_cons.mp hlater with rfl | hrest
              · exact absurd hless (UInt64.lt_irrefl _)
              · have hle := List.rel_of_pairwise_cons hafter hrest
                exact absurd (UInt64.lt_iff_toNat_lt.mp hless) (Nat.not_lt.mpr hle)
        have hnext := ih (done ++ [entry]) _ (by rw [List.append_assoc]; exact hall) hvisit
        rwa [List.append_assoc] at hnext
  exact hvisits [] _ _ rfl visitSound_start

/-- The directories handed to the aggregation are the directory entries under
their paths of the batch rule. -/
theorem givesPath_enumeratedDirectories_iff (id : UInt64) (path : String) :
    GivesPath (enumeratedDirectories rootText entries) id path ↔
      (∃ entry ∈ entries.records, entry.isDirectory = true ∧ entry.fileId.val = id) ∧
        HasPath entries rootText id path := by
  have hsound : ∀ directory ∈ enumeratedDirectories rootText entries,
      HasPath entries rootText directory.id.val directory.fullPath := by
    intro directory hdirectory
    rw [enumeratedDirectories, KeyOrder.mem_sortByKey] at hdirectory
    exact visitSound_visitEntries.paths directory hdirectory
  constructor
  · rintro ⟨directory, hmem, rfl, rfl⟩
    refine ⟨?_, hsound directory hmem⟩
    obtain ⟨entry, hentry, hkind, hpair⟩ := (mem_pairs_enumeratedDirectories rootText entries _).mp
      (List.mem_map_of_mem hmem)
    exact ⟨entry, hentry, hkind, congrArg DirectoryId.val (congrArg Prod.fst hpair)⟩
  · rintro ⟨⟨entry, hentry, hkind, rfl⟩, hpath⟩
    have hpair := (mem_pairs_enumeratedDirectories rootText entries _).mpr ⟨entry, hentry, hkind, rfl⟩
    obtain ⟨directory, hmem, hdirectory⟩ := List.mem_map.mp hpair
    have hid : directory.id.val = entry.fileId.val :=
      congrArg DirectoryId.val (congrArg Prod.fst hdirectory)
    refine ⟨directory, hmem, hid, ?_⟩
    have hfound := hsound directory hmem
    rw [hid] at hfound
    exact hfound.unique hpath

/-- With its cycles cut, what is above each directory comes to an end. -/
theorem ends_link_cutGraph {id : UInt64} (h : IsDirectory (cutGraph (entryGraph entries)) id) :
    Ends (link (cutGraph (entryGraph entries))) id := by
  obtain ⟨cut, hcut, hkind⟩ := h
  obtain ⟨info, hinfo, -, hsame⟩ := exists_info_of_cutGraph hcut
  obtain ⟨entry, hentry, hdirectory, hid⟩ :=
    exists_entry_of_isDirectory ⟨info, hinfo, hsame.trans hkind⟩
  -- Any root text gives it a path.
  have hpair := (mem_pairs_enumeratedDirectories "" entries _).mpr ⟨entry, hentry, hdirectory, rfl⟩
  obtain ⟨directory, hmem, hrecord⟩ := List.mem_map.mp hpair
  have hvalue : directory.id.val = id :=
    (congrArg DirectoryId.val (congrArg Prod.fst hrecord)).trans hid
  rw [enumeratedDirectories, KeyOrder.mem_sortByKey] at hmem
  have hpath := visitSound_visitEntries.paths directory hmem
  rw [hvalue] at hpath
  rcases hpath with ⟨hroot, -⟩ | hpath
  · exact absurd hroot (ne_root_of_entryGraph hinfo)
  · exact hpath.ends ((cutGraph_eq_none_iff _).mpr (if_pos rfl))

end Visit

/-- Totals do not change ids and paths. -/
theorem givesPath_aggregateDirectoryRecords {fuel : ℕ} {directories totalled : List DirectoryRecord}
    {files : List FileRecord} (h : aggregateDirectoryRecords fuel directories files = some totalled)
    (id : UInt64) (path : String) :
    GivesPath totalled id path ↔ GivesPath directories id path := by
  have hkeeps : ∀ aggregates directory, (withAggregate aggregates directory).id = directory.id ∧
      (withAggregate aggregates directory).fullPath = directory.fullPath := by
    intro aggregates directory
    rw [withAggregate]
    split <;> exact ⟨rfl, rfl⟩
  obtain ⟨counted, -, hfiles⟩ := Option.bind_eq_some_iff.mp h
  obtain ⟨aggregates, -, htotalled⟩ := Option.bind_eq_some_iff.mp hfiles
  rw [← Option.some.inj htotalled]
  constructor
  · rintro ⟨directory, hmem, rfl, rfl⟩
    obtain ⟨original, horiginal, rfl⟩ := List.mem_map.mp hmem
    obtain ⟨hid, hpath⟩ := hkeeps aggregates original
    exact ⟨original, horiginal, congrArg DirectoryId.val hid.symm, hpath.symm⟩
  · rintro ⟨directory, hmem, rfl, rfl⟩
    obtain ⟨hid, hpath⟩ := hkeeps aggregates directory
    exact ⟨_, List.mem_map_of_mem hmem, congrArg DirectoryId.val hid, hpath⟩

end Ntfs

end WinBlaze
