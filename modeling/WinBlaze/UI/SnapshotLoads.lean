import Mathlib.Algebra.GroupWithZero.Nat
import Mathlib.Algebra.Order.BigOperators.Group.List
import Mathlib.Algebra.Order.Group.Nat
import Mathlib.Data.List.Perm.Basic
import Mathlib.Order.Basic

/-!
# Loading the catalog that is shown

The catalog is read by a thread of its own for each load, and comes back through the queue of the
dispatcher. What comes back for a load that is not the newest is dropped. A read takes the read
model; a scan that starts drops it, and then the catalog on disk is read, which may be older, or
hold what a scan has saved so far.
-/

namespace WinBlaze

namespace SnapshotLoads

/-- Published catalogs are numbered in their order; the one an earlier run of the program has left
on disk has the number 0. -/
inductive Catalog
  | published (version : ℕ)
  /-- What a scan has saved before it publishes, behind so many published catalogs. -/
  | flushed (version : ℕ)
  deriving DecidableEq

def Catalog.age : Catalog → ℕ
  | .published version => version
  | .flushed version => version

/-- A load that is under way, with the catalog it has read. -/
structure Load where
  generation : ℕ
  read : Option Catalog
  deriving DecidableEq

structure State where
  published : ℕ := 0
  /-- `INDEX_MODEL` -/
  model : Option Catalog := none
  disk : Catalog := .published 0
  generation : ℕ := 0
  loading : List Load := []
  /-- Callbacks of the dispatcher, with the generation and the catalog they have. -/
  queue : List (ℕ × Catalog) := []
  /-- The snapshot that was applied last. -/
  shown : Option Catalog := none

inductive Action
  /-- A scan session starts: `invalidate_index_model`. -/
  | start
  /-- A scan saves its records before it has published them. -/
  | flush
  /-- A scan or an import publishes a catalog: `set_index_model`. -/
  | publish
  /-- A scan saves a catalog that is published. -/
  | save (version : ℕ)
  /-- Something else asks for the read model. -/
  | query
  /-- `LoadPersistedCatalogSnapshot` -/
  | load
  /-- An import or a scan of several roots begins. -/
  | discard
  | read (generation : ℕ)
  | enqueue (generation : ℕ)
  | dispatch
  deriving DecidableEq

/-- A new generation begins. -/
def Action.supersedes : Action → Bool
  | .load | .discard => true
  | _ => false

/-- A step of a load that is under way. -/
def Action.isLoading : Action → Bool
  | .read _ | .enqueue _ | .dispatch => true
  | _ => false

/-- What `get_or_load_index_model` gives. -/
def State.current (s : State) : Catalog := s.model.getD s.disk

/-- `get_or_load_index_model` keeps what it has read from the disk. -/
def State.getOrLoadIndexModel (s : State) : State := { s with model := some s.current }

def step (s : State) : Action → Option State
  | .start => some { s with model := none }
  | .flush => some { s with disk := .flushed s.published }
  | .publish => some { s with
      published := s.published + 1
      model := some (.published (s.published + 1)) }
  | .save version => if version ≤ s.published then some { s with disk := .published version } else none
  | .query => some s.getOrLoadIndexModel
  | .load => some { s with
      generation := s.generation + 1
      loading := s.loading ++ [⟨s.generation + 1, none⟩] }
  | .discard => some { s with generation := s.generation + 1 }
  | .read generation =>
      if ⟨generation, none⟩ ∈ s.loading then
        some { s.getOrLoadIndexModel with loading := s.loading.map fun load ↦
          if load = ⟨generation, none⟩ then ⟨generation, some s.current⟩ else load }
      else none
  | .enqueue generation =>
      (s.loading.find? fun load ↦ load.generation = generation && load.read.isSome).bind fun load ↦
        load.read.map fun catalog ↦
          { s with loading := s.loading.erase load, queue := s.queue ++ [(generation, catalog)] }
  | .dispatch =>
      match s.queue with
      | [] => none
      | (generation, catalog) :: rest =>
          some { s with
            queue := rest
            shown := if generation = s.generation then some catalog else s.shown }

def run (s : State) : List Action → Option State
  | [] => some s
  | action :: rest => (step s action).bind (run · rest)

/-- No load is under way. -/
def State.Idle (s : State) : Prop := s.loading = [] ∧ s.queue = []

/-- The newest catalog is the read model. -/
def State.HoldsNewest (s : State) : Prop := s.model = some (.published s.published)

/-! ## What is under way -/

/-- The generations of the loads that are under way, and what they have read. -/
def State.items (s : State) : List (ℕ × Option Catalog) :=
  s.loading.map (fun load ↦ (load.generation, load.read)) ++ s.queue.map fun entry ↦ (entry.1, some entry.2)

theorem State.idle_iff {s : State} : s.Idle ↔ s.items = [] := by
  simp [State.Idle, State.items]

/-- What a step does to the loads that are under way. -/
inductive Steps (s : State) : Action → State → Prop
  /-- A step of a scan, an import or another query touches the catalogs only. -/
  | catalogs {action : Action} {next : State} (haction : action.supersedes = false)
      (hitems : next.items = s.items) (hgeneration : next.generation = s.generation)
      (hshown : next.shown = s.shown) : Steps s action next
  | load {next : State} (hitems : next.items.Perm ((s.generation + 1, none) :: s.items))
      (hgeneration : next.generation = s.generation + 1) (hshown : next.shown = s.shown) :
      Steps s .load next
  | discard : Steps s .discard { s with generation := s.generation + 1 }
  | read {generation : ℕ} {next : State}
      (hitems : next.items = s.items.map fun item ↦
        if item = (generation, none) then (generation, some s.current) else item)
      (hgeneration : next.generation = s.generation) (hshown : next.shown = s.shown) :
      Steps s (.read generation) next
  | enqueue {generation : ℕ} {next : State} (hitems : next.items.Perm s.items)
      (hgeneration : next.generation = s.generation) (hshown : next.shown = s.shown) :
      Steps s (.enqueue generation) next
  | dispatch {generation : ℕ} {catalog : Catalog} {next : State}
      (hitems : s.items.Perm ((generation, some catalog) :: next.items))
      (hgeneration : next.generation = s.generation)
      (hshown : next.shown = if generation = s.generation then some catalog else s.shown) :
      Steps s .dispatch next

theorem steps_of_step {s next : State} {action : Action} (h : step s action = some next) :
    Steps s action next := by
  cases action with
  | start | flush | publish | query =>
      obtain rfl := Option.some.inj h
      exact .catalogs rfl rfl rfl rfl
  | save version =>
      simp only [step] at h
      split at h
      case isFalse => cases h
      case isTrue =>
        obtain rfl := Option.some.inj h
        exact .catalogs rfl rfl rfl rfl
  | load =>
      obtain rfl := Option.some.inj h
      refine .load ?_ rfl rfl
      simp only [State.items, List.map_append, List.map_cons, List.map_nil, List.append_assoc]
      exact List.perm_middle
  | discard => exact Option.some.inj h ▸ .discard
  | read generation =>
      simp only [step] at h
      split at h
      case isFalse => cases h
      case isTrue hmem =>
        obtain rfl := Option.some.inj h
        refine .read ?_ rfl rfl
        simp only [State.items, State.getOrLoadIndexModel, List.map_append, List.map_map]
        refine congrArg₂ _ (List.map_congr_left fun load _ ↦ ?_) (List.map_congr_left fun entry _ ↦ ?_)
        · obtain ⟨other, read⟩ := load
          simp only [Function.comp_apply, Load.mk.injEq, Prod.mk.injEq]
          split <;> rfl
        · simp
  | enqueue generation =>
      obtain ⟨load, hfind, h⟩ := Option.bind_eq_some_iff.mp h
      obtain ⟨catalog, hread, rfl⟩ := Option.map_eq_some_iff.mp h
      have hgeneration : load.generation = generation := by
        have hsome := List.find?_some hfind
        simp only [Bool.and_eq_true, decide_eq_true_eq] at hsome
        exact hsome.1
      refine .enqueue ?_ rfl rfl
      have hload : (load.generation, load.read) = (generation, some catalog) := by
        rw [← hgeneration, ← hread]
      have herase := (List.perm_cons_erase (List.mem_of_find?_eq_some hfind)).map
        fun load : Load ↦ (load.generation, load.read)
      rw [List.map_cons, hload] at herase
      simp only [State.items, List.map_append, List.map_cons, List.map_nil]
      rw [← List.append_assoc]
      refine List.perm_append_comm.trans ?_
      exact (List.Perm.append_right _ herase.symm)
  | dispatch =>
      simp only [step] at h
      split at h
      case h_1 => cases h
      case h_2 generation catalog rest hqueue =>
        obtain rfl := Option.some.inj h
        refine @Steps.dispatch s generation catalog _ ?_ rfl rfl
        simp only [State.items, hqueue, List.map_cons]
        exact List.perm_middle

/-! ## What a load has read -/

/-- No two loads are of one generation. -/
structure Sound (s : State) : Prop where
  generations : ∀ item ∈ s.items, item.1 ≤ s.generation
  unique : (s.items.map Prod.fst).Nodup

theorem sound_initial : Sound {} where
  generations _ h := absurd h List.not_mem_nil
  unique := List.nodup_nil

section Steps

variable {s next : State} {action : Action}

theorem Steps.generation_le (h : Steps s action next) : s.generation ≤ next.generation := by
  cases h with
  | catalogs _ _ hgeneration _ => exact hgeneration.ge
  | load _ hgeneration _ => exact hgeneration ▸ Nat.le_succ _
  | discard => exact Nat.le_succ _
  | read _ hgeneration _ => exact hgeneration.ge
  | enqueue _ hgeneration _ => exact hgeneration.ge
  | dispatch _ hgeneration _ => exact hgeneration.ge

/-- A load is new and has read nothing, or is an older one that may have read what is current. -/
theorem Steps.exists_old (h : Steps s action next) : ∀ item ∈ next.items,
    (action = .load ∧ item = (next.generation, none) ∧ next.generation = s.generation + 1) ∨
      ∃ old ∈ s.items, item.1 = old.1 ∧ ∀ catalog ∈ item.2, catalog ∈ old.2 ∨ catalog = s.current := by
  have hold : ∀ item ∈ s.items, ∃ old ∈ s.items, item.1 = old.1 ∧
      ∀ catalog ∈ item.2, catalog ∈ old.2 ∨ catalog = s.current := fun item hitem ↦
    ⟨item, hitem, rfl, fun _ hcatalog ↦ .inl hcatalog⟩
  intro item hitem
  cases h with
  | catalogs _ hitems _ _ => exact .inr (hold item (hitems ▸ hitem))
  | load hitems hgeneration _ =>
      rcases List.mem_cons.mp (hitems.mem_iff.mp hitem) with rfl | hitem
      · exact .inl ⟨rfl, by rw [hgeneration], hgeneration⟩
      · exact .inr (hold item hitem)
  | discard => exact .inr (hold item hitem)
  | read hitems _ _ =>
      rw [hitems] at hitem
      obtain ⟨old, hmem, rfl⟩ := List.mem_map.mp hitem
      refine .inr ⟨old, hmem, ?_⟩
      split
      case isTrue hread =>
        refine ⟨by rw [hread], fun catalog hcatalog ↦ .inr ?_⟩
        exact (Option.some.inj hcatalog).symm
      case isFalse => exact ⟨rfl, fun catalog hcatalog ↦ .inl hcatalog⟩
  | enqueue hitems _ _ => exact .inr (hold item (hitems.mem_iff.mp hitem))
  | dispatch hitems _ _ => exact .inr (hold item (hitems.mem_iff.mpr (List.mem_cons_of_mem _ hitem)))

theorem Sound.unique_step (h : Sound s) (hstep : Steps s action next) :
    (next.items.map Prod.fst).Nodup := by
  cases hstep with
  | catalogs _ hitems _ _ => exact hitems ▸ h.unique
  | load hitems _ _ =>
      rw [(hitems.map Prod.fst).nodup_iff, List.map_cons, List.nodup_cons]
      refine ⟨fun hold ↦ ?_, h.unique⟩
      obtain ⟨item, hitem, hsame⟩ := List.mem_map.mp hold
      have hle := h.generations item hitem
      simp only at hsame
      omega
  | discard => exact h.unique
  | read hitems _ _ =>
      have hfst : next.items.map Prod.fst = s.items.map Prod.fst := by
        rw [hitems, List.map_map]
        refine List.map_congr_left fun item _ ↦ ?_
        simp only [Function.comp_apply]
        split
        case isTrue hread => rw [hread]
        case isFalse => rfl
      rw [hfst]
      exact h.unique
  | enqueue hitems _ _ => exact (hitems.map Prod.fst).nodup_iff.mpr h.unique
  | dispatch hitems _ _ =>
      have hunique := (hitems.map Prod.fst).nodup_iff.mp h.unique
      exact (List.nodup_cons.mp hunique).2

/-- Only what a load of this generation has read is shown. -/
theorem Steps.shown_step (h : Steps s action next) : next.shown = s.shown ∨
    ∃ catalog, (s.generation, some catalog) ∈ s.items ∧ next.shown = some catalog := by
  cases h with
  | catalogs _ _ _ hshown => exact .inl hshown
  | load _ _ hshown => exact .inl hshown
  | discard => exact .inl rfl
  | read _ _ hshown => exact .inl hshown
  | enqueue _ _ hshown => exact .inl hshown
  | @dispatch generation catalog _ hitems _ hshown =>
      split at hshown
      case isTrue hsame =>
        subst hsame
        exact .inr ⟨catalog, hitems.mem_iff.mpr List.mem_cons_self, hshown⟩
      case isFalse => exact .inl hshown

theorem Sound.step (h : Sound s) (hstep : Steps s action next) : Sound next where
  generations item hitem := by
    rcases hstep.exists_old item hitem with ⟨-, rfl, -⟩ | ⟨old, hold, hsame, -⟩
    · exact le_rfl
    · exact hsame ▸ (h.generations old hold).trans hstep.generation_le
  unique := h.unique_step hstep

theorem Steps.generation_eq (h : Steps s action next) (haction : action.supersedes = false) :
    next.generation = s.generation := by
  cases h with
  | catalogs _ _ hgeneration _ => exact hgeneration
  | load => cases haction
  | discard => cases haction
  | read _ hgeneration _ => exact hgeneration
  | enqueue _ hgeneration _ => exact hgeneration
  | dispatch _ hgeneration _ => exact hgeneration

/-- A load of this generation stays under way until it is shown. -/
theorem Steps.exists_current (h : Steps s action next) (haction : action.supersedes = false)
    {item : ℕ × Option Catalog} (hitem : item ∈ s.items) (hcurrent : item.1 = s.generation) :
    (∃ other ∈ next.items, other.1 = next.generation) ∨ ∃ catalog ∈ item.2, next.shown = some catalog := by
  cases h with
  | catalogs _ hitems hgeneration _ =>
      exact .inl ⟨item, hitems ▸ hitem, hcurrent.trans hgeneration.symm⟩
  | load => cases haction
  | discard => cases haction
  | read hitems hgeneration _ =>
      refine .inl ⟨_, hitems ▸ List.mem_map_of_mem hitem, ?_⟩
      split
      case isTrue hread => rw [hgeneration, ← hcurrent, hread]
      case isFalse => rw [hgeneration, hcurrent]
  | enqueue hitems hgeneration _ =>
      exact .inl ⟨item, hitems.mem_iff.mpr hitem, hcurrent.trans hgeneration.symm⟩
  | dispatch hitems hgeneration hshown =>
      rcases List.mem_cons.mp (hitems.mem_iff.mp hitem) with rfl | hlater
      · exact .inr ⟨_, rfl, by rw [hshown, if_pos hcurrent]⟩
      · exact .inl ⟨item, hlater, hcurrent.trans hgeneration.symm⟩

end Steps

/-! ## Runs -/

theorem exists_step {s last : State} {action : Action} {rest : List Action}
    (h : run s (action :: rest) = some last) :
    ∃ next, step s action = some next ∧ run next rest = some last :=
  Option.bind_eq_some_iff.mp h

theorem Sound.run {s last : State} {actions : List Action} (h : Sound s)
    (hrun : run s actions = some last) : Sound last := by
  induction actions generalizing s with
  | nil => exact Option.some.inj hrun ▸ h
  | cons action rest ih =>
      obtain ⟨next, hstep, hrest⟩ := exists_step hrun
      exact ih (h.step (steps_of_step hstep)) hrest

/-- The catalog was current at a moment of the run. -/
def Passed (s : State) (actions : List Action) (catalog : Catalog) : Prop :=
  ∃ front mid, front <+: actions ∧ run s front = some mid ∧ mid.current = catalog

theorem passed_start (s : State) (actions : List Action) : Passed s actions s.current :=
  ⟨[], s, List.nil_prefix, rfl, rfl⟩

theorem Passed.cons {s next : State} {action : Action} {rest : List Action} {catalog : Catalog}
    (h : Passed next rest catalog) (hstep : step s action = some next) :
    Passed s (action :: rest) catalog := by
  obtain ⟨front, mid, hprefix, hrun, hcurrent⟩ := h
  refine ⟨action :: front, mid, List.cons_prefix_cons.mpr ⟨rfl, hprefix⟩, ?_, hcurrent⟩
  rw [run, hstep, Option.bind_some, hrun]

/-- The newest load is under way, or is shown with one of these catalogs; before that, the old one
is shown. -/
structure Awaited (old : Option Catalog) (given : Catalog → Prop) (s : State) : Prop where
  fresh : ∀ item ∈ s.items, item.1 = s.generation → ∀ catalog ∈ item.2, given catalog
  shown : s.shown = old ∨ ∃ catalog ∈ s.shown, given catalog
  pending : (∃ item ∈ s.items, item.1 = s.generation) ∨ ∃ catalog ∈ s.shown, given catalog

section Awaited

variable {old : Option Catalog} {given : Catalog → Prop} {s next : State} {action : Action}

theorem Awaited.step (h : Awaited old given s) (hstep : Steps s action next)
    (haction : action.supersedes = false) (hcurrent : given s.current) : Awaited old given next where
  fresh item hitem hgeneration catalog hcatalog := by
    rcases hstep.exists_old item hitem with ⟨rfl, -⟩ | ⟨earlier, hearlier, hsame, hcatalogs⟩
    · cases haction
    · rcases hcatalogs catalog hcatalog with hread | rfl
      · refine h.fresh earlier hearlier ?_ catalog hread
        rw [← hsame, hgeneration, hstep.generation_eq haction]
      · exact hcurrent
  shown := by
    rcases hstep.shown_step with hkept | ⟨catalog, hmem, hshown⟩
    · rw [hkept]
      exact h.shown
    · exact .inr ⟨catalog, hshown, h.fresh _ hmem rfl catalog rfl⟩
  pending := by
    rcases h.pending with ⟨item, hitem, hgeneration⟩ | hpast
    · rcases hstep.exists_current haction hitem hgeneration with hlater | ⟨catalog, hcatalog, hshown⟩
      · exact .inl hlater
      · exact .inr ⟨catalog, hshown, h.fresh item hitem hgeneration catalog hcatalog⟩
    · rcases hstep.shown_step with hkept | ⟨catalog, hmem, hshown⟩
      · exact .inr (hkept ▸ hpast)
      · exact .inr ⟨catalog, hshown, h.fresh _ hmem rfl catalog rfl⟩

theorem Awaited.of_load (hsound : Sound s) (hstep : Steps s .load next) (given : Catalog → Prop) :
    Awaited s.shown given next := by
  cases hstep with
  | catalogs haction => cases haction
  | load hitems hgeneration hshown =>
      refine ⟨fun item hitem hcurrent catalog hcatalog ↦ ?_, .inl hshown,
        .inl ⟨_, hitems.mem_iff.mpr List.mem_cons_self, hgeneration.symm⟩⟩
      rcases List.mem_cons.mp (hitems.mem_iff.mp hitem) with rfl | hold
      · cases hcatalog
      · have hle := hsound.generations item hold
        omega

theorem Awaited.run {last : State} {actions : List Action} (h : Awaited old given s)
    (hrun : run s actions = some last) (hactions : ∀ action ∈ actions, action.supersedes = false)
    (hgiven : ∀ catalog, Passed s actions catalog → given catalog) : Awaited old given last := by
  induction actions generalizing s with
  | nil => exact Option.some.inj hrun ▸ h
  | cons action rest ih =>
      obtain ⟨next, hstep, hrest⟩ := exists_step hrun
      obtain ⟨haction, hlater⟩ := List.forall_mem_cons.mp hactions
      have hnext := h.step (steps_of_step hstep) haction (hgiven _ (passed_start s _))
      exact ih hnext hrest hlater fun catalog hpassed ↦ hgiven catalog (hpassed.cons hstep)

end Awaited

/-! ## Loads that are discarded -/

section Discard

variable {s next last : State} {action : Action} {actions : List Action}

/-- What is under way belongs to generations that are over. -/
def State.Superseded (s : State) : Prop := ∀ item ∈ s.items, item.1 ≠ s.generation

theorem superseded_of_discard (hsound : Sound s) (hstep : Steps s .discard next) : next.Superseded := by
  cases hstep with
  | catalogs haction => cases haction
  | discard =>
      intro item hitem hcurrent
      have hle : item.1 ≤ s.generation := hsound.generations item hitem
      exact absurd hcurrent (Nat.ne_of_lt (Nat.lt_succ_of_le hle))

theorem Steps.superseded (h : Steps s action next) (haction : action.supersedes = false)
    (hsuperseded : s.Superseded) : next.Superseded := by
  intro item hitem
  rcases h.exists_old item hitem with ⟨rfl, -⟩ | ⟨old, hold, hsame, -⟩
  · cases haction
  · rw [hsame, h.generation_eq haction]
    exact hsuperseded old hold

theorem shown_of_superseded (h : s.Superseded) (hrun : run s actions = some last)
    (hactions : ∀ action ∈ actions, action.supersedes = false) : last.shown = s.shown := by
  induction actions generalizing s with
  | nil => exact Option.some.inj hrun ▸ rfl
  | cons action rest ih =>
      obtain ⟨next, hstep, hrest⟩ := exists_step hrun
      obtain ⟨haction, hlater⟩ := List.forall_mem_cons.mp hactions
      have hsteps := steps_of_step hstep
      rw [ih (hsteps.superseded haction h) hrest hlater]
      rcases hsteps.shown_step with hkept | ⟨catalog, hmem, -⟩
      · exact hkept
      · exact absurd rfl (h _ hmem)

end Discard

/-! ## The age of catalogs -/

/-- Nothing is newer than the catalog that was published last. -/
structure Aged (s : State) : Prop where
  model : ∀ catalog ∈ s.model, catalog.age ≤ s.published
  disk : s.disk.age ≤ s.published
  items : ∀ item ∈ s.items, ∀ catalog ∈ item.2, catalog.age ≤ s.published
  shown : ∀ catalog ∈ s.shown, catalog.age ≤ s.published

theorem aged_initial : Aged {} where
  model _ h := by cases h
  disk := le_rfl
  items _ h := absurd h List.not_mem_nil
  shown _ h := by cases h

section Aged

variable {s next last : State} {action : Action} {actions : List Action}

theorem Aged.current (h : Aged s) : s.current.age ≤ s.published := by
  unfold State.current
  cases hmodel : s.model with
  | none => exact h.disk
  | some catalog => exact h.model catalog hmodel

/-- What a step does to the catalogs that are kept. -/
theorem Aged.kept (h : Aged s) (hstep : step s action = some next) :
    s.published ≤ next.published ∧ (∀ catalog ∈ next.model, catalog.age ≤ next.published) ∧
      next.disk.age ≤ next.published := by
  have hcurrent := h.current
  cases action with
  | start =>
      obtain rfl := Option.some.inj hstep
      refine ⟨le_rfl, fun catalog hcatalog ↦ ?_, h.disk⟩
      cases hcatalog
  | flush =>
      obtain rfl := Option.some.inj hstep
      exact ⟨le_rfl, h.model, le_rfl⟩
  | publish =>
      obtain rfl := Option.some.inj hstep
      refine ⟨Nat.le_succ _, fun catalog hcatalog ↦ ?_, h.disk.trans (Nat.le_succ _)⟩
      obtain rfl := Option.some.inj hcatalog
      exact le_rfl
  | save version =>
      simp only [step] at hstep
      split at hstep
      case isFalse => cases hstep
      case isTrue hversion =>
        obtain rfl := Option.some.inj hstep
        exact ⟨le_rfl, h.model, hversion⟩
  | query =>
      obtain rfl := Option.some.inj hstep
      refine ⟨le_rfl, fun catalog hcatalog ↦ ?_, h.disk⟩
      obtain rfl := Option.some.inj hcatalog
      exact hcurrent
  | load | discard =>
      obtain rfl := Option.some.inj hstep
      exact ⟨le_rfl, h.model, h.disk⟩
  | read generation =>
      simp only [step] at hstep
      split at hstep
      case isFalse => cases hstep
      case isTrue =>
        obtain rfl := Option.some.inj hstep
        refine ⟨le_rfl, fun catalog hcatalog ↦ ?_, h.disk⟩
        obtain rfl := Option.some.inj hcatalog
        exact hcurrent
  | enqueue generation =>
      obtain ⟨load, -, hstep⟩ := Option.bind_eq_some_iff.mp hstep
      obtain ⟨catalog, -, rfl⟩ := Option.map_eq_some_iff.mp hstep
      exact ⟨le_rfl, h.model, h.disk⟩
  | dispatch =>
      simp only [step] at hstep
      split at hstep
      case h_1 => cases hstep
      case h_2 =>
        obtain rfl := Option.some.inj hstep
        exact ⟨le_rfl, h.model, h.disk⟩

theorem Aged.step (h : Aged s) (hstep : step s action = some next) : Aged next := by
  obtain ⟨hpublished, hmodel, hdisk⟩ := h.kept hstep
  have hsteps := steps_of_step hstep
  refine ⟨hmodel, hdisk, fun item hitem catalog hcatalog ↦ le_trans ?_ hpublished,
    fun catalog hcatalog ↦ le_trans ?_ hpublished⟩
  · rcases hsteps.exists_old item hitem with ⟨-, rfl, -⟩ | ⟨old, hold, -, hcatalogs⟩
    · cases hcatalog
    · rcases hcatalogs catalog hcatalog with hread | rfl
      · exact h.items old hold catalog hread
      · exact h.current
  · rcases hsteps.shown_step with hkept | ⟨other, hmem, hshown⟩
    · exact h.shown catalog (hkept ▸ hcatalog)
    · rw [hshown] at hcatalog
      exact Option.some.inj hcatalog ▸ h.items _ hmem other rfl

theorem Aged.run (h : Aged s) (hrun : run s actions = some last) :
    Aged last ∧ s.published ≤ last.published := by
  induction actions generalizing s with
  | nil => exact Option.some.inj hrun ▸ ⟨h, le_rfl⟩
  | cons action rest ih =>
      obtain ⟨next, hstep, hrest⟩ := exists_step hrun
      obtain ⟨hlast, hle⟩ := ih (h.step hstep) hrest
      exact ⟨hlast, (h.kept hstep).1.trans hle⟩

/-- Without a scan that starts, a read model is replaced by newer ones only. -/
theorem model_step {version : ℕ} (hmodel : s.model = some (.published version))
    (hversion : version ≤ s.published) (hstep : step s action = some next) (haction : action ≠ .start) :
    ∃ other, next.model = some (.published other) ∧ version ≤ other ∧ other ≤ next.published := by
  have hcurrent : s.current = .published version := by rw [State.current, hmodel, Option.getD_some]
  cases action with
  | start => exact absurd rfl haction
  | flush | load | discard =>
      obtain rfl := Option.some.inj hstep
      exact ⟨version, hmodel, le_rfl, hversion⟩
  | publish =>
      obtain rfl := Option.some.inj hstep
      exact ⟨s.published + 1, rfl, hversion.trans (Nat.le_succ _), le_rfl⟩
  | save saved =>
      simp only [step] at hstep
      split at hstep
      case isFalse => cases hstep
      case isTrue =>
        obtain rfl := Option.some.inj hstep
        exact ⟨version, hmodel, le_rfl, hversion⟩
  | query =>
      obtain rfl := Option.some.inj hstep
      exact ⟨version, congrArg some hcurrent, le_rfl, hversion⟩
  | read generation =>
      simp only [step] at hstep
      split at hstep
      case isFalse => cases hstep
      case isTrue =>
        obtain rfl := Option.some.inj hstep
        exact ⟨version, congrArg some hcurrent, le_rfl, hversion⟩
  | enqueue generation =>
      obtain ⟨load, -, hstep⟩ := Option.bind_eq_some_iff.mp hstep
      obtain ⟨catalog, -, rfl⟩ := Option.map_eq_some_iff.mp hstep
      exact ⟨version, hmodel, le_rfl, hversion⟩
  | dispatch =>
      simp only [step] at hstep
      split at hstep
      case h_1 => cases hstep
      case h_2 =>
        obtain rfl := Option.some.inj hstep
        exact ⟨version, hmodel, le_rfl, hversion⟩

theorem model_run {version : ℕ} (hmodel : s.model = some (.published version))
    (hversion : version ≤ s.published) (hrun : run s actions = some last)
    (hactions : Action.start ∉ actions) :
    ∃ other, last.model = some (.published other) ∧ version ≤ other ∧ other ≤ last.published := by
  induction actions generalizing s version with
  | nil =>
      obtain rfl := Option.some.inj hrun
      exact ⟨version, hmodel, le_rfl, hversion⟩
  | cons action rest ih =>
      obtain ⟨next, hstep, hrest⟩ := exists_step hrun
      rw [List.mem_cons, not_or] at hactions
      obtain ⟨haction, hlater⟩ := hactions
      obtain ⟨middle, hnext, hle, hmiddle⟩ := model_step hmodel hversion hstep (Ne.symm haction)
      obtain ⟨other, hlast, hless, hother⟩ := ih hnext hmiddle hrest hlater
      exact ⟨other, hlast, hle.trans hless, hother⟩

end Aged

/-! ## Every load comes to its end -/

/-- How many steps a load that is under way still takes. -/
def Load.left (load : Load) : ℕ := if load.read = none then 3 else 2

def State.left (s : State) : ℕ := (s.loading.map Load.left).sum + s.queue.length

theorem read_left {s : State} {generation : ℕ} (h : ⟨generation, none⟩ ∈ s.loading) :
    ∃ next, step s (.read generation) = some next ∧ next.left < s.left := by
  refine ⟨_, if_pos h, ?_⟩
  have hless : (s.loading.map fun load ↦ Load.left (if load = ⟨generation, none⟩ then
      ⟨generation, some s.current⟩ else load)).sum < (s.loading.map Load.left).sum := by
    refine List.sum_lt_sum _ _ (fun load _ ↦ ?_) ⟨_, h, ?_⟩
    · split
      case isTrue hread => simp [hread, Load.left]
      case isFalse => exact le_rfl
    · simp [Load.left]
  simp only [State.left, State.getOrLoadIndexModel, List.map_map, Function.comp_def]
  omega

theorem enqueue_left {s : State} {load : Load} {catalog : Catalog} (h : load ∈ s.loading)
    (hread : load.read = some catalog) :
    ∃ next, step s (.enqueue load.generation) = some next ∧ next.left < s.left := by
  obtain ⟨other, hfind⟩ : ∃ other, (s.loading.find? fun other ↦
      other.generation = load.generation && other.read.isSome) = some other := by
    refine Option.isSome_iff_exists.mp (List.find?_isSome.mpr ⟨load, h, ?_⟩)
    simp [hread]
  have hsome := List.find?_some hfind
  simp only [Bool.and_eq_true] at hsome
  obtain ⟨read, hother⟩ := Option.isSome_iff_exists.mp hsome.2
  refine ⟨_, by rw [step, hfind, Option.bind_some, hother, Option.map_some], ?_⟩
  have hsum := ((List.perm_cons_erase (List.mem_of_find?_eq_some hfind)).map Load.left).sum_eq
  have htwo : other.left = 2 := by simp [Load.left, hother]
  rw [List.map_cons, List.sum_cons, htwo] at hsum
  simp only [State.left, List.length_append, List.length_cons, List.length_nil]
  omega

theorem exists_loading {s : State} (h : ¬ s.Idle) :
    ∃ action next, action.isLoading = true ∧ step s action = some next ∧ next.left < s.left := by
  cases hqueue : s.queue with
  | cons entry rest =>
      refine ⟨.dispatch, _, rfl, by rw [step, hqueue], ?_⟩
      simp [State.left, hqueue]
  | nil =>
      obtain ⟨load, hload⟩ := List.exists_mem_of_ne_nil s.loading fun hnone ↦ h ⟨hnone, hqueue⟩
      obtain ⟨generation, _ | catalog⟩ := load
      · obtain ⟨next, hnext⟩ := read_left hload
        exact ⟨_, next, rfl, hnext⟩
      · obtain ⟨next, hnext⟩ := enqueue_left hload rfl
        exact ⟨_, next, rfl, hnext⟩

/-- What is under way can always come to its end. -/
theorem exists_idle (s : State) :
    ∃ actions last, (∀ action ∈ actions, action.isLoading = true) ∧
      run s actions = some last ∧ last.Idle := by
  induction hleft : s.left using Nat.strong_induction_on generalizing s with
  | h left ih =>
      by_cases hidle : s.Idle
      · exact ⟨[], s, fun _ h ↦ absurd h List.not_mem_nil, rfl, hidle⟩
      · obtain ⟨action, next, haction, hstep, hless⟩ := exists_loading hidle
        obtain ⟨actions, last, hactions, hrun, hlast⟩ := ih next.left (hleft ▸ hless) next rfl
        refine ⟨action :: actions, last, List.forall_mem_cons.mpr ⟨haction, hactions⟩, ?_, hlast⟩
        rw [run, hstep, Option.bind_some, hrun]

/-! ## What the last request shows -/

/-- From the load on, the catalog that is shown is the old one or one that was current meanwhile. -/
theorem shown_of_load {first last : State} {after : List Action} (hsound : Sound first)
    (hrun : run first (.load :: after) = some last)
    (hafter : ∀ action ∈ after, action.supersedes = false) :
    (last.shown = first.shown ∨ ∃ catalog, last.shown = some catalog ∧ Passed first (.load :: after) catalog) ∧
      (last.Idle → ∃ catalog, last.shown = some catalog ∧ Passed first (.load :: after) catalog) := by
  obtain ⟨next, hstep, hrest⟩ := exists_step hrun
  have hawaited := (Awaited.of_load hsound (steps_of_step hstep) (Passed first (.load :: after))).run hrest
    hafter fun catalog hpassed ↦ hpassed.cons hstep
  refine ⟨hawaited.shown, fun hidle ↦ ?_⟩
  rcases hawaited.pending with ⟨item, hitem, -⟩ | hshown
  · rw [State.idle_iff.mp hidle] at hitem
    exact absurd hitem List.not_mem_nil
  · exact hshown

/-- Without a scan that starts, what is current stays a published catalog and gets newer only. -/
theorem exists_of_passed {first last : State} {actions : List Action} {catalog : Catalog}
    (haged : Aged first) (hnewest : first.HoldsNewest) (hrun : run first actions = some last)
    (hactions : Action.start ∉ actions) (h : Passed first actions catalog) :
    ∃ version, catalog = .published version ∧ first.published ≤ version ∧ version ≤ last.published := by
  obtain ⟨front, mid, ⟨back, rfl⟩, hfront, rfl⟩ := h
  obtain ⟨version, hmodel, hle, hversion⟩ := model_run hnewest le_rfl hfront
    fun hstart ↦ hactions (List.mem_append_left _ hstart)
  have hback : run mid back = some last := by
    have happend : ∀ (s : State) (front : List Action), run s (front ++ back) =
        (run s front).bind (run · back) := by
      intro s front
      induction front generalizing s with
      | nil => rfl
      | cons action rest ih =>
          rw [List.cons_append, run, run, Option.bind_assoc]
          exact congrArg _ (funext fun next ↦ ih next)
    rw [happend, hfront, Option.bind_some] at hrun
    exact hrun
  have hlater := (((haged.run hfront).1).run hback).2
  exact ⟨version, by rw [State.current, hmodel, Option.getD_some], hle, hversion.trans hlater⟩

/-- The load at the start is still reading when a scan starts and flushes its first records. When
the scan has ended, the second load comes back before the first. -/
def overtaken : List Action := [.load, .start, .flush, .read 1, .publish]

end SnapshotLoads

end WinBlaze
