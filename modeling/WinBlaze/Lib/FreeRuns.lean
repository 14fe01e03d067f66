import Mathlib.Data.List.Basic
import Mathlib.Data.Nat.Basic
import Mathlib.Order.Basic

/-!
# Keeping short gaps

Places `0, …, total - 1` are occupied or free. A pass over them keeps the
occupied places and the maximal free runs below a length, and drops the longer
runs. It walks each free run to its end before it decides.
-/

namespace FreeRuns

/-- A maximal run of free places. -/
structure IsRun (occupied : ℕ → Bool) (total first stop : ℕ) : Prop where
  nonempty : first < stop
  bound : stop ≤ total
  free : ∀ i, first ≤ i → i < stop → occupied i = false
  left : first = 0 ∨ occupied (first - 1) = true
  right : stop = total ∨ occupied stop = true

/-- The place lies in a maximal free run of at least this length. -/
def InLongRun (occupied : ℕ → Bool) (total least i : ℕ) : Prop :=
  ∃ first stop, IsRun occupied total first stop ∧ least ≤ stop - first ∧ first ≤ i ∧ i < stop

/-- The first occupied place from `i` on, or the end. -/
def runEnd (occupied : ℕ → Bool) (total i : ℕ) : ℕ :=
  if i < total ∧ occupied i = false then runEnd occupied total (i + 1) else i
termination_by total - i

/-- Sets the flags of a range. -/
def setRange (keep : List Bool) (first stop : ℕ) : List Bool :=
  keep.mapIdx (fun i flag ↦ if first ≤ i ∧ i < stop then true else flag)

/-- How many places at the end are free. -/
def trailing (occupied : ℕ → Bool) : ℕ → ℕ
  | 0 => 0
  | n + 1 => if occupied n then 0 else trailing occupied n + 1

section Runs

variable {occupied : ℕ → Bool} {total first stop i : ℕ}

theorem runEnd_of_free (hi : i < total) (hfree : occupied i = false) :
    runEnd occupied total i = runEnd occupied total (i + 1) := by
  rw [runEnd, if_pos ⟨hi, hfree⟩]

theorem runEnd_of_not (h : ¬(i < total ∧ occupied i = false)) : runEnd occupied total i = i := by
  rw [runEnd, if_neg h]

theorem le_runEnd (occupied : ℕ → Bool) (total i : ℕ) : i ≤ runEnd occupied total i := by
  induction i using runEnd.induct occupied total with
  | case1 i h ih =>
      rw [runEnd_of_free h.1 h.2]
      omega
  | case2 i h => exact (runEnd_of_not h).ge

theorem lt_runEnd (hi : i < total) (hfree : occupied i = false) : i < runEnd occupied total i := by
  rw [runEnd_of_free hi hfree]
  exact le_runEnd occupied total (i + 1)

theorem runEnd_le (hi : i ≤ total) : runEnd occupied total i ≤ total := by
  induction i using runEnd.induct occupied total with
  | case1 i h ih =>
      rw [runEnd_of_free h.1 h.2]
      exact ih h.1
  | case2 i h => rwa [runEnd_of_not h]

theorem free_of_lt_runEnd {j : ℕ} (hij : i ≤ j) (hj : j < runEnd occupied total i) :
    occupied j = false := by
  induction i using runEnd.induct occupied total with
  | case1 i h ih =>
      rw [runEnd_of_free h.1 h.2] at hj
      rcases Nat.eq_or_lt_of_le hij with rfl | hlt
      · exact h.2
      · exact ih hlt hj
  | case2 i h =>
      rw [runEnd_of_not h] at hj
      omega

theorem runEnd_stops (hi : i ≤ total) :
    runEnd occupied total i = total ∨ occupied (runEnd occupied total i) = true := by
  induction i using runEnd.induct occupied total with
  | case1 i h ih =>
      rw [runEnd_of_free h.1 h.2]
      exact ih h.1
  | case2 i h =>
      rw [runEnd_of_not h]
      by_cases hfree : occupied i = false
      · exact Or.inl (le_antisymm hi (not_lt.mp fun hlt ↦ h ⟨hlt, hfree⟩))
      · exact Or.inr (by simpa using hfree)

/-- From the start of a run the walk ends where the run does. -/
theorem isRun_runEnd (hi : i < total) (hfree : occupied i = false)
    (hleft : i = 0 ∨ occupied (i - 1) = true) : IsRun occupied total i (runEnd occupied total i) where
  nonempty := lt_runEnd hi hfree
  bound := runEnd_le hi.le
  free := fun _ hij hj ↦ free_of_lt_runEnd hij hj
  left := hleft
  right := runEnd_stops hi.le

/-- Two runs with a common place are one. -/
theorem IsRun.unique {first' stop' : ℕ} (h : IsRun occupied total first stop)
    (h' : IsRun occupied total first' stop') (hi : first ≤ i) (hi' : i < stop) (hj : first' ≤ i)
    (hj' : i < stop') : first = first' ∧ stop = stop' := by
  have hle : ∀ {a b c d : ℕ}, IsRun occupied total a b → IsRun occupied total c d → a ≤ i → i < b →
      c ≤ i → i < d → c ≤ a ∧ b ≤ d := by
    intro a b c d hab hcd hai hib hci hid
    constructor
    · by_contra hlt
      have hfree := hab.free (c - 1) (by omega) (by omega)
      rcases hcd.left with hzero | hoccupied
      · omega
      · rw [hoccupied] at hfree
        cases hfree
    · by_contra hlt
      have hfree := hab.free d (by omega) (by omega)
      rcases hcd.right with htotal | hoccupied
      · have hbound := hab.bound
        omega
      · rw [hoccupied] at hfree
        cases hfree
  obtain ⟨hfirst, hstop⟩ := hle h h' hi hi' hj hj'
  obtain ⟨hfirst', hstop'⟩ := hle h' h hj hj' hi hi'
  exact ⟨le_antisymm hfirst' hfirst, le_antisymm hstop hstop'⟩

theorem IsRun.inLongRun_iff {least : ℕ} (h : IsRun occupied total first stop) (hi : first ≤ i)
    (hi' : i < stop) : InLongRun occupied total least i ↔ least ≤ stop - first := by
  constructor
  · rintro ⟨first', stop', hrun, hleast, hj, hj'⟩
    obtain ⟨rfl, rfl⟩ := h.unique hrun hi hi' hj hj'
    exact hleast
  · exact fun hleast ↦ ⟨first, stop, h, hleast, hi, hi'⟩

theorem not_inLongRun_of_occupied {least : ℕ} (hi : occupied i = true) :
    ¬InLongRun occupied total least i := by
  rintro ⟨first, stop, hrun, -, hfirst, hstop⟩
  rw [hrun.free i hfirst hstop] at hi
  cases hi

end Runs

/-! ## The pass -/

/-- The pass from `i` on. -/
def keepShortRuns (occupied : ℕ → Bool) (total least i : ℕ) (keep : List Bool) : List Bool :=
  if hi : i < total then
    if hoccupied : occupied i = true then
      keepShortRuns occupied total least (i + 1) (keep.set i true)
    else
      have _hlt := lt_runEnd hi (eq_false_of_ne_true hoccupied)
      keepShortRuns occupied total least (runEnd occupied total i)
        (if runEnd occupied total i - i < least then setRange keep i (runEnd occupied total i)
          else keep)
  else keep
termination_by total - i

section Pass

variable {occupied : ℕ → Bool} {total least i : ℕ} {keep : List Bool}

theorem getElem?_setRange (keep : List Bool) (first stop j : ℕ) :
    (setRange keep first stop)[j]? =
      keep[j]?.map (fun flag ↦ if first ≤ j ∧ j < stop then true else flag) := by
  simp [setRange]

@[simp] theorem length_setRange (keep : List Bool) (first stop : ℕ) :
    (setRange keep first stop).length = keep.length := by
  simp [setRange]

/-- The flags below `i` are final, those from `i` on are unset, and no free run
crosses `i`. -/
structure Settled (occupied : ℕ → Bool) (total least i : ℕ) (keep : List Bool) : Prop where
  length : keep.length = total
  done : ∀ j < i, keep[j]? = some true ↔ ¬InLongRun occupied total least j
  unset : ∀ j, i ≤ j → keep[j]? ≠ some true
  boundary : i = 0 ∨ i = total ∨ occupied (i - 1) = true ∨ occupied i = true

theorem Settled.replicate (occupied : ℕ → Bool) (total least : ℕ) :
    Settled occupied total least 0 (List.replicate total false) where
  length := List.length_replicate
  done := by simp
  unset := by simp [List.getElem?_replicate]
  boundary := Or.inl rfl

theorem Settled.occupied_step (h : Settled occupied total least i keep) (hi : i < total)
    (hoccupied : occupied i = true) : Settled occupied total least (i + 1) (keep.set i true) where
  length := by rw [List.length_set, h.length]
  done := by
    intro j hj
    rcases Nat.lt_succ_iff_lt_or_eq.mp hj with hlt | rfl
    · rw [List.getElem?_set_ne (Nat.ne_of_gt hlt)]
      exact h.done j hlt
    · rw [List.getElem?_set_self (by rw [h.length]; exact hi)]
      exact iff_of_true rfl (not_inLongRun_of_occupied hoccupied)
  unset := by
    intro j hj
    rw [List.getElem?_set_ne (by omega)]
    exact h.unset j (by omega)
  boundary := Or.inr (Or.inr (Or.inl (by simpa using hoccupied)))

/-- The walk over one free run settles its places. -/
theorem Settled.free_step (h : Settled occupied total least i keep) (hi : i < total)
    (hfree : occupied i = false) :
    Settled occupied total least (runEnd occupied total i)
      (if runEnd occupied total i - i < least then setRange keep i (runEnd occupied total i)
        else keep) := by
  have hleft : i = 0 ∨ occupied (i - 1) = true := by
    rcases h.boundary with hzero | htotal | hoccupied | hoccupied
    · exact Or.inl hzero
    · exact absurd htotal hi.ne
    · exact Or.inr hoccupied
    · rw [hfree] at hoccupied
      cases hoccupied
  have hrun := isRun_runEnd hi hfree hleft
  have hlength := h.length
  have hstop := hrun.bound
  refine ⟨?_, fun j hj ↦ ?_, fun j hj ↦ ?_, ?_⟩
  · split
    · rw [length_setRange, hlength]
    · exact hlength
  · by_cases hji : j < i
    · rw [← h.done j hji]
      split
      · simp [getElem?_setRange, Nat.not_le.mpr hji]
      · rfl
    · have hij : i ≤ j := not_lt.mp hji
      rw [hrun.inLongRun_iff hij hj]
      split
      · rename_i hshort
        have hin : j < keep.length := by omega
        simp [getElem?_setRange, List.getElem?_eq_getElem hin, hij, hj]
        omega
      · rename_i hlong
        exact iff_of_false (h.unset j hij) (by omega)
  · have hrunStart := hrun.nonempty
    have hold := h.unset j (by omega)
    split
    · simpa [getElem?_setRange, Nat.not_lt.mpr hj] using hold
    · exact hold
  · rcases hrun.right with htotal | hoccupied
    · exact Or.inr (Or.inl htotal)
    · exact Or.inr (Or.inr (Or.inr hoccupied))

theorem Settled.keepShortRuns (h : Settled occupied total least i keep) (hi : i ≤ total) :
    Settled occupied total least total (keepShortRuns occupied total least i keep) := by
  induction i, keep using FreeRuns.keepShortRuns.induct occupied total least with
  | case1 i keep hlt hoccupied ih =>
      rw [FreeRuns.keepShortRuns, dif_pos hlt, dif_pos hoccupied]
      exact ih (h.occupied_step hlt hoccupied) hlt
  | case2 i keep hlt hoccupied _ ih =>
      rw [FreeRuns.keepShortRuns, dif_pos hlt, dif_neg hoccupied]
      exact ih (h.free_step hlt (eq_false_of_ne_true hoccupied)) (runEnd_le hlt.le)
  | case3 i keep hge =>
      rw [FreeRuns.keepShortRuns, dif_neg hge]
      have heq : i = total := le_antisymm hi (not_lt.mp hge)
      exact heq ▸ h

@[simp] theorem length_keepShortRuns (occupied : ℕ → Bool) (total least : ℕ) :
    (FreeRuns.keepShortRuns occupied total least 0 (List.replicate total false)).length = total :=
  ((Settled.replicate occupied total least).keepShortRuns (Nat.zero_le _)).length

/-- The pass keeps all places outside long free runs. -/
theorem keepShortRuns_iff {j : ℕ} (hj : j < total) :
    (FreeRuns.keepShortRuns occupied total least 0 (List.replicate total false))[j]? = some true ↔
      ¬InLongRun occupied total least j :=
  ((Settled.replicate occupied total least).keepShortRuns (Nat.zero_le _)).done j hj

end Pass

/-! ## The free places at the end -/

section Trailing

variable {occupied : ℕ → Bool} {total : ℕ}

theorem trailing_le (occupied : ℕ → Bool) (total : ℕ) : trailing occupied total ≤ total := by
  induction total with
  | zero => exact le_rfl
  | succ n ih =>
      rw [trailing]
      split <;> omega

theorem free_of_trailing {i : ℕ} (hi : total - trailing occupied total ≤ i) (hlt : i < total) :
    occupied i = false := by
  induction total with
  | zero => cases hlt
  | succ n ih =>
      rw [trailing] at hi
      split at hi
      · omega
      · rename_i hfree
        rcases Nat.lt_succ_iff_lt_or_eq.mp hlt with hlt | rfl
        · exact ih (by omega) hlt
        · simpa using hfree

theorem trailing_left (occupied : ℕ → Bool) (total : ℕ) :
    total - trailing occupied total = 0 ∨
      occupied (total - trailing occupied total - 1) = true := by
  induction total with
  | zero => exact Or.inl rfl
  | succ n ih =>
      rw [trailing]
      split
      · rename_i hoccupied
        exact Or.inr (by simpa using hoccupied)
      · rwa [Nat.add_sub_add_right]

/-- The free places at the end are a run. -/
theorem isRun_trailing (h : 0 < trailing occupied total) :
    IsRun occupied total (total - trailing occupied total) total where
  nonempty := by
    have hle := trailing_le occupied total
    omega
  bound := le_rfl
  free := fun _ hi hlt ↦ free_of_trailing hi hlt
  left := trailing_left occupied total
  right := Or.inl rfl

/-- The last place is dropped when enough places at the end are free. -/
theorem inLongRun_last_iff {least : ℕ} (hleast : 0 < least) (htotal : 0 < total) :
    InLongRun occupied total least (total - 1) ↔ least ≤ trailing occupied total := by
  have hle := trailing_le occupied total
  rcases Nat.eq_zero_or_pos (trailing occupied total) with hzero | hpos
  · have hoccupied := trailing_left occupied total
    rw [hzero, Nat.sub_zero] at hoccupied
    refine iff_of_false ?_ (by omega)
    rcases hoccupied with hempty | hoccupied
    · omega
    · exact not_inLongRun_of_occupied hoccupied
  · rw [(isRun_trailing hpos).inLongRun_iff (by omega) (by omega), Nat.sub_sub_self hle]

end Trailing

end FreeRuns
