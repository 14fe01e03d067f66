import WinBlaze.Lib.FreeRuns

/-!
# Runs that are closed as they end

A pass over occupied and free places keeps the start of the free run it is in,
and hands a run over at the first place that is not part of it. So it hands over
the maximal runs in their order, and stopped early it has handed over those that
end before it.
-/

namespace FreeRuns

/-- Before place `n`: the runs handed over, and the start of the run that is open. -/
structure Passed (occupied : ℕ → Bool) (total n : ℕ) (start : Option ℕ) (runs : List (ℕ × ℕ)) :
    Prop where
  le_total : n ≤ total
  mem_iff : ∀ first stop, (first, stop) ∈ runs ↔ IsRun occupied total first stop ∧ stop < n
  sorted : runs.Pairwise (fun run next ↦ run.2 < next.1)
  opened : ∀ first ∈ start, first < n ∧ (∀ i, first ≤ i → i < n → occupied i = false) ∧
    (first = 0 ∨ occupied (first - 1) = true)
  closed : start = none → n = 0 ∨ occupied (n - 1) = true

/-- The runs after the open one was handed over at `n`. -/
def closeRun (n : ℕ) (start : Option ℕ) (runs : List (ℕ × ℕ)) : List (ℕ × ℕ) :=
  runs ++ (start.map (fun first ↦ (first, n))).toList

variable {occupied : ℕ → Bool} {total n : ℕ} {start : Option ℕ} {runs : List (ℕ × ℕ)}

theorem passed_zero (occupied : ℕ → Bool) (total : ℕ) : Passed occupied total 0 none [] where
  le_total := Nat.zero_le _
  mem_iff := by simp
  sorted := List.Pairwise.nil
  opened := by simp
  closed := fun _ ↦ Or.inl rfl

/-- A run that ends where another place is free is longer. -/
theorem IsRun.occupied_stop {first stop : ℕ} (h : IsRun occupied total first stop)
    (hlt : stop < total) : occupied stop = true :=
  h.right.resolve_left (Nat.ne_of_lt hlt)

/-- A free place starts a run or goes on with it. -/
theorem Passed.free_step (h : Passed occupied total n start runs) (hn : n < total)
    (hfree : occupied n = false) : Passed occupied total (n + 1) (some (start.getD n)) runs where
  le_total := hn
  mem_iff := by
    intro first stop
    rw [h.mem_iff]
    refine and_congr_right fun hrun ↦ ⟨fun hlt ↦ hlt.trans (Nat.lt_succ_self n), fun hlt ↦ ?_⟩
    refine lt_of_le_of_ne (Nat.le_of_lt_succ hlt) ?_
    rintro rfl
    rw [hrun.occupied_stop hn] at hfree
    cases hfree
  sorted := h.sorted
  opened := by
    intro first hfirst
    obtain rfl := Option.some.inj hfirst
    cases hstart : start with
    | none =>
        refine ⟨Nat.lt_succ_self n, fun i hi hlt ↦ ?_, h.closed hstart⟩
        rwa [le_antisymm (Nat.le_of_lt_succ hlt) hi]
    | some first =>
        obtain ⟨hlt, hall, hleft⟩ := h.opened first hstart
        refine ⟨hlt.trans (Nat.lt_succ_self n), fun i hi hin ↦ ?_, hleft⟩
        rcases Nat.lt_succ_iff_lt_or_eq.mp hin with hbefore | rfl
        · exact hall i hi hbefore
        · exact hfree
  closed := by simp

/-- At the end, or at a place that is occupied, the open run is a maximal one. -/
theorem Passed.close (h : Passed occupied total n start runs)
    (hright : n = total ∨ occupied n = true) :
    (∀ first stop, (first, stop) ∈ closeRun n start runs ↔
      IsRun occupied total first stop ∧ stop < n + 1) ∧
    (closeRun n start runs).Pairwise (fun run next ↦ run.2 < next.1) := by
  unfold closeRun
  cases hstart : start with
  | none =>
      simp only [Option.map_none, Option.toList_none, List.append_nil]
      refine ⟨fun first stop ↦ ?_, h.sorted⟩
      rw [h.mem_iff]
      refine and_congr_right fun hrun ↦ ⟨fun hlt ↦ hlt.trans (Nat.lt_succ_self n), fun hlt ↦ ?_⟩
      refine lt_of_le_of_ne (Nat.le_of_lt_succ hlt) ?_
      rintro rfl
      have hnonempty := hrun.nonempty
      rcases h.closed hstart with rfl | hoccupied
      · exact absurd hnonempty (Nat.not_lt_zero _)
      · rw [hrun.free (stop - 1) (by omega) (by omega)] at hoccupied
        cases hoccupied
  | some opened =>
      obtain ⟨hlt, hall, hleft⟩ := h.opened opened hstart
      have hopened : IsRun occupied total opened n :=
        { nonempty := hlt, bound := h.le_total, free := hall, left := hleft, right := hright }
      simp only [Option.map_some, Option.toList_some]
      refine ⟨fun first stop ↦ ?_, ?_⟩
      · rw [List.mem_append, List.mem_singleton, h.mem_iff]
        constructor
        · rintro (⟨hrun, hbefore⟩ | heq)
          · exact ⟨hrun, hbefore.trans (Nat.lt_succ_self n)⟩
          · cases heq
            exact ⟨hopened, Nat.lt_succ_self n⟩
        · rintro ⟨hrun, hbefore⟩
          rcases Nat.lt_succ_iff_lt_or_eq.mp hbefore with hbefore | rfl
          · exact Or.inl ⟨hrun, hbefore⟩
          · have hnonempty := hrun.nonempty
            obtain ⟨rfl, -⟩ := hrun.unique hopened (i := stop - 1) (by omega) (by omega) (by omega)
              (by omega)
            exact Or.inr rfl
      · refine List.pairwise_append.mpr ⟨h.sorted, List.pairwise_singleton _ _, ?_⟩
        rintro ⟨first, stop⟩ hrun next hnext
        obtain rfl := List.mem_singleton.mp hnext
        obtain ⟨hrun, hbefore⟩ := (h.mem_iff first stop).mp hrun
        have hoccupied := hrun.occupied_stop (hbefore.trans_le h.le_total)
        by_contra hle
        rw [hall stop (Nat.not_lt.mp hle) hbefore] at hoccupied
        cases hoccupied

/-- An occupied place closes the open run. -/
theorem Passed.occupied_step (h : Passed occupied total n start runs) (hn : n < total)
    (hoccupied : occupied n = true) : Passed occupied total (n + 1) none (closeRun n start runs) where
  le_total := hn
  mem_iff := (h.close (Or.inr hoccupied)).1
  sorted := (h.close (Or.inr hoccupied)).2
  opened := by simp
  closed := fun _ ↦ Or.inr hoccupied

end FreeRuns
