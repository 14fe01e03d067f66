import Mathlib.Data.List.Basic

/-!
# Readers that hand out a stream

A reader's state determines what is still unread. When every call hands out the
front of it, the calls of a run hand out the front of the whole stream, and a
call that reports the end is only made behind all of it.
-/

namespace Streams

variable {σ κ ρ β : Type*}

/-- The outcomes of these calls in order, and the state they leave. -/
def run (read : σ → κ → ρ × σ) (s : σ) : List κ → List ρ × σ
  | [] => ([], s)
  | call :: rest => ((read s call).1 :: (run read (read s call).2 rest).1,
      (run read (read s call).2 rest).2)

/-- Every call hands out the front of what is unread, and one that reports the
end had nothing to hand out. -/
structure Reads (read : σ → κ → ρ × σ) (bytes : ρ → List β) (unread : σ → List β)
    (reportsEnd : κ → ρ → Prop) (inv : σ → Prop) : Prop where
  inv_read : ∀ s call, inv s → inv (read s call).2
  unread_eq : ∀ s call, inv s → unread s = bytes (read s call).1 ++ unread (read s call).2
  unread_of_end : ∀ s call, inv s → reportsEnd call (read s call).1 → unread s = []

variable {read : σ → κ → ρ × σ} {bytes : ρ → List β} {unread : σ → List β}
  {reportsEnd : κ → ρ → Prop} {inv : σ → Prop}

theorem Reads.inv_run (h : Reads read bytes unread reportsEnd inv) {s : σ} (hs : inv s)
    (calls : List κ) : inv (run read s calls).2 := by
  induction calls generalizing s with
  | nil => exact hs
  | cons call rest ih => exact ih (h.inv_read s call hs)

theorem Reads.unread_run (h : Reads read bytes unread reportsEnd inv) {s : σ} (hs : inv s)
    (calls : List κ) :
    unread s = (run read s calls).1.flatMap bytes ++ unread (run read s calls).2 := by
  induction calls generalizing s with
  | nil => rfl
  | cons call rest ih =>
      rw [run, List.flatMap_cons, List.append_assoc, ← ih (h.inv_read s call hs)]
      exact h.unread_eq s call hs

theorem Reads.isPrefix_run (h : Reads read bytes unread reportsEnd inv) {s : σ} (hs : inv s)
    (calls : List κ) : (run read s calls).1.flatMap bytes <+: unread s :=
  ⟨_, (h.unread_run hs calls).symm⟩

/-- Before a call that reports the end the whole stream has been handed out. -/
theorem Reads.eq_of_end (h : Reads read bytes unread reportsEnd inv) {s : σ} (hs : inv s)
    (calls : List κ) {call : κ}
    (hend : reportsEnd call (read (run read s calls).2 call).1) :
    (run read s calls).1.flatMap bytes = unread s := by
  have hnone := h.unread_of_end _ call (h.inv_run hs calls) hend
  rw [h.unread_run hs calls, hnone, List.append_nil]

/-- A property of outcomes that every call has. -/
theorem Reads.forall_mem_run (h : Reads read bytes unread reportsEnd inv) {p : ρ → Prop}
    (hp : ∀ s call, inv s → p (read s call).1) {s : σ} (hs : inv s) (calls : List κ) :
    ∀ outcome ∈ (run read s calls).1, p outcome := by
  induction calls generalizing s with
  | nil => simp [run]
  | cons call rest ih =>
      rw [run, List.forall_mem_cons]
      exact ⟨hp s call hs, ih (h.inv_read s call hs)⟩

end Streams
