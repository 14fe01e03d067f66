import Mathlib.Data.List.Basic
import Mathlib.Order.WellFounded
import Mathlib.Data.Prod.Lex

/-!
# Matching with wildcards and one place to retry from

A pattern is a list of stars and of symbols that stand for one symbol of the text.
The matcher prefers a symbol to a star, and remembers only the last star that it
took for one. It accepts the texts in which every star that faces a symbol it could
stand for itself takes exactly that symbol.
-/

namespace Glob

variable {α β : Type*} (same : α → β → Bool) (isStar : α → Bool)

/-- The language of a pattern. -/
inductive Accepts : List α → List β → Prop
  | nil : Accepts [] []
  | one {c d pattern text} : isStar c = false → same c d = true → Accepts pattern text →
      Accepts (c :: pattern) (d :: text)
  | star {c pattern} (taken : List β) {text} : isStar c = true → Accepts pattern text →
      Accepts (c :: pattern) (taken ++ text)

/-- The language without the choice of a star that could stand for the symbol it faces. -/
inductive AcceptsLiterally : List α → List β → Prop
  | nil : AcceptsLiterally [] []
  | one {c d pattern text} : same c d = true → AcceptsLiterally pattern text →
      AcceptsLiterally (c :: pattern) (d :: text)
  | star {c pattern} (taken : List β) {text} : isStar c = true →
      (∀ d ∈ (taken ++ text).head?, same c d = false) → AcceptsLiterally pattern text →
      AcceptsLiterally (c :: pattern) (taken ++ text)

/-! ## The matcher -/

structure Cursor where
  pattern : ℕ := 0
  text : ℕ := 0
  star : Option ℕ := none
  retry : ℕ := 0

/-- A pass of the loop at a symbol of the text; `none` when nothing is left to try. -/
def Cursor.step (pattern : List α) (cursor : Cursor) (d : β) : Option Cursor :=
  if (pattern[cursor.pattern]?).any (same · d) then
    some { cursor with pattern := cursor.pattern + 1, text := cursor.text + 1 }
  else if (pattern[cursor.pattern]?).any isStar then
    some { cursor with
      star := some cursor.pattern, pattern := cursor.pattern + 1, retry := cursor.text }
  else
    cursor.star.map fun index ↦
      { cursor with retry := cursor.retry + 1, text := cursor.retry + 1, pattern := index + 1 }

/-- `none` when the answer takes more than `fuel` passes. -/
def Cursor.run (pattern : List α) (text : List β) : ℕ → Cursor → Option Bool
  | 0, _ => none
  | fuel + 1, cursor =>
      match text[cursor.text]? with
      | none => some ((pattern.drop cursor.pattern).dropWhile isStar).isEmpty
      | some d =>
          match cursor.step same isStar pattern d with
          | none => some false
          | some next => Cursor.run pattern text fuel next

/-- The run ends, and its answer says whether `accepted` holds. -/
def Decides (run : ℕ → Option Bool) (accepted : Prop) : Prop :=
  (∃ fuel, (run fuel).isSome) ∧ ∀ fuel answer, run fuel = some answer → (answer = true ↔ accepted)

theorem Decides.iff {run : ℕ → Option Bool} {accepted : Prop} (h : Decides run accepted)
    (other : Prop) : Decides run other ↔ (other ↔ accepted) := by
  obtain ⟨⟨fuel, hsome⟩, hanswer⟩ := h
  obtain ⟨answer, hrun⟩ := Option.isSome_iff_exists.mp hsome
  constructor
  · intro hother
    exact (hother.2 fuel answer hrun).symm.trans (hanswer fuel answer hrun)
  · intro hiff
    exact ⟨⟨fuel, hsome⟩, fun fuel answer hrun ↦ (hanswer fuel answer hrun).trans hiff.symm⟩

variable {same isStar}

/-! ## The languages -/

theorem AcceptsLiterally.accepts {pattern : List α} {text : List β}
    (h : AcceptsLiterally same isStar pattern text) : Accepts same isStar pattern text := by
  induction h with
  | nil => exact .nil
  | @one c d pattern text hsame _ ih =>
      cases hstar : isStar c with
      | false => exact .one hstar hsame ih
      | true => exact .star [d] hstar ih
  | star taken hstar _ _ ih => exact .star taken hstar ih

/-- The languages are one where the text has no symbol that a star could stand for itself. -/
theorem Accepts.literally {pattern : List α} {text : List β} (h : Accepts same isStar pattern text)
    (htext : ∀ c, isStar c = true → ∀ d ∈ text, same c d = false) :
    AcceptsLiterally same isStar pattern text := by
  induction h with
  | nil => exact .nil
  | one _ hsame _ ih =>
      exact .one hsame (ih fun c hc d hd ↦ htext c hc d (List.mem_cons_of_mem _ hd))
  | star taken hstar _ ih =>
      refine .star taken hstar (fun d hd ↦ ?_)
        (ih fun c hc d hd ↦ htext c hc d (List.mem_append_right _ hd))
      exact htext _ hstar d (List.mem_of_mem_head? hd)

/-- What follows the first symbol of a pattern matches from a later place on, and from the
next one if the symbol could stand for the one it faces. -/
theorem AcceptsLiterally.rest {c : α} {pattern : List α} {text : List β} {place : ℕ}
    (h : AcceptsLiterally same isStar (c :: pattern) (text.drop place)) :
    ∃ next, place ≤ next ∧ (∀ d ∈ text[place]?, same c d = true → next = place + 1) ∧
      AcceptsLiterally same isStar pattern (text.drop next) := by
  generalize hfaced : text.drop place = faced at h
  cases h with
  | @one _ d _ rest _ hrest =>
      have hdrop : text.drop (place + 1) = rest := by
        rw [← List.drop_drop, hfaced]
        rfl
      exact ⟨place + 1, by omega, fun _ _ _ ↦ rfl, hdrop ▸ hrest⟩
  | @star _ _ taken rest _ hhead hrest =>
      have hdrop : text.drop (place + taken.length) = rest := by
        rw [← List.drop_drop, hfaced]
        exact List.drop_left
      refine ⟨place + taken.length, by omega, fun d hd hsame ↦ ?_, hdrop ▸ hrest⟩
      have hfirst : d ∈ (taken ++ rest).head? := by
        rw [← hfaced, List.head?_drop]
        exact hd
      rw [hhead d hfirst] at hsame
      cases hsame

theorem acceptsLiterally_star {c : α} {pattern : List α} {text : List β} {place next : ℕ}
    (hstar : isStar c = true) (hfaced : ∀ d ∈ text[place]?, same c d = false) (hle : place ≤ next)
    (h : AcceptsLiterally same isStar pattern (text.drop next)) :
    AcceptsLiterally same isStar (c :: pattern) (text.drop place) := by
  have hsplit : text.drop place = (text.drop place).take (next - place) ++ text.drop next := by
    have hdrop : text.drop next = (text.drop place).drop (next - place) := by
      rw [List.drop_drop]
      congr 1
      omega
    rw [hdrop, List.take_append_drop]
  have hhead : ∀ d ∈ ((text.drop place).take (next - place) ++ text.drop next).head?,
      same c d = false := by
    rw [← hsplit, List.head?_drop]
    exact hfaced
  rw [hsplit]
  exact .star _ hstar hhead h

/-- At the end of the text only stars match. -/
theorem acceptsLiterally_empty_iff {pattern : List α} :
    AcceptsLiterally same isStar pattern [] ↔ pattern.dropWhile isStar = [] := by
  induction pattern with
  | nil => simp [AcceptsLiterally.nil]
  | cons c pattern ih =>
      cases hstar : isStar c with
      | false =>
          rw [List.dropWhile_cons_of_neg (by simp [hstar])]
          refine iff_of_false (fun h ↦ ?_) (List.cons_ne_nil c pattern)
          generalize hempty : ([] : List β) = text at h
          cases h with
          | one => cases hempty
          | star _ htrue => simp [hstar] at htrue
      | true =>
          rw [List.dropWhile_cons_of_pos hstar, ← ih]
          constructor
          · intro h
            have hdrop : AcceptsLiterally same isStar (c :: pattern) (([] : List β).drop 0) := h
            obtain ⟨next, -, -, hrest⟩ := hdrop.rest
            rwa [List.drop_nil] at hrest
          · intro h
            exact .star [] hstar (by simp) h

/-! ## Cursors -/

section Cursor

variable (same isStar) (pattern : List α) (text : List β)

/-- From two places on, `count` symbols of the pattern stand for those of the text. -/
def Aligned (place start count : ℕ) : Prop :=
  ∀ j < count, ∃ c ∈ pattern[place + j]?, ∃ d ∈ text[start + j]?, same c d = true

/-- What the star of a cursor remembers is aligned up to the cursor. -/
structure Cursor.Valid (cursor : Cursor) : Prop where
  pattern_le : cursor.pattern ≤ pattern.length
  text_le : cursor.text ≤ text.length
  retry_le : cursor.retry ≤ cursor.text
  star : ∀ index ∈ cursor.star, ∃ count, cursor.pattern = index + 1 + count ∧
    cursor.text = cursor.retry + count ∧ Aligned same pattern text (index + 1) cursor.retry count

/-- The text is accepted from the cursor on, or behind its star at a later place. -/
def Cursor.Pending (cursor : Cursor) : Prop :=
  AcceptsLiterally same isStar (pattern.drop cursor.pattern) (text.drop cursor.text) ∨
    ∃ index ∈ cursor.star, ∃ place, cursor.retry < place ∧
      AcceptsLiterally same isStar (pattern.drop (index + 1)) (text.drop place)

end Cursor

variable {pattern : List α} {text : List β} {cursor next : Cursor} {d : β}

/-- Behind aligned symbols a match from a later place on is still at a later place. -/
theorem Aligned.shift {place start count later : ℕ}
    (h : Aligned same pattern text place start count) (hle : start ≤ later)
    (haccepts : AcceptsLiterally same isStar (pattern.drop place) (text.drop later)) :
    ∃ next, start + count ≤ next ∧
      AcceptsLiterally same isStar (pattern.drop (place + count)) (text.drop next) := by
  induction count with
  | zero => exact ⟨later, hle, haccepts⟩
  | succ count ih =>
      obtain ⟨between, hbetween, hrest⟩ := ih fun j hj ↦ h j (by omega)
      obtain ⟨c, hc, d, hd, hsame⟩ := h count (by omega)
      obtain ⟨hlt, rfl⟩ := List.getElem?_eq_some_iff.mp hc
      rw [List.drop_eq_getElem_cons hlt] at hrest
      obtain ⟨next, hnext, hfaced, haccepts⟩ := hrest.rest
      refine ⟨next, ?_, haccepts⟩
      rcases Nat.lt_or_ge (start + count) between with hlater | hge
      · omega
      · -- The star is where the aligned one was, and faces the same symbol.
        obtain rfl : between = start + count := by omega
        have hone := hfaced d hd hsame
        omega

namespace Cursor

theorem step_eq_some (h : cursor.step same isStar pattern d = some next) :
    (∃ c ∈ pattern[cursor.pattern]?, same c d = true ∧
      next = { cursor with pattern := cursor.pattern + 1, text := cursor.text + 1 }) ∨
    (∃ c ∈ pattern[cursor.pattern]?, same c d = false ∧ isStar c = true ∧
      next = { cursor with
        star := some cursor.pattern, pattern := cursor.pattern + 1, retry := cursor.text }) ∨
    (∃ index ∈ cursor.star, (∀ c ∈ pattern[cursor.pattern]?, same c d = false ∧ isStar c = false) ∧
      next = { cursor with
        retry := cursor.retry + 1, text := cursor.retry + 1, pattern := index + 1 }) := by
  unfold step at h
  cases hget : pattern[cursor.pattern]? with
  | none =>
      simp only [hget, Option.any_none, Bool.false_eq_true, if_false, Option.map_eq_some_iff] at h
      obtain ⟨index, hstar, rfl⟩ := h
      exact Or.inr (Or.inr ⟨index, hstar, by simp, rfl⟩)
  | some c =>
      simp only [hget, Option.any_some] at h
      cases hsame : same c d with
      | true =>
          rw [if_pos hsame] at h
          exact Or.inl ⟨c, rfl, hsame, (Option.some.inj h).symm⟩
      | false =>
          rw [if_neg (by simp [hsame])] at h
          cases hstar : isStar c with
          | true =>
              rw [if_pos hstar] at h
              exact Or.inr (Or.inl ⟨c, rfl, hsame, hstar, (Option.some.inj h).symm⟩)
          | false =>
              rw [if_neg (by simp [hstar]), Option.map_eq_some_iff] at h
              obtain ⟨index, hindex, rfl⟩ := h
              refine Or.inr (Or.inr ⟨index, hindex, fun e he ↦ ?_, rfl⟩)
              obtain rfl := Option.some.inj he
              exact ⟨hsame, hstar⟩

theorem step_eq_none (h : cursor.step same isStar pattern d = none) :
    cursor.star = none ∧ ∀ c ∈ pattern[cursor.pattern]?, same c d = false ∧ isStar c = false := by
  unfold step at h
  split at h
  case isTrue => cases h
  case isFalse hsame =>
      split at h
      case isTrue => cases h
      case isFalse hstar =>
          refine ⟨Option.map_eq_none_iff.mp h, fun c hc ↦ ?_⟩
          have hget : pattern[cursor.pattern]? = some c := hc
          simpa [hget] using And.intro hsame hstar

/-- Nothing is accepted where no symbol and no star of the pattern can go on. -/
theorem not_acceptsLiterally (hget : text[cursor.text]? = some d)
    (hstuck : ∀ c ∈ pattern[cursor.pattern]?, same c d = false ∧ isStar c = false) :
    ¬ AcceptsLiterally same isStar (pattern.drop cursor.pattern) (text.drop cursor.text) := by
  obtain ⟨hlt, rfl⟩ := List.getElem?_eq_some_iff.mp hget
  rw [List.drop_eq_getElem_cons hlt]
  intro h
  generalize hrest : pattern.drop cursor.pattern = rest at h
  generalize hfaced : text[cursor.text] :: text.drop (cursor.text + 1) = faced at h
  have hfirst : ∀ c ∈ rest.head?, same c text[cursor.text] = false ∧ isStar c = false := by
    rw [← hrest, List.head?_drop]
    exact hstuck
  cases h with
  | nil => cases hfaced
  | one hsame =>
      obtain ⟨rfl, -⟩ := List.cons.inj hfaced
      simp [(hfirst _ rfl).1] at hsame
  | star _ hstar => simp [(hfirst _ rfl).2] at hstar

theorem Valid.step (h : cursor.Valid same pattern text) (hget : text[cursor.text]? = some d)
    (hstep : cursor.step same isStar pattern d = some next) : next.Valid same pattern text := by
  have hlt : cursor.text < text.length := (List.getElem?_eq_some_iff.mp hget).1
  have hretry := h.retry_le
  rcases step_eq_some hstep with ⟨c, hc, hsame, rfl⟩ | ⟨c, hc, -, -, rfl⟩ | ⟨index, hindex, -, rfl⟩
  · have hpattern : cursor.pattern < pattern.length := (List.getElem?_eq_some_iff.mp hc).1
    refine ⟨hpattern, hlt, Nat.le_succ_of_le hretry, fun index hindex ↦ ?_⟩
    obtain ⟨count, hcount, htext, haligned⟩ := h.star index hindex
    refine ⟨count + 1, congrArg (· + 1) hcount, congrArg (· + 1) htext, fun j hj ↦ ?_⟩
    rcases Nat.lt_or_eq_of_le (Nat.le_of_lt_succ hj) with hbefore | rfl
    · exact haligned j hbefore
    · rw [← hcount, ← htext]
      exact ⟨c, hc, d, hget, hsame⟩
  · have hpattern : cursor.pattern < pattern.length := (List.getElem?_eq_some_iff.mp hc).1
    refine ⟨hpattern, h.text_le, le_rfl, fun index hindex ↦ ?_⟩
    obtain rfl := Option.some.inj hindex
    exact ⟨0, rfl, rfl, fun j hj ↦ absurd hj (Nat.not_lt_zero j)⟩
  · obtain ⟨count, hcount, -, -⟩ := h.star index hindex
    have hpattern := h.pattern_le
    refine ⟨by simp only; omega, by simp only; omega, le_rfl, fun other hother ↦ ?_⟩
    obtain rfl := Option.some.inj (hindex.symm.trans hother)
    exact ⟨0, rfl, rfl, fun j hj ↦ absurd hj (Nat.not_lt_zero j)⟩

/-- What the star of a cursor may still give is found from the cursor's place on. -/
theorem Valid.shift (h : cursor.Valid same pattern text) {index place : ℕ}
    (hindex : index ∈ cursor.star) (hplace : cursor.retry < place)
    (haccepts : AcceptsLiterally same isStar (pattern.drop (index + 1)) (text.drop place)) :
    ∃ later, cursor.text ≤ later ∧
      AcceptsLiterally same isStar (pattern.drop cursor.pattern) (text.drop later) := by
  obtain ⟨count, hcount, htext, haligned⟩ := h.star index hindex
  rw [hcount, htext]
  exact haligned.shift hplace.le haccepts

theorem pending_step (h : cursor.Valid same pattern text) (hget : text[cursor.text]? = some d)
    (hstep : cursor.step same isStar pattern d = some next) :
    next.Pending same isStar pattern text ↔ cursor.Pending same isStar pattern text := by
  obtain ⟨hlt, rfl⟩ := List.getElem?_eq_some_iff.mp hget
  rcases step_eq_some hstep with ⟨c, hc, hsame, rfl⟩ | ⟨c, hc, hsame, hstar, rfl⟩ |
    ⟨index, hindex, hstuck, rfl⟩
  · obtain ⟨hpattern, rfl⟩ := List.getElem?_eq_some_iff.mp hc
    have hcons : AcceptsLiterally same isStar (pattern.drop cursor.pattern)
        (text.drop cursor.text) ↔ AcceptsLiterally same isStar (pattern.drop (cursor.pattern + 1))
          (text.drop (cursor.text + 1)) := by
      constructor
      · intro haccepts
        rw [List.drop_eq_getElem_cons hpattern] at haccepts
        obtain ⟨place, -, hone, hrest⟩ := haccepts.rest
        rwa [hone _ hget hsame] at hrest
      · intro haccepts
        rw [List.drop_eq_getElem_cons hpattern, List.drop_eq_getElem_cons hlt]
        exact .one hsame haccepts
    unfold Pending
    rw [hcons]
  · obtain ⟨hpattern, rfl⟩ := List.getElem?_eq_some_iff.mp hc
    have hfaced : ∀ d ∈ text[cursor.text]?, same pattern[cursor.pattern] d = false := by
      intro d hd
      obtain rfl := Option.some.inj (hget.symm.trans hd)
      exact hsame
    -- The star takes nothing, or what lies before a later place.
    have htaken : AcceptsLiterally same isStar (pattern.drop cursor.pattern)
        (text.drop cursor.text) ↔ ∃ place, cursor.text ≤ place ∧
          AcceptsLiterally same isStar (pattern.drop (cursor.pattern + 1)) (text.drop place) := by
      rw [List.drop_eq_getElem_cons hpattern]
      constructor
      · intro haccepts
        obtain ⟨place, hle, -, hrest⟩ := haccepts.rest
        exact ⟨place, hle, hrest⟩
      · rintro ⟨place, hle, hrest⟩
        exact acceptsLiterally_star hstar hfaced hle hrest
    constructor
    · rintro (haccepts | ⟨index, hindex, place, hplace, haccepts⟩)
      · exact Or.inl (htaken.mpr ⟨cursor.text, le_rfl, haccepts⟩)
      · obtain rfl := Option.some.inj hindex
        exact Or.inl (htaken.mpr ⟨place, hplace.le, haccepts⟩)
    · intro hpending
      have hlater : ∃ place, cursor.text ≤ place ∧
          AcceptsLiterally same isStar (pattern.drop (cursor.pattern + 1)) (text.drop place) := by
        rcases hpending with haccepts | ⟨index, hindex, place, hplace, haccepts⟩
        · exact htaken.mp haccepts
        · obtain ⟨later, hlater, hfrom⟩ := h.shift hindex hplace haccepts
          rw [List.drop_eq_getElem_cons hpattern] at hfrom
          obtain ⟨last, hlast, -, hrest⟩ := hfrom.rest
          exact ⟨last, by omega, hrest⟩
      obtain ⟨place, hle, haccepts⟩ := hlater
      rcases Nat.eq_or_lt_of_le hle with rfl | hgt
      · exact Or.inl haccepts
      · exact Or.inr ⟨cursor.pattern, rfl, place, hgt, haccepts⟩
  · have hnot := not_acceptsLiterally hget hstuck
    constructor
    · rintro (haccepts | ⟨other, hother, place, hplace, haccepts⟩)
      · exact Or.inr ⟨index, hindex, cursor.retry + 1, Nat.lt_succ_self _, haccepts⟩
      · exact Or.inr ⟨other, hother, place, by simp only at hplace; omega, haccepts⟩
    · rintro (haccepts | ⟨other, hother, place, hplace, haccepts⟩)
      · exact (hnot haccepts).elim
      · obtain rfl := Option.some.inj (hindex.symm.trans hother)
        rcases Nat.eq_or_lt_of_le hplace with rfl | hgt
        · exact Or.inl haccepts
        · exact Or.inr ⟨index, hother, place, hgt, haccepts⟩

/-- What is left: the places to retry from, then the stars behind the last, then the text. -/
def remaining (pattern : List α) (text : List β) (cursor : Cursor) : ℕ ×ₗ ℕ ×ₗ ℕ :=
  toLex (text.length - cursor.retry,
    toLex (pattern.length - cursor.star.elim 0 (· + 1), text.length - cursor.text))

theorem remaining_step (h : cursor.Valid same pattern text) (hget : text[cursor.text]? = some d)
    (hstep : cursor.step same isStar pattern d = some next) :
    remaining pattern text next < remaining pattern text cursor := by
  have hlt : cursor.text < text.length := (List.getElem?_eq_some_iff.mp hget).1
  have hretry := h.retry_le
  unfold remaining
  rw [Prod.Lex.toLex_lt_toLex, Prod.Lex.toLex_lt_toLex]
  rcases step_eq_some hstep with ⟨c, hc, hsame, rfl⟩ | ⟨c, hc, -, -, rfl⟩ | ⟨index, hindex, -, rfl⟩
  · exact Or.inr ⟨rfl, Or.inr ⟨rfl, by simp only; omega⟩⟩
  · have hpattern : cursor.pattern < pattern.length := (List.getElem?_eq_some_iff.mp hc).1
    have hstar : cursor.star.elim 0 (· + 1) ≤ cursor.pattern := by
      cases hindex : cursor.star with
      | none => exact Nat.zero_le _
      | some index =>
          obtain ⟨count, hcount, -⟩ := h.star index hindex
          simp only [Option.elim_some]
          omega
    simp only [Option.elim_some]
    omega
  · exact Or.inl (by simp only; omega)

end Cursor

/-! ## Runs -/

namespace Cursor

theorem Valid.run_isSome (h : cursor.Valid same pattern text) :
    ∃ fuel, (cursor.run same isStar pattern text fuel).isSome := by
  induction hremaining : remaining pattern text cursor using WellFoundedLT.induction
    generalizing cursor with
  | ind rest ih =>
      cases hget : text[cursor.text]? with
      | none => exact ⟨1, by simp [run, hget]⟩
      | some d =>
          cases hstep : cursor.step same isStar pattern d with
          | none => exact ⟨1, by simp [run, hget, hstep]⟩
          | some next =>
              have hless := remaining_step h hget hstep
              obtain ⟨fuel, hrun⟩ := ih _ (hremaining ▸ hless) (h.step hget hstep) rfl
              exact ⟨fuel + 1, by simpa [run, hget, hstep] using hrun⟩

theorem Valid.pending_end (h : cursor.Valid same pattern text) (hget : text[cursor.text]? = none) :
    cursor.Pending same isStar pattern text ↔
      (pattern.drop cursor.pattern).dropWhile isStar = [] := by
  have hend : ∀ place, cursor.text ≤ place → text.drop place = [] := fun place hle ↦
    List.drop_eq_nil_of_le ((List.getElem?_eq_none_iff.mp hget).trans hle)
  have hempty : AcceptsLiterally same isStar (pattern.drop cursor.pattern) [] ↔
      (pattern.drop cursor.pattern).dropWhile isStar = [] := acceptsLiterally_empty_iff
  unfold Pending
  rw [← hempty, hend _ le_rfl]
  constructor
  · rintro (haccepts | ⟨index, hindex, place, hplace, haccepts⟩)
    · exact haccepts
    · obtain ⟨later, hlater, hfrom⟩ := h.shift hindex hplace haccepts
      rwa [hend later hlater] at hfrom
  · exact Or.inl

theorem Valid.run_iff (h : cursor.Valid same pattern text) {fuel : ℕ} {answer : Bool}
    (hrun : cursor.run same isStar pattern text fuel = some answer) :
    answer = true ↔ cursor.Pending same isStar pattern text := by
  induction fuel generalizing cursor with
  | zero => cases hrun
  | succ fuel ih =>
      cases hget : text[cursor.text]? with
      | none =>
          simp only [run, hget, Option.some.injEq] at hrun
          rw [h.pending_end hget, ← hrun, List.isEmpty_iff]
      | some d =>
          cases hstep : cursor.step same isStar pattern d with
          | none =>
              obtain ⟨hstar, hstuck⟩ := step_eq_none hstep
              simp only [run, hget, hstep, Option.some.injEq] at hrun
              rw [← hrun]
              refine iff_of_false Bool.false_ne_true ?_
              rintro (haccepts | ⟨index, hindex, -⟩)
              · exact not_acceptsLiterally hget hstuck haccepts
              · rw [hstar] at hindex
                cases hindex
          | some next =>
              simp only [run, hget, hstep] at hrun
              exact (ih (h.step hget hstep) hrun).trans (pending_step h hget hstep)

variable (same isStar pattern text)

/-- The matcher decides the language in which stars stand for themselves where they can. -/
theorem decides_run : Decides (fun fuel ↦ run same isStar pattern text fuel {})
    (AcceptsLiterally same isStar pattern text) := by
  have hvalid : Valid same pattern text ({} : Cursor) :=
    ⟨Nat.zero_le _, Nat.zero_le _, le_rfl, fun index hindex ↦ by cases hindex⟩
  have hpending : Pending same isStar pattern text {} ↔
      AcceptsLiterally same isStar pattern text := by
    constructor
    · rintro (haccepts | ⟨index, hindex, -⟩)
      · exact haccepts
      · cases hindex
    · exact Or.inl
  exact ⟨hvalid.run_isSome, fun fuel answer hrun ↦ (hvalid.run_iff hrun).trans hpending⟩

end Cursor

end Glob
