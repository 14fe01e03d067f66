import Mathlib.Algebra.Order.Group.Nat
import Mathlib.Data.Nat.Basic
import Mathlib.Order.Basic

/-!
# Decimal numbers

Writing a number from its last digit to its first, and reading an optional sign
and digits.
-/

namespace Decimal

def digitChar (d : ℕ) : Char := Char.ofNat (48 + d)

def digitValue (c : Char) : Option ℕ :=
  if 48 ≤ c.toNat ∧ c.toNat ≤ 57 then some (c.toNat - 48) else none

/-- The digits of `n` in front of `tail`, where there is room for `slots` digits. -/
def writeDigits : ℕ → ℕ → List Char → List Char
  | 0, _, tail => tail
  | slots + 1, n, tail =>
      if n / 10 = 0 then digitChar (n % 10) :: tail
      else writeDigits slots (n / 10) (digitChar (n % 10) :: tail)

def addDigit (value : Option ℕ) (c : Char) : Option ℕ :=
  value.bind fun v ↦ (digitValue c).map fun d ↦ 10 * v + d

/-- The value of one digit or more. -/
def parseDigits (text : List Char) : Option ℕ :=
  if text.isEmpty then none else text.foldl addDigit (some 0)

/-- An unsigned number below `bound`. A plus sign is allowed. -/
def parseUnsigned (bound : ℕ) (text : List Char) : Option ℕ :=
  (match text with
    | '+' :: rest => parseDigits rest
    | text => parseDigits text).filter (· < bound)

/-- A number from `-bound` to `bound - 1` with an optional sign. -/
def parseSigned (bound : ℕ) (text : List Char) : Option ℤ :=
  (match text with
    | '-' :: rest => (parseDigits rest).map fun n : ℕ ↦ -(n : ℤ)
    | '+' :: rest => (parseDigits rest).map fun n : ℕ ↦ (n : ℤ)
    | text => (parseDigits text).map fun n : ℕ ↦ (n : ℤ)).filter
      fun n : ℤ ↦ -(bound : ℤ) ≤ n ∧ n < bound

/-- The text is digits that denote the number. -/
def IsNumeral (text : List Char) (n : ℕ) : Prop :=
  ∃ digits : List ℕ, digits ≠ [] ∧ (∀ d ∈ digits, d < 10) ∧ text = digits.map digitChar ∧
    n = digits.foldl (fun value d ↦ 10 * value + d) 0

theorem toNat_digitChar {d : ℕ} (h : d < 10) : (digitChar d).toNat = 48 + d := by
  revert d
  decide

theorem digitValue_digitChar {d : ℕ} (h : d < 10) : digitValue (digitChar d) = some d := by
  rw [digitValue, toNat_digitChar h, if_pos (by omega), Nat.add_sub_cancel_left]

theorem digitValue_eq_some_iff {c : Char} {d : ℕ} :
    digitValue c = some d ↔ d < 10 ∧ c = digitChar d := by
  refine ⟨fun h ↦ ?_, fun ⟨hd, hc⟩ ↦ hc ▸ digitValue_digitChar hd⟩
  unfold digitValue at h
  split at h
  case isTrue hbounds =>
    have hvalue := Option.some.inj h
    have hd : d < 10 := by omega
    refine ⟨hd, Char.toNat_inj.mp ?_⟩
    have hchar := toNat_digitChar hd
    omega
  case isFalse => cases h

theorem foldl_addDigit_eq_some_iff {text : List Char} {start n : ℕ} :
    text.foldl addDigit (some start) = some n ↔ ∃ digits : List ℕ, (∀ d ∈ digits, d < 10) ∧
      text = digits.map digitChar ∧ n = digits.foldl (fun value d ↦ 10 * value + d) start := by
  induction text generalizing start with
  | nil =>
      constructor
      · intro h
        exact ⟨[], by simp, rfl, (Option.some.inj h).symm⟩
      · rintro ⟨digits, -, hnil, rfl⟩
        obtain rfl := List.map_eq_nil_iff.mp hnil.symm
        rfl
  | cons c text ih =>
      have hnone : ∀ text : List Char, text.foldl addDigit none = none := by
        intro text
        induction text with
        | nil => rfl
        | cons c text ih => exact ih
      rw [List.foldl_cons, addDigit, Option.bind_some]
      constructor
      · intro h
        cases hvalue : digitValue c with
        | none =>
            rw [hvalue, Option.map_none, hnone] at h
            cases h
        | some d =>
            rw [hvalue, Option.map_some] at h
            obtain ⟨digits, hlt, rfl, rfl⟩ := ih.mp h
            obtain ⟨hd, rfl⟩ := digitValue_eq_some_iff.mp hvalue
            exact ⟨d :: digits, List.forall_mem_cons.mpr ⟨hd, hlt⟩, rfl, rfl⟩
      · rintro ⟨digits, hlt, htext, rfl⟩
        obtain ⟨d, digits, rfl, rfl, rfl⟩ := List.map_eq_cons_iff.mp htext.symm
        rw [List.forall_mem_cons] at hlt
        rw [digitValue_digitChar hlt.1, Option.map_some]
        exact ih.mpr ⟨digits, hlt.2, rfl, rfl⟩

theorem parseDigits_eq_some_iff {text : List Char} {n : ℕ} :
    parseDigits text = some n ↔ IsNumeral text n := by
  have hempty : ∀ digits : List ℕ, (digits.map digitChar).isEmpty = digits.isEmpty := fun digits ↦
    List.isEmpty_map
  constructor
  · intro h
    unfold parseDigits at h
    split at h
    case isTrue => cases h
    case isFalse hnonempty =>
      obtain ⟨digits, hlt, rfl, rfl⟩ := foldl_addDigit_eq_some_iff.mp h
      refine ⟨digits, ?_, hlt, rfl, rfl⟩
      rintro rfl
      exact hnonempty rfl
  · rintro ⟨digits, hnonempty, hlt, rfl, rfl⟩
    rw [parseDigits, hempty, if_neg (by simpa using hnonempty)]
    exact foldl_addDigit_eq_some_iff.mpr ⟨digits, hlt, rfl, rfl⟩

theorem IsNumeral.head {c : Char} {rest : List Char} {n : ℕ} (h : IsNumeral (c :: rest) n) :
    48 ≤ c.toNat ∧ c.toNat ≤ 57 := by
  obtain ⟨digits, -, hlt, htext, -⟩ := h
  obtain ⟨d, digits, rfl, rfl, -⟩ := List.map_eq_cons_iff.mp htext.symm
  have hd := hlt d List.mem_cons_self
  rw [toNat_digitChar hd]
  omega

/-- Without a minus sign, a signed number is a numeral behind an optional plus sign. -/
theorem parseSigned_eq_some_iff {bound : ℕ} {text : List Char} (hminus : text.head? ≠ some '-') {n : ℤ} :
    parseSigned bound text = some n ↔ ∃ value : ℕ, (IsNumeral text value ∨
      ∃ rest, text = '+' :: rest ∧ IsNumeral rest value) ∧ value < bound ∧ n = value := by
  have hfilter : ∀ result : Option ℕ, (result.map fun n : ℕ ↦ (n : ℤ)).filter
      (fun n : ℤ ↦ -(bound : ℤ) ≤ n ∧ n < bound) = some n ↔
        ∃ value, result = some value ∧ value < bound ∧ n = value := by
    rintro (_ | value)
    · simp
    · simp only [Option.map_some, Option.filter_some, Option.some.injEq, exists_eq_left']
      split
      case isTrue h =>
        have hbounds := of_decide_eq_true h
        simp only [Option.some.injEq]
        omega
      case isFalse h =>
        have hbounds := mt decide_eq_true h
        simp only [reduceCtorEq, false_iff]
        omega
  by_cases hplus : ∃ rest, text = '+' :: rest
  · obtain ⟨rest, rfl⟩ := hplus
    have hnot : ∀ value, ¬ IsNumeral ('+' :: rest) value := fun value h ↦ absurd h.head (by decide)
    simp only [parseSigned, hfilter, parseDigits_eq_some_iff, hnot, false_or, List.cons.injEq, true_and,
      exists_eq_left']
  · have hrest : ∀ value, ¬ ∃ rest, text = '+' :: rest ∧ IsNumeral rest value :=
      fun value ⟨rest, h, _⟩ ↦ hplus ⟨rest, h⟩
    have hunsigned : parseSigned bound text = ((parseDigits text).map fun n : ℕ ↦ (n : ℤ)).filter
        fun n : ℤ ↦ -(bound : ℤ) ≤ n ∧ n < bound := by
      unfold parseSigned
      split
      · exact absurd rfl hminus
      · exact absurd ⟨_, rfl⟩ hplus
      · rfl
    simp only [hunsigned, hfilter, parseDigits_eq_some_iff, hrest, or_false]

/-- Reading goes on behind a written number as if from its value. -/
theorem foldl_writeDigits {slots n : ℕ} (h : n < 10 ^ slots) (tail : List Char) :
    (writeDigits slots n tail).foldl addDigit (some 0) = tail.foldl addDigit (some n) := by
  induction slots generalizing n tail with
  | zero =>
      have hn : n = 0 := by simpa using h
      rw [writeDigits, hn]
  | succ slots ih =>
      have hdigit : digitValue (digitChar (n % 10)) = some (n % 10) :=
        digitValue_digitChar (Nat.mod_lt n (by decide))
      have hvalue : 10 * (n / 10) + n % 10 = n := Nat.div_add_mod n 10
      rw [writeDigits]
      split
      case isTrue hsmall =>
        rw [hsmall] at hvalue
        rw [List.foldl_cons, addDigit, Option.bind_some, hdigit, Option.map_some, hvalue]
      case isFalse =>
        have hrest : n / 10 < 10 ^ slots := by
          rw [Nat.pow_succ] at h
          omega
        rw [ih hrest, List.foldl_cons, addDigit, Option.bind_some, hdigit, Option.map_some, hvalue]

/-- A written number starts with a digit. -/
theorem exists_writeDigits {slots : ℕ} (hslots : 0 < slots) (n : ℕ) (tail : List Char) :
    ∃ c rest, writeDigits slots n tail = c :: rest ∧ 48 ≤ c.toNat ∧ c.toNat ≤ 57 := by
  induction slots generalizing n tail with
  | zero => exact (Nat.lt_irrefl 0 hslots).elim
  | succ slots ih =>
      have hdigit := toNat_digitChar (Nat.mod_lt n (show 0 < 10 by decide))
      have hlt := Nat.mod_lt n (show 0 < 10 by decide)
      have hhead : 48 ≤ (digitChar (n % 10)).toNat ∧ (digitChar (n % 10)).toNat ≤ 57 := by omega
      rw [writeDigits]
      split
      · exact ⟨_, _, rfl, hhead⟩
      · cases slots with
        | zero => exact ⟨_, _, rfl, hhead⟩
        | succ slots => exact ih (Nat.succ_pos slots) _ _

/-- A written number has digits only. -/
theorem digit_of_mem_writeDigits {slots n : ℕ} {tail : List Char}
    (htail : ∀ c ∈ tail, 48 ≤ c.toNat ∧ c.toNat ≤ 57) {c : Char} (hc : c ∈ writeDigits slots n tail) :
    48 ≤ c.toNat ∧ c.toNat ≤ 57 := by
  induction slots generalizing n tail with
  | zero => exact htail c hc
  | succ slots ih =>
      have hlt := Nat.mod_lt n (show 0 < 10 by decide)
      have hdigit := toNat_digitChar hlt
      have hnext : ∀ c ∈ digitChar (n % 10) :: tail, 48 ≤ c.toNat ∧ c.toNat ≤ 57 :=
        List.forall_mem_cons.mpr ⟨by omega, htail⟩
      unfold writeDigits at hc
      split at hc
      · exact hnext c hc
      · exact ih hnext hc

theorem parseDigits_writeDigits {slots n : ℕ} (hslots : 0 < slots) (h : n < 10 ^ slots) :
    parseDigits (writeDigits slots n []) = some n := by
  obtain ⟨c, rest, heq, -⟩ := exists_writeDigits hslots n []
  have hnonempty : (writeDigits slots n []).isEmpty = false := by simp [heq]
  rw [parseDigits, hnonempty, if_neg Bool.false_ne_true, foldl_writeDigits h, List.foldl_nil]

theorem parseUnsigned_mono {bound limit : ℕ} (hbound : bound ≤ limit) {text : List Char}
    (h : (parseUnsigned bound text).isSome = true) : (parseUnsigned limit text).isSome = true := by
  obtain ⟨n, hn⟩ := Option.isSome_iff_exists.mp h
  obtain ⟨hvalue, hlt⟩ := Option.filter_eq_some_iff.mp hn
  have hlimit : n < limit := (of_decide_eq_true hlt).trans_le hbound
  exact Option.isSome_iff_exists.mpr
    ⟨n, Option.filter_eq_some_iff.mpr ⟨hvalue, decide_eq_true hlimit⟩⟩

theorem parseUnsigned_writeDigits {slots n bound : ℕ} (hslots : 0 < slots) (h : n < 10 ^ slots)
    (hbound : n < bound) : parseUnsigned bound (writeDigits slots n []) = some n := by
  obtain ⟨c, rest, heq, hlow, -⟩ := exists_writeDigits hslots n []
  have hvalue := parseDigits_writeDigits hslots h
  have hplus : c ≠ '+' := by
    rintro rfl
    exact absurd hlow (by decide)
  rw [heq] at hvalue ⊢
  simp [parseUnsigned, hplus, hvalue, hbound]

/-- A number written with its sign is read back. -/
theorem parseSigned_writeDigits (slots bound : ℕ) {n : ℕ} (hslots : 0 < slots) (h : n < 10 ^ slots)
    (hpositive : 0 < bound) (negative : Bool) (hbound : if negative then n ≤ bound else n < bound) :
    parseSigned bound ((if negative then ['-'] else []) ++ writeDigits slots n []) =
      some (if negative then -(n : ℤ) else n) := by
  obtain ⟨c, rest, heq, hlow, -⟩ := exists_writeDigits hslots n []
  have hvalue := parseDigits_writeDigits hslots h
  cases negative with
  | true =>
      have hle : n ≤ bound := hbound
      simp only [if_true, List.cons_append, List.nil_append, parseSigned, hvalue, Option.map_some]
      rw [Option.filter_some, if_pos]
      simp only [decide_eq_true_eq]
      omega
  | false =>
      have hlt : n < bound := by simpa using hbound
      have hplus : c ≠ '+' := by
        rintro rfl
        exact absurd hlow (by decide)
      have hminus : c ≠ '-' := by
        rintro rfl
        exact absurd hlow (by decide)
      have hunsigned : parseSigned bound (c :: rest) =
          ((parseDigits (c :: rest)).map fun n : ℕ ↦ (n : ℤ)).filter
            fun n : ℤ ↦ -(bound : ℤ) ≤ n ∧ n < bound := by
        simp [parseSigned, hplus, hminus]
      rw [heq] at hvalue
      rw [if_neg Bool.false_ne_true, if_neg Bool.false_ne_true, List.nil_append, heq, hunsigned, hvalue,
        Option.map_some, Option.filter_some, if_pos]
      simp only [decide_eq_true_eq]
      omega

end Decimal
