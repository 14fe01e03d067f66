import WinBlaze.Index.CatalogImport

/-!
# Letter case

The ASCII folding of texts, and the lower case of a text over the Unicode case
data. On ASCII texts both are the same; other characters give, of the ASCII
characters, only small letters.
-/

namespace WinBlaze

namespace CatalogText

/-! ## ASCII -/

theorem eqIgnoreAsciiCase_iff {a b : List Char} :
    eqIgnoreAsciiCase a b = true ↔ a.map toAsciiLowercase = b.map toAsciiLowercase :=
  decide_eq_true_iff

theorem isAscii_append {a b : List Char} :
    isAscii (a ++ b) = true ↔ isAscii a = true ∧ isAscii b = true := by
  simp [isAscii]

theorem toNat_toAsciiLowercase (c : Char) :
    (toAsciiLowercase c).toNat = if 65 ≤ c.toNat ∧ c.toNat ≤ 90 then c.toNat + 32 else c.toNat := by
  have hbounds : ('A' ≤ c ∧ c ≤ 'Z') ↔ 65 ≤ c.toNat ∧ c.toNat ≤ 90 := Iff.rfl
  unfold toAsciiLowercase
  by_cases h : 65 ≤ c.toNat ∧ c.toNat ≤ 90
  · have hvalid : (c.toNat + 32).isValidChar := Or.inl (by omega)
    have hvalue : (Char.ofNat (c.toNat + 32)).toNat = c.toNat + 32 := by
      unfold Char.ofNat
      rw [dif_pos hvalid]
      rfl
    rw [if_pos (hbounds.mpr h), if_pos h, hvalue]
  · rw [if_neg fun hc ↦ h (hbounds.mp hc), if_neg h]

theorem toAsciiLowercase_eq_iff {c d : Char} (hd : d.toNat < 65 ∨ 90 < d.toNat ∧ d.toNat < 97) :
    toAsciiLowercase c = d ↔ c = d := by
  constructor
  · intro h
    have hvalue := toNat_toAsciiLowercase c
    rw [h] at hvalue
    apply Char.toNat_inj.mp
    split at hvalue <;> omega
  · rintro rfl
    apply Char.toNat_inj.mp
    rw [toNat_toAsciiLowercase, if_neg (by omega)]

theorem toAsciiLowercase_eq_of_toNat {c : Char} (h : c.toNat < 65 ∨ 90 < c.toNat) :
    toAsciiLowercase c = c := by
  apply Char.toNat_inj.mp
  rw [toNat_toAsciiLowercase, if_neg (by omega)]

theorem toAsciiLowercase_idem (c : Char) :
    toAsciiLowercase (toAsciiLowercase c) = toAsciiLowercase c := by
  apply toAsciiLowercase_eq_of_toNat
  rw [toNat_toAsciiLowercase]
  split <;> omega

theorem toNat_toAsciiLowercase_lt {c : Char} (h : c.toNat < 128) :
    (toAsciiLowercase c).toNat < 128 := by
  rw [toNat_toAsciiLowercase]
  split <;> omega

theorem isAscii_map_toAsciiLowercase {text : List Char} (h : isAscii text = true) :
    isAscii (text.map toAsciiLowercase) = true := by
  simp only [isAscii, List.all_map, List.all_eq_true, Function.comp_apply, decide_eq_true_eq] at *
  exact fun c hc ↦ toNat_toAsciiLowercase_lt (h c hc)

/-! ## Unicode -/

/-- What the Unicode character database says about letter case. -/
structure UnicodeCase where
  /-- `char::to_lowercase`. -/
  lower : Char → List Char
  cased : Char → Bool
  caseIgnorable : Char → Bool
  lower_ascii : ∀ c, c.toNat < 128 → lower c = [toAsciiLowercase c]
  /-- The Kelvin sign and the dotted capital I give small ASCII letters. -/
  lower_other : ∀ c, 128 ≤ c.toNat → ∀ d ∈ lower c, d.toNat < 128 → 97 ≤ d.toNat ∧ d.toNat ≤ 122
  lower_ne_nil : ∀ c, lower c ≠ []

namespace UnicodeCase

variable (unicode : UnicodeCase)

def caseIgnorableThenCased (text : List Char) : Bool :=
  (text.dropWhile unicode.caseIgnorable).head?.any unicode.cased

/-- The capital sigma is a final one at the end of a word. -/
def mapUppercaseSigma (before after : List Char) : Char :=
  if unicode.caseIgnorableThenCased before && !unicode.caseIgnorableThenCased after then 'ς'
  else 'σ'

/-- `before` holds the characters passed, the last one first. -/
def lowerFrom (before : List Char) : List Char → List Char
  | [] => []
  | c :: after =>
      (if c = 'Σ' then [unicode.mapUppercaseSigma before after] else unicode.lower c) ++
        lowerFrom (c :: before) after

/-- `str::to_lowercase`. -/
def toLowercase (text : List Char) : List Char := unicode.lowerFrom [] text

theorem mapUppercaseSigma_toNat (before after : List Char) :
    128 ≤ (unicode.mapUppercaseSigma before after).toNat := by
  unfold mapUppercaseSigma
  split <;> decide

/-- What a character gives is itself in lower case, or no ASCII character but a small letter. -/
theorem lowerFrom_cons (before : List Char) (c : Char) (after : List Char) :
    ∃ first : List Char, first ≠ [] ∧
      unicode.lowerFrom before (c :: after) = first ++ unicode.lowerFrom (c :: before) after ∧
      (c.toNat < 128 → first = [toAsciiLowercase c]) ∧
      (128 ≤ c.toNat → ∀ d ∈ first, 128 ≤ d.toNat ∨ 97 ≤ d.toNat ∧ d.toNat ≤ 122) := by
  by_cases hsigma : c = 'Σ'
  · refine ⟨[unicode.mapUppercaseSigma before after], by simp, by simp [lowerFrom, hsigma], ?_, ?_⟩
    · intro hascii
      rw [hsigma] at hascii
      exact absurd hascii (by decide)
    · intro _ d hd
      rw [List.mem_singleton.mp hd]
      exact Or.inl (unicode.mapUppercaseSigma_toNat before after)
  · refine ⟨unicode.lower c, unicode.lower_ne_nil c, by simp [lowerFrom, hsigma],
      unicode.lower_ascii c, ?_⟩
    intro hother d hd
    rcases Nat.lt_or_ge d.toNat 128 with hascii | hge
    · exact Or.inr (unicode.lower_other c hother d hd hascii)
    · exact Or.inl hge

theorem lowerFrom_ascii {text : List Char} (h : isAscii text = true) (before : List Char) :
    unicode.lowerFrom before text = text.map toAsciiLowercase := by
  induction text generalizing before with
  | nil => rfl
  | cons c after ih =>
      simp only [isAscii, List.all_cons, Bool.and_eq_true, decide_eq_true_eq] at h
      obtain ⟨first, -, hcons, hfirst, -⟩ := unicode.lowerFrom_cons before c after
      rw [hcons, hfirst h.1, ih h.2]
      rfl

theorem toLowercase_ascii {text : List Char} (h : isAscii text = true) :
    unicode.toLowercase text = text.map toAsciiLowercase := unicode.lowerFrom_ascii h []

theorem toAsciiLowercase_of_mem_lowerFrom {before text : List Char} {d : Char}
    (hd : d ∈ unicode.lowerFrom before text) : toAsciiLowercase d = d := by
  induction text generalizing before with
  | nil => simp [lowerFrom] at hd
  | cons c after ih =>
      obtain ⟨first, -, hcons, hfirst, hother⟩ := unicode.lowerFrom_cons before c after
      rw [hcons] at hd
      rcases List.mem_append.mp hd with hd | hd
      · rcases Nat.lt_or_ge c.toNat 128 with hascii | hge
        · rw [hfirst hascii, List.mem_singleton] at hd
          rw [hd]
          exact toAsciiLowercase_idem c
        · apply toAsciiLowercase_eq_of_toNat
          have hvalue := hother hge d hd
          omega
      · exact ih hd

/-- The lower case of a text has no capital ASCII letters. -/
theorem map_toAsciiLowercase_toLowercase (text : List Char) :
    (unicode.toLowercase text).map toAsciiLowercase = unicode.toLowercase text := by
  have hself : ∀ d ∈ unicode.toLowercase text, toAsciiLowercase d = id d :=
    fun d hd ↦ unicode.toAsciiLowercase_of_mem_lowerFrom hd
  rw [List.map_congr_left hself, List.map_id]

/-- No other character becomes an ASCII one that is no letter. -/
theorem lowerFrom_eq_cons {before text rest : List Char} {d : Char}
    (hd : d.toNat < 65 ∨ 90 < d.toNat ∧ d.toNat < 97)
    (h : unicode.lowerFrom before text = d :: rest) :
    ∃ after, text = d :: after ∧ unicode.lowerFrom (d :: before) after = rest := by
  cases text with
  | nil => cases h
  | cons c after =>
      obtain ⟨first, hne, hcons, hfirst, hother⟩ := unicode.lowerFrom_cons before c after
      rw [hcons] at h
      rcases Nat.lt_or_ge c.toNat 128 with hascii | hge
      · rw [hfirst hascii] at h
        obtain ⟨hc, hrest⟩ := List.cons.inj h
        obtain rfl := (toAsciiLowercase_eq_iff hd).mp hc
        exact ⟨after, rfl, hrest⟩
      · obtain ⟨e, tail, rfl⟩ := List.exists_cons_of_ne_nil hne
        obtain ⟨rfl, -⟩ := List.cons.inj h
        have hvalue := hother hge e List.mem_cons_self
        omega

/-- The case data of the ASCII characters, with no other letters. -/
def ascii : UnicodeCase where
  lower c := [toAsciiLowercase c]
  cased c := c.isAlpha
  caseIgnorable _ := false
  lower_ascii _ _ := rfl
  lower_other c hc d hd hlt := by
    rw [List.mem_singleton.mp hd, toAsciiLowercase_eq_of_toNat (by omega)] at hlt
    omega
  lower_ne_nil _ := by simp

end UnicodeCase

end CatalogText

end WinBlaze
