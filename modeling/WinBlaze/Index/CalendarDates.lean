import WinBlaze.Lib.Gregorian
import WinBlaze.Index.ImportSafety

/-!
# Dates in catalogs of other programs

A date is six numerals with separators around them. It is read as its seconds
since 1970, which are ticks that can be exported again.
-/

namespace WinBlaze

namespace CatalogText

open Attempts Gregorian

/-! ## Pieces of a text -/

def isDateSeparator (c : Char) : Bool := c = '-' || c = 'T' || c = ':' || c = 'Z'

/-- What stands between separators. -/
def datePieces (text : List Char) : List (List Char) :=
  (text.splitOnP isDateSeparator).filter (!·.isEmpty)

/-- A number in a date, behind an optional plus sign. -/
def IsDatePart (piece : List Char) (n : ℤ) : Prop :=
  ∃ value : ℕ, (Decimal.IsNumeral piece value ∨ ∃ rest, piece = '+' :: rest ∧ Decimal.IsNumeral rest value) ∧
    n = value

def dateParts (t : DateTime) : List ℤ := [t.year, t.month, t.day, t.hour, t.minute, t.second]

/-- Ticks count from 1601, and years have four digits. -/
structure IsCatalogTime (t : DateTime) : Prop where
  isTime : t.Exists
  fourDigits : 1601 ≤ t.year ∧ t.year ≤ 9999

theorem not_separator_of_mem_splitOnP {p : Char → Bool} {text piece : List Char}
    (h : piece ∈ text.splitOnP p) : ∀ c ∈ piece, p c = false := by
  induction text generalizing piece with
  | nil =>
      rw [List.splitOnP_nil, List.mem_singleton] at h
      simp [h]
  | cons a text ih =>
      rw [List.splitOnP_cons_eq_if_modifyHead] at h
      split at h
      · rcases List.mem_cons.mp h with rfl | h
        · simp
        · exact ih h
      · cases hsplit : text.splitOnP p with
        | nil => exact absurd hsplit (List.splitOnP_ne_nil p text)
        | cons first others =>
            rw [hsplit, List.modifyHead_cons] at h
            rcases List.mem_cons.mp h with rfl | h
            · exact List.forall_mem_cons.mpr ⟨by simpa using ‹¬ p a = true›, ih (by simp [hsplit])⟩
            · exact ih (by simp [hsplit, h])

theorem minus_of_mem_datePieces {text piece : List Char} (h : piece ∈ datePieces text) :
    piece.head? ≠ some '-' := by
  intro hhead
  have hmem := not_separator_of_mem_splitOnP (List.mem_filter.mp h).1 '-' (List.mem_of_head? hhead)
  exact absurd hmem (by decide)

/-- Numbers below `2 ^ 63` are read. -/
theorem parseI64_piece {text piece : List Char} (hpiece : piece ∈ datePieces text) {n : ℤ} :
    (parseI64 piece).map Int64.toInt = some n ↔ IsDatePart piece n ∧ n < 2 ^ 63 := by
  have hroundTrip : (parseI64 piece).map Int64.toInt = Decimal.parseSigned (2 ^ 63) piece := by
    rw [parseI64, Option.map_map]
    cases hread : Decimal.parseSigned (2 ^ 63) piece with
    | none => rfl
    | some n =>
        obtain ⟨value, -, hlt, rfl⟩ :=
          (Decimal.parseSigned_eq_some_iff (minus_of_mem_datePieces hpiece)).mp hread
        exact congrArg some (toInt_ofInt (by omega))
  rw [hroundTrip, Decimal.parseSigned_eq_some_iff (minus_of_mem_datePieces hpiece)]
  constructor
  · rintro ⟨value, hpart, hlt, rfl⟩
    exact ⟨⟨value, hpart, rfl⟩, by omega⟩
  · rintro ⟨⟨value, hpart, rfl⟩, hlt⟩
    exact ⟨value, hpart, by omega, rfl⟩

/-! ## Dates -/

theorem dateFields_eq (text : List Char) :
    (text.splitOnP fun c ↦ c = '-' || c = 'T' || c = ':' || c = 'Z').filter (!·.isEmpty) =
      datePieces text := rfl

theorem seconds_eq {t : DateTime} (hmonth : 1 ≤ t.month ∧ t.month ≤ 12) :
    eraDays t.year t.month t.day * 86400 + t.hour * 3600 + t.minute * 60 + t.second = t.seconds := by
  rw [eraDays_eq t.year hmonth, DateTime.seconds]

theorem lengthOfMonth_eq (year month : ℤ) :
    (if month = 2 then if year % 4 = 0 ∧ (year % 100 ≠ 0 ∨ year % 400 = 0) then 29 else 28
      else if month = 4 ∨ month = 6 ∨ month = 9 ∨ month = 11 then 30 else 31) =
      monthLength year month := by
  simp only [monthLength, isLeap_iff]

/-- With six numbers the rest of the function checks the calendar. -/
theorem utcDate_of_parts {text : List Char} {t : DateTime}
    (hparts : (datePieces text).mapM (fun field ↦
      (orInvalid "Invalid date" (parseI64 field)).map Int64.toInt) = .ok (dateParts t))
    {seconds : ℤ} : utcDate text = .ok seconds ↔
      (byteLength text = 20 ∧ text.getLast? = some 'Z') ∧ IsCatalogTime t ∧ seconds = t.seconds := by
  have hsix : (datePieces text).length = 6 := (forall₂_of_mapM hparts).length_eq
  have hall : (datePieces text).take 6 = datePieces text := List.take_of_length_le (Nat.le_of_eq hsix)
  simp only [utcDate, dateFields_eq, hsix, hall, hparts, bind_eq_ok_iff, ensure_eq_ok_iff,
    orPanic_eq_ok_iff, pure_eq_ok_iff, Except.ok.injEq, dateParts, exists_const, exists_eq_left',
    List.getElem?_cons_zero, List.getElem?_cons_succ, Option.some.injEq, Bool.and_eq_true,
    Bool.or_eq_true, decide_eq_true_eq, or_assoc, le_refl, true_and, and_true]
  rw [lengthOfMonth_eq]
  constructor
  · rintro ⟨htext, hrange, hyear, hseconds⟩
    have hmonth : 1 ≤ t.month ∧ t.month ≤ 12 := hrange.1.1.1.1
    refine ⟨htext, ⟨⟨⟨hmonth, hrange.1.1.1.2.1, hyear.2⟩, ?_, ?_, ?_⟩, hyear.1⟩, ?_⟩
    · exact hrange.1.1.2
    · exact hrange.1.2
    · exact hrange.2
    · exact hseconds.symm.trans (seconds_eq hmonth)
  · rintro ⟨htext, ⟨⟨⟨hmonth, hday⟩, hhour, hminute, hsecond⟩, hyear⟩, rfl⟩
    have hlength := monthLength_le t.year t.month
    have hdays : 1 ≤ t.day ∧ t.day ≤ 31 := ⟨hday.1, hday.2.trans hlength⟩
    exact ⟨htext, ⟨⟨⟨⟨hmonth, hdays⟩, hhour⟩, hminute⟩, hsecond⟩, ⟨hyear, hday.2⟩, seconds_eq hmonth⟩

theorem exists_of_length_six {α : Type} {l : List α} (h : l.length = 6) :
    ∃ a b c d e f, l = [a, b, c, d, e, f] := by
  obtain ⟨a, l, rfl⟩ := List.exists_of_length_succ l h
  obtain ⟨b, l, rfl⟩ := List.exists_of_length_succ l (Nat.succ.inj h)
  obtain ⟨c, l, rfl⟩ := List.exists_of_length_succ l (Nat.succ.inj (Nat.succ.inj h))
  obtain ⟨d, e, f, rfl⟩ := List.length_eq_three.mp (Nat.succ.inj (Nat.succ.inj (Nat.succ.inj h)))
  exact ⟨a, b, c, d, e, f, rfl⟩

theorem IsCatalogTime.lt_of_mem {t : DateTime} (h : IsCatalogTime t) {n : ℤ} (hn : n ∈ dateParts t) :
    n < 2 ^ 63 := by
  obtain ⟨⟨⟨hmonth, hday⟩, hhour, hminute, hsecond⟩, hyear⟩ := h
  have hlength := monthLength_le t.year t.month
  simp only [dateParts, List.mem_cons, List.not_mem_nil, or_false] at hn
  omega

/-- A text is a date when its pieces are the parts of a time. -/
theorem utcDate_eq_ok_iff {text : List Char} {seconds : ℤ} : utcDate text = .ok seconds ↔
    (byteLength text = 20 ∧ text.getLast? = some 'Z') ∧ ∃ t : DateTime, IsCatalogTime t ∧
      List.Forall₂ IsDatePart (datePieces text) (dateParts t) ∧ seconds = t.seconds := by
  have hread : ∀ piece n, (orInvalid "Invalid date" (parseI64 piece)).map Int64.toInt = .ok n ↔
      (parseI64 piece).map Int64.toInt = some n := by
    intro piece n
    cases parseI64 piece <;> simp [orInvalid, Except.map]
  constructor
  · intro h
    obtain ⟨_, _, hnumbers⟩ := bind_eq_ok_iff.mp h
    obtain ⟨numbers, hnumbers, hcheck⟩ := bind_eq_ok_iff.mp hnumbers
    obtain ⟨_, hcheck, _⟩ := bind_eq_ok_iff.mp hcheck
    have hsix : (datePieces text).length = 6 := by
      have htext := ensure_eq_ok_iff.mp hcheck
      rw [Bool.and_eq_true, decide_eq_true_eq] at htext
      exact htext.2
    rw [dateFields_eq, List.take_of_length_le (Nat.le_of_eq hsix)] at hnumbers
    have hall := forall₂_of_mapM hnumbers
    obtain ⟨year, month, day, hour, minute, second, rfl⟩ :=
      exists_of_length_six (hall.length_eq.symm.trans hsix)
    obtain ⟨htext, ht, hseconds⟩ :=
      (utcDate_of_parts (t := ⟨year, month, day, hour, minute, second⟩) hnumbers).mp h
    refine ⟨htext, _, ht, ?_, hseconds⟩
    refine List.forall₂_iff_get.mpr ⟨hall.length_eq, fun i hpiece hpart ↦ ?_⟩
    have hnumber := (hread _ _).mp ((List.forall₂_iff_get.mp hall).2 i hpiece hpart)
    exact ((parseI64_piece (List.get_mem _ _)).mp hnumber).1
  · rintro ⟨htext, t, ht, hparts, rfl⟩
    refine (utcDate_of_parts (mapM_of_forall₂ ?_)).mpr ⟨htext, ht, rfl⟩
    refine List.forall₂_iff_get.mpr ⟨hparts.length_eq, fun i hpiece hpart ↦ ?_⟩
    refine (hread _ _).mpr ((parseI64_piece (List.get_mem _ _)).mpr ⟨?_, ?_⟩)
    · exact (List.forall₂_iff_get.mp hparts).2 i hpiece hpart
    · exact ht.lt_of_mem (List.get_mem _ _)

/-! ## The form of a date -/

/-- This many digits of the number. -/
def IsDigits (width : ℕ) (text : List Char) (n : ℤ) : Prop :=
  text.length = width ∧ ∃ value : ℕ, Decimal.IsNumeral text value ∧ n = value

/-- A text `YYYY-MM-DDThh:mm:ssZ` with the digits of `t`. -/
def IsDateText (text : List Char) (t : DateTime) : Prop :=
  ∃ year month day hour minute second : List Char,
    IsDigits 4 year t.year ∧ IsDigits 2 month t.month ∧ IsDigits 2 day t.day ∧
    IsDigits 2 hour t.hour ∧ IsDigits 2 minute t.minute ∧ IsDigits 2 second t.second ∧
    text = year ++ '-' :: (month ++ '-' :: (day ++ 'T' :: (hour ++ ':' :: (minute ++ ':' ::
      (second ++ ['Z'])))))

theorem IsDigits.isDatePart {width : ℕ} {text : List Char} {n : ℤ} (h : IsDigits width text n) :
    IsDatePart text n := by
  obtain ⟨-, value, hnumeral, rfl⟩ := h
  exact ⟨value, .inl hnumeral, rfl⟩

theorem IsDigits.digits {width : ℕ} {text : List Char} {n : ℤ} (h : IsDigits width text n) :
    text ≠ [] ∧ ∀ c ∈ text, 48 ≤ c.toNat ∧ c.toNat ≤ 57 := by
  obtain ⟨-, value, ⟨digits, hnonempty, hlt, rfl, -⟩, -⟩ := h
  refine ⟨by simpa using hnonempty, List.forall_mem_map.mpr fun d hd ↦ ?_⟩
  have hdigit := hlt d hd
  rw [Decimal.toNat_digitChar hdigit]
  omega

theorem IsDigits.byteLength {width : ℕ} {text : List Char} {n : ℤ} (h : IsDigits width text n) :
    byteLength text = width := by
  have hone : ∀ c ∈ text, c.utf8Size = 1 := by
    intro c hc
    have hdigit := h.digits.2 c hc
    exact Char.utf8Size_eq_one_iff.mpr (UInt32.le_iff_toNat_le.mpr (by change c.toNat ≤ 127; omega))
  rw [CatalogText.byteLength, List.map_congr_left hone, List.map_const', List.sum_replicate, h.1]
  simp

theorem byteLength_append (a b : List Char) : byteLength (a ++ b) = byteLength a + byteLength b := by
  simp only [byteLength, List.map_append, List.sum_append]

theorem datePieces_digits {width : ℕ} {text : List Char} {n : ℤ} (h : IsDigits width text n)
    {separator : Char} (hseparator : isDateSeparator separator = true) (rest : List Char) :
    datePieces (text ++ separator :: rest) = text :: datePieces rest := by
  have hplain : ∀ c ∈ text, isDateSeparator c = false := by
    intro c hc
    have hdigit := h.digits.2 c hc
    rw [Bool.eq_false_iff]
    intro hc
    simp only [isDateSeparator, Bool.or_eq_true, decide_eq_true_eq] at hc
    rcases hc with ((rfl | rfl) | rfl) | rfl <;> exact absurd hdigit (by decide)
  have hnonempty : (!text.isEmpty) = true := by simpa using h.digits.1
  rw [datePieces, List.splitOnP_append_cons _ _ hseparator, List.splitOnP_eq_singleton hplain,
    List.singleton_append]
  exact List.filter_cons_of_pos hnonempty

theorem IsDateText.pieces {text : List Char} {t : DateTime} (h : IsDateText text t) :
    List.Forall₂ IsDatePart (datePieces text) (dateParts t) := by
  obtain ⟨year, month, day, hour, minute, second, hyear, hmonth, hday, hhour, hminute, hsecond, rfl⟩ := h
  rw [datePieces_digits hyear rfl, datePieces_digits hmonth rfl, datePieces_digits hday rfl,
    datePieces_digits hhour rfl, datePieces_digits hminute rfl, datePieces_digits hsecond rfl]
  exact .cons hyear.isDatePart <| .cons hmonth.isDatePart <| .cons hday.isDatePart <|
    .cons hhour.isDatePart <| .cons hminute.isDatePart <| .cons hsecond.isDatePart .nil

theorem byteLength_separator {c : Char} (h : isDateSeparator c = true) (rest : List Char) :
    byteLength (c :: rest) = 1 + byteLength rest := by
  simp only [isDateSeparator, Bool.or_eq_true, decide_eq_true_eq] at h
  rcases h with ((rfl | rfl) | rfl) | rfl <;> rfl

theorem IsDateText.outline {text : List Char} {t : DateTime} (h : IsDateText text t) :
    byteLength text = 20 ∧ text.getLast? = some 'Z' := by
  obtain ⟨year, month, day, hour, minute, second, hyear, hmonth, hday, hhour, hminute, hsecond, rfl⟩ := h
  constructor
  · simp only [byteLength_append, byteLength_separator (rfl : isDateSeparator '-' = true),
      byteLength_separator (rfl : isDateSeparator 'T' = true),
      byteLength_separator (rfl : isDateSeparator ':' = true), hyear.byteLength, hmonth.byteLength,
      hday.byteLength, hhour.byteLength, hminute.byteLength, hsecond.byteLength]
    rfl
  · simp [List.getLast?_append, List.getLast?_cons]

theorem rightUnique_isDatePart : Relator.RightUnique IsDatePart := by
  rintro piece _ _ ⟨m, hm, rfl⟩ ⟨n, hn, rfl⟩
  have hunique : ∀ text : List Char, Decimal.IsNumeral text m → Decimal.IsNumeral text n → m = n := by
    intro text hm hn
    rw [← Decimal.parseDigits_eq_some_iff] at hm hn
    exact Option.some.inj (hm.symm.trans hn)
  have hsign : ∀ rest value, ¬ Decimal.IsNumeral ('+' :: rest) value := fun _ _ h ↦
    absurd h.head (by decide)
  refine congrArg Int.ofNat ?_
  rcases hm with hm | ⟨rest, rfl, hm⟩ <;> rcases hn with hn | ⟨rest', heq, hn⟩
  · exact hunique piece hm hn
  · exact absurd (heq ▸ hm) (hsign rest' m)
  · exact absurd hn (hsign rest n)
  · obtain ⟨-, rfl⟩ := List.cons.inj heq
    exact hunique rest hm hn

theorem dateParts_injective : Function.Injective dateParts := by
  intro s t h
  obtain ⟨year, month, day, hour, minute, second⟩ := s
  simpa [dateParts, DateTime.ext_iff] using h

/-- Such a text is a date when the day and the time exist. -/
theorem IsDateText.utcDate_eq_ok_iff {text : List Char} {t : DateTime} (h : IsDateText text t)
    {seconds : ℤ} : utcDate text = .ok seconds ↔ IsCatalogTime t ∧ seconds = t.seconds := by
  rw [CatalogText.utcDate_eq_ok_iff]
  constructor
  · rintro ⟨-, read, hread, hparts, rfl⟩
    obtain rfl := dateParts_injective (rightUnique_isDatePart.forall₂ hparts h.pieces)
    exact ⟨hread, rfl⟩
  · rintro ⟨ht, rfl⟩
    exact ⟨h.outline, t, ht, h.pieces, rfl⟩

/-! ## Ticks -/

theorem unixToTicks_utcDate {text : List Char} {seconds : ℤ} (h : utcDate text = .ok seconds) :
    unixToTicks (.ofInt seconds) = .ok (.ofInt ((seconds + 11644473600) * 10000000)) ∧
      0 ≤ seconds + 11644473600 ∧ (seconds + 11644473600) * 10000000 < 2 ^ 63 := by
  obtain ⟨-, t, ht, -, rfl⟩ := CatalogText.utcDate_eq_ok_iff.mp h
  have hbounds := ht.isTime.seconds_bounds ht.fourDigits.1 ht.fourDigits.2
  have hfirst : daysBeforeYear 1601 = -134774 := by
    rw [daysBeforeYear_eq]
    rfl
  have hlast : daysBeforeYear (9999 + 1) = 2932897 := by
    rw [daysBeforeYear_eq]
    rfl
  rw [hfirst, hlast] at hbounds
  have hseconds : (Int64.ofInt t.seconds).toInt = t.seconds := toInt_ofInt (by omega)
  have hticks := @unixToTicks_of_bounds (.ofInt t.seconds)
  rw [hseconds] at hticks
  exact ⟨hticks (by omega) (by omega), by omega, by omega⟩

/-- Ticks keep the order of the dates they are of. -/
theorem exists_ticks {text₁ text₂ : List Char} {seconds₁ seconds₂ : ℤ}
    (h₁ : utcDate text₁ = .ok seconds₁) (h₂ : utcDate text₂ = .ok seconds₂) :
    ∃ ticks₁ ticks₂, unixToTicks (.ofInt seconds₁) = .ok ticks₁ ∧
      unixToTicks (.ofInt seconds₂) = .ok ticks₂ ∧ 0 ≤ ticks₁ ∧ 0 ≤ ticks₂ ∧
      (seconds₁ < seconds₂ ↔ ticks₁ < ticks₂) ∧ (seconds₁ = seconds₂ ↔ ticks₁ = ticks₂) := by
  obtain ⟨hticks₁, hlow₁, hhigh₁⟩ := unixToTicks_utcDate h₁
  obtain ⟨hticks₂, hlow₂, hhigh₂⟩ := unixToTicks_utcDate h₂
  have hvalue₁ := toInt_ofInt (n := (seconds₁ + 11644473600) * 10000000) (by omega)
  have hvalue₂ := toInt_ofInt (n := (seconds₂ + 11644473600) * 10000000) (by omega)
  have hzero : (0 : Int64).toInt = 0 := rfl
  refine ⟨_, _, hticks₁, hticks₂, ?_, ?_, ?_, ?_⟩ <;>
    simp only [Int64.le_iff_toInt_le, Int64.lt_iff_toInt_lt, ← Int64.toInt_inj, hvalue₁, hvalue₂,
      hzero] <;>
    omega

/-! ## Dates that are read -/

/-- The separators of a date may stand anywhere, and numbers may have plus signs. -/
theorem utcDate_calendar :
    (∀ text seconds, utcDate text = .ok seconds ↔
      (byteLength text = 20 ∧ text.getLast? = some 'Z') ∧ ∃ t : DateTime, IsCatalogTime t ∧
        List.Forall₂ IsDatePart (datePieces text) (dateParts t) ∧ seconds = t.seconds) ∧
    (∀ text t, IsDateText text t → ∀ seconds,
      utcDate text = .ok seconds ↔ IsCatalogTime t ∧ seconds = t.seconds) ∧
    ∀ text₁ text₂ seconds₁ seconds₂, utcDate text₁ = .ok seconds₁ → utcDate text₂ = .ok seconds₂ →
      ∃ ticks₁ ticks₂, unixToTicks (.ofInt seconds₁) = .ok ticks₁ ∧
        unixToTicks (.ofInt seconds₂) = .ok ticks₂ ∧ 0 ≤ ticks₁ ∧ 0 ≤ ticks₂ ∧
        (seconds₁ < seconds₂ ↔ ticks₁ < ticks₂) ∧ (seconds₁ = seconds₂ ↔ ticks₁ = ticks₂) :=
  ⟨fun _ _ ↦ utcDate_eq_ok_iff, fun _ _ h _ ↦ h.utcDate_eq_ok_iff, fun _ _ _ _ ↦ exists_ticks⟩

theorem utcDate_colons : utcDate "2020:01:01T00:00:00Z".toList = .ok 1577836800 ∧
    ¬ ∃ t, IsDateText "2020:01:01T00:00:00Z".toList t := by
  refine ⟨by decide +kernel, ?_⟩
  rintro ⟨t, year, month, day, hour, minute, second, ⟨hlength, -⟩, -, -, -, -, -, htext⟩
  have hfifth := congrArg (fun text : List Char ↦ text[4]?) htext
  simp [hlength] at hfifth

theorem utcDate_calendar_leapDay :
    utcDate "2024-02-29T12:00:00Z".toList = .ok (DateTime.seconds ⟨2024, 2, 29, 12, 0, 0⟩) := by
  have hdigits : ∀ digits : List ℕ, digits ≠ [] → (∀ d ∈ digits, d < 10) →
      IsDigits digits.length (digits.map Decimal.digitChar)
        (digits.foldl (fun value d ↦ 10 * value + d) 0 : ℕ) :=
    fun digits hnonempty hlt ↦ ⟨List.length_map _, _, ⟨digits, hnonempty, hlt, rfl, rfl⟩, rfl⟩
  have htext : IsDateText "2024-02-29T12:00:00Z".toList ⟨2024, 2, 29, 12, 0, 0⟩ :=
    ⟨_, _, _, _, _, _, hdigits [2, 0, 2, 4] (by decide) (by decide),
      hdigits [0, 2] (by decide) (by decide), hdigits [2, 9] (by decide) (by decide),
      hdigits [1, 2] (by decide) (by decide), hdigits [0, 0] (by decide) (by decide),
      hdigits [0, 0] (by decide) (by decide), rfl⟩
  refine (utcDate_calendar.2.1 _ _ htext _).mpr ⟨⟨⟨⟨?_, ?_⟩, ?_, ?_, ?_⟩, ?_⟩, rfl⟩ <;> decide

end CatalogText

end WinBlaze
