import WinBlaze.Core.Model
import WinBlaze.Lib.Decimal

/-!
# Times in exported catalogs

A time is exported as whole seconds since 1970 and imported as ticks since 1601.
Large numbers are taken for ticks, as earlier exports wrote them.
-/

namespace WinBlaze

namespace CatalogText

/-! ## Writing -/

/-- A row is the text written to it; all of it is ASCII. -/
def csvInteger (row : List Char) (value : UInt64) : List Char :=
  row ++ Decimal.writeDigits 20 value.toNat []

def divEuclid (a b : Int64) : Int64 := .ofInt (a.toInt / b.toInt)

def unsignedAbs (value : Int64) : UInt64 := .ofNat value.toInt.natAbs

def unixSeconds (ticks : Int64) : Int64 := divEuclid ticks 10000000 - 11644473600

def csvTimestamp (row : List Char) (value : Option Int64) : List Char :=
  (match value with
    | some value =>
        let value := unixSeconds value
        csvInteger (if value < 0 then row ++ ['-'] else row) (unsignedAbs value)
    | none => row) ++ ['\r', '\n']

/-! ## Reading -/

/-- `parse::<i64>`. -/
def parseI64 (text : List Char) : Option Int64 :=
  (Decimal.parseSigned (2 ^ 63) text).map Int64.ofInt

/-- The result of a checked operation. -/
def checkedI64 (n : ℤ) : Option Int64 := if -2 ^ 63 ≤ n ∧ n < 2 ^ 63 then some (.ofInt n) else none

def unixToTicks (seconds : Int64) : Except String Int64 :=
  let ticks := ((checkedI64 (seconds.toInt + 11644473600)).bind fun value ↦
    checkedI64 (value.toInt * 10000000)).filter fun value ↦ 0 ≤ value
  match ticks with
  | some value => .ok value
  | none => .error "Timestamp out of Windows date range"

def importTimestamp (text : List Char) (allowLegacyTicks : Bool) : Except String Int64 :=
  match parseI64 text with
  | none => .error "Invalid timestamp"
  | some value =>
      if allowLegacyTicks && (253402300800 ≤ value && value ≤ 2650467743999999999) then .ok value
      else unixToTicks value

/-! ## Round trip -/

theorem toInt_ofInt {n : ℤ} (h : -2 ^ 63 ≤ n ∧ n < 2 ^ 63) : (Int64.ofInt n).toInt = n :=
  Int64.toInt_ofInt_of_le h.1 h.2

theorem toInt_bounds (value : Int64) : -2 ^ 63 ≤ value.toInt ∧ value.toInt < 2 ^ 63 :=
  ⟨value.le_toInt, value.toInt_lt⟩

theorem toInt_unixSeconds (ticks : Int64) :
    (unixSeconds ticks).toInt = ticks.toInt / 10000000 - 11644473600 := by
  have hbounds := toInt_bounds ticks
  have hquotient : (divEuclid ticks 10000000).toInt = ticks.toInt / 10000000 := by
    apply toInt_ofInt
    have hdivisor : (10000000 : Int64).toInt = 10000000 := rfl
    rw [hdivisor]
    omega
  have hepoch : (11644473600 : Int64).toInt = 11644473600 := rfl
  rw [unixSeconds, Int64.toInt_sub, hquotient, hepoch]
  apply Int.bmod_eq_of_le <;> omega

theorem checkedI64_of_bounds {n : ℤ} (h : -2 ^ 63 ≤ n ∧ n < 2 ^ 63) :
    checkedI64 n = some (.ofInt n) := if_pos h

/-- A number is read back from its sign and its digits. -/
theorem parseI64_writeDigits (value : Int64) :
    parseI64 ((if value.toInt < 0 then ['-'] else []) ++ Decimal.writeDigits 20 value.toInt.natAbs []) =
      some value := by
  have hbounds := toInt_bounds value
  have hdigits : value.toInt.natAbs < 10 ^ 20 := by omega
  by_cases hsign : value.toInt < 0
  · have hparse := Decimal.parseSigned_writeDigits 20 (2 ^ 63) (by decide) hdigits (by decide) true
      (show value.toInt.natAbs ≤ 2 ^ 63 by omega)
    have hvalue : -(value.toInt.natAbs : ℤ) = value.toInt := by omega
    rw [if_pos rfl, if_pos rfl, hvalue] at hparse
    rw [if_pos hsign, parseI64, hparse, Option.map_some, Int64.ofInt_toInt]
  · have hparse := Decimal.parseSigned_writeDigits 20 (2 ^ 63) (by decide) hdigits (by decide) false
      (show value.toInt.natAbs < 2 ^ 63 by omega)
    have hvalue : (value.toInt.natAbs : ℤ) = value.toInt := by omega
    rw [if_neg Bool.false_ne_true, if_neg Bool.false_ne_true, hvalue] at hparse
    rw [if_neg hsign, parseI64, hparse, Option.map_some, Int64.ofInt_toInt]

theorem csvTimestamp_some (row : List Char) (ticks : Int64) :
    csvTimestamp row (some ticks) = row ++ ((if (unixSeconds ticks).toInt < 0 then ['-'] else []) ++
      Decimal.writeDigits 20 (unixSeconds ticks).toInt.natAbs []) ++ ['\r', '\n'] := by
  have hbounds := toInt_bounds (unixSeconds ticks)
  have habs : (unsignedAbs (unixSeconds ticks)).toNat = (unixSeconds ticks).toInt.natAbs := by
    rw [unsignedAbs, UInt64.toNat_ofNat']
    omega
  have hnegative : unixSeconds ticks < 0 ↔ (unixSeconds ticks).toInt < 0 := Int64.lt_iff_toInt_lt
  by_cases hsign : (unixSeconds ticks).toInt < 0 <;>
    simp [csvTimestamp, csvInteger, habs, hnegative, hsign]

/-- What is exported for a time is read back as its seconds. -/
theorem exists_csvTimestamp (row : List Char) (ticks : Int64) :
    ∃ text, csvTimestamp row (some ticks) = row ++ text ++ ['\r', '\n'] ∧
      parseI64 text = some (unixSeconds ticks) :=
  ⟨_, csvTimestamp_some row ticks, parseI64_writeDigits (unixSeconds ticks)⟩

theorem importTimestamp_of_parse {text : List Char} {ticks : Int64}
    (h : parseI64 text = some (unixSeconds ticks)) :
    importTimestamp text true =
      if 2650467744000000000 ≤ ticks.toInt then .ok (unixSeconds ticks)
      else unixToTicks (unixSeconds ticks) := by
  have hseconds := toInt_unixSeconds ticks
  have hbounds := toInt_bounds ticks
  have hlow : (253402300800 : Int64).toInt = 253402300800 := rfl
  have hhigh : (2650467743999999999 : Int64).toInt = 2650467743999999999 := rfl
  rw [importTimestamp, h]
  simp only [Bool.true_and, Bool.and_eq_true, decide_eq_true_eq, Int64.le_iff_toInt_le, hlow, hhigh,
    hseconds]
  refine if_congr ?_ rfl rfl
  omega

theorem unixToTicks_of_bounds {seconds : Int64} (hlow : 0 ≤ seconds.toInt + 11644473600)
    (hhigh : (seconds.toInt + 11644473600) * 10000000 < 2 ^ 63) :
    unixToTicks seconds = .ok (.ofInt ((seconds.toInt + 11644473600) * 10000000)) := by
  have hsum : -2 ^ 63 ≤ seconds.toInt + 11644473600 ∧ seconds.toInt + 11644473600 < 2 ^ 63 := by omega
  have hproduct : -2 ^ 63 ≤ (seconds.toInt + 11644473600) * 10000000 ∧
      (seconds.toInt + 11644473600) * 10000000 < 2 ^ 63 := by omega
  have hpositive : (0 : Int64) ≤ .ofInt ((seconds.toInt + 11644473600) * 10000000) := by
    rw [Int64.le_iff_toInt_le, toInt_ofInt hproduct]
    have hzero : (0 : Int64).toInt = 0 := rfl
    omega
  simp only [unixToTicks, checkedI64_of_bounds hsum, Option.bind_some, toInt_ofInt hsum,
    checkedI64_of_bounds hproduct, Option.filter_some, decide_eq_true hpositive, if_true]

theorem unixToTicks_unixSeconds {ticks : Int64} (hlow : 0 ≤ ticks.toInt) :
    unixToTicks (unixSeconds ticks) = .ok (.ofInt (ticks.toInt / 10000000 * 10000000)) := by
  have hbounds := toInt_bounds ticks
  have hsum : (unixSeconds ticks).toInt + 11644473600 = ticks.toInt / 10000000 := by
    rw [toInt_unixSeconds, sub_add_cancel]
  rw [← hsum]
  apply unixToTicks_of_bounds <;> omega

/-- Times before 1601 are not imported at all. -/
theorem unixToTicks_error {ticks : Int64} (hneg : ticks.toInt < 0) :
    unixToTicks (unixSeconds ticks) = .error "Timestamp out of Windows date range" := by
  have hseconds := toInt_unixSeconds ticks
  have hbounds := toInt_bounds ticks
  have hsum : (unixSeconds ticks).toInt + 11644473600 = ticks.toInt / 10000000 := by omega
  have hquotient : -2 ^ 63 ≤ ticks.toInt / 10000000 ∧ ticks.toInt / 10000000 < 2 ^ 63 := by omega
  have hnone : (checkedI64 (ticks.toInt / 10000000 * 10000000)).filter (fun value ↦ 0 ≤ value) =
      none := by
    rw [Option.filter_eq_none_iff]
    intro value hvalue
    unfold checkedI64 at hvalue
    split at hvalue
    case isTrue hproduct =>
      obtain rfl := Option.some.inj hvalue
      have hzero : (0 : Int64).toInt = 0 := rfl
      rw [decide_eq_true_eq, Int64.le_iff_toInt_le, toInt_ofInt hproduct]
      omega
    case isFalse => cases hvalue
  simp only [unixToTicks, hsum, checkedI64_of_bounds hquotient, Option.bind_some, toInt_ofInt hquotient,
    hnone]

/-- An exported time is imported as its whole seconds exactly when it lies in the
years 1601 to 9999. -/
theorem importTimestamp_csvTimestamp_iff (row : List Char) (ticks : Int64) :
    ∃ text, csvTimestamp row (some ticks) = row ++ text ++ ['\r', '\n'] ∧
      ((∃ read, importTimestamp text true = .ok read ∧
          read.toInt = ticks.toInt / 10000000 * 10000000) ↔
        0 ≤ ticks.toInt ∧ ticks.toInt < 2650467744000000000) := by
  obtain ⟨text, hwritten, hparse⟩ := exists_csvTimestamp row ticks
  have hseconds := toInt_unixSeconds ticks
  have hbounds := toInt_bounds ticks
  refine ⟨text, hwritten, ?_⟩
  rw [importTimestamp_of_parse hparse]
  constructor
  · rintro ⟨read, hread, hvalue⟩
    split at hread
    case isTrue hlegacy =>
      obtain rfl := Except.ok.inj hread
      omega
    case isFalse hseconds =>
      refine ⟨?_, by omega⟩
      by_contra hneg
      rw [unixToTicks_error (by omega)] at hread
      cases hread
  · rintro ⟨hlow, hhigh⟩
    rw [if_neg (by omega), unixToTicks_unixSeconds hlow]
    refine ⟨_, rfl, toInt_ofInt ?_⟩
    omega

/-- The first second of the year 10000 comes back as ticks of the year 1601, and
the last tick before 1601 not at all. -/
theorem importTimestamp_csvTimestamp_late_and_early :
    csvTimestamp [] (some 2650467744000000000) = "253402300800\r\n".toList ∧
      importTimestamp "253402300800".toList true = .ok 253402300800 ∧
      csvTimestamp [] (some (-1)) = "-11644473601\r\n".toList ∧
      importTimestamp "-11644473601".toList true = .error "Timestamp out of Windows date range" := by
  decide +kernel

end CatalogText

end WinBlaze
