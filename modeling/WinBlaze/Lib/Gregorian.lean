import Mathlib.Algebra.BigOperators.Intervals
import Mathlib.Algebra.Order.Ring.Int

/-!
# Days of the Gregorian calendar

Years and months have their lengths, and a day has the number of days from the
first day of 1970 to it. In years that begin in March and eras of 400 years that
number has a closed form. A time of a day has a number of seconds.
-/

namespace Gregorian

def isLeap (year : ℤ) : Bool := year % 4 = 0 && (year % 100 ≠ 0 || year % 400 = 0)

def yearLength (year : ℤ) : ℤ := if isLeap year then 366 else 365

def monthLength (year month : ℤ) : ℤ :=
  if month = 2 then if isLeap year then 29 else 28
  else if month = 4 ∨ month = 6 ∨ month = 9 ∨ month = 11 then 30
  else 31

/-- A day of the calendar, which goes back before its introduction. -/
structure IsDay (year month day : ℤ) : Prop where
  monthInYear : 1 ≤ month ∧ month ≤ 12
  dayInMonth : 1 ≤ day ∧ day ≤ monthLength year month

/-- From the first day of 1970 to the first day of the year. -/
def daysBeforeYear (year : ℤ) : ℤ :=
  ∑ n ∈ Finset.range (year - 1970).toNat, yearLength (1970 + n) -
    ∑ n ∈ Finset.range (1970 - year).toNat, yearLength (1969 - n)

def daysBeforeMonth (year month : ℤ) : ℤ :=
  ∑ n ∈ Finset.range (month - 1).toNat, monthLength year (1 + n)

def dayNumber (year month day : ℤ) : ℤ :=
  daysBeforeYear year + daysBeforeMonth year month + (day - 1)

/-- The closed form, in years from March to February. -/
def eraDays (year month day : ℤ) : ℤ :=
  let y := year - if month ≤ 2 then 1 else 0
  let era := y / 400
  let yoe := y - era * 400
  let mp := month + if 2 < month then -3 else 9
  let doy := (153 * mp + 2) / 5 + day - 1
  era * 146097 + yoe * 365 + yoe / 4 - yoe / 100 + doy - 719468

@[ext]
structure DateTime where
  year : ℤ
  month : ℤ
  day : ℤ
  hour : ℤ
  minute : ℤ
  second : ℤ
  deriving DecidableEq

structure DateTime.Exists (t : DateTime) : Prop where
  isDay : IsDay t.year t.month t.day
  hour : 0 ≤ t.hour ∧ t.hour < 24
  minute : 0 ≤ t.minute ∧ t.minute < 60
  second : 0 ≤ t.second ∧ t.second < 60

/-- The seconds since 1970 began, without leap seconds. -/
def DateTime.seconds (t : DateTime) : ℤ :=
  dayNumber t.year t.month t.day * 86400 + t.hour * 3600 + t.minute * 60 + t.second

theorem daysBeforeYear_succ (year : ℤ) :
    daysBeforeYear (year + 1) = daysBeforeYear year + yearLength year := by
  rcases lt_or_ge year 1970 with hlt | hge
  · have hcount : (1970 - year).toNat = (1970 - (year + 1)).toNat + 1 := by omega
    have hyear : 1969 - ((1970 - (year + 1)).toNat : ℤ) = year := by omega
    have hempty : (year - 1970).toNat = 0 ∧ (year + 1 - 1970).toNat = 0 := by omega
    simp only [daysBeforeYear, hcount, hempty, Finset.sum_range_succ, hyear, Finset.sum_range_zero]
    omega
  · have hcount : (year + 1 - 1970).toNat = (year - 1970).toNat + 1 := by omega
    have hyear : 1970 + ((year - 1970).toNat : ℤ) = year := by omega
    have hempty : (1970 - year).toNat = 0 ∧ (1970 - (year + 1)).toNat = 0 := by omega
    simp only [daysBeforeYear, hcount, hempty, Finset.sum_range_succ, hyear, Finset.sum_range_zero]
    omega

theorem isLeap_iff (year : ℤ) :
    isLeap year = true ↔ year % 4 = 0 ∧ (year % 100 ≠ 0 ∨ year % 400 = 0) := by
  simp [isLeap]

theorem eraDays_succ_year (year : ℤ) : eraDays (year + 1) 1 1 = eraDays year 1 1 + yearLength year := by
  simp only [eraDays, yearLength, isLeap_iff]
  split_ifs <;> omega

theorem daysBeforeYear_eq (year : ℤ) : daysBeforeYear year = eraDays year 1 1 := by
  induction year using Int.inductionOn' (b := 1970) with
  | zero => decide
  | succ year _ ih => rw [daysBeforeYear_succ, eraDays_succ_year, ih]
  | pred year _ ih =>
      have hdays := daysBeforeYear_succ (year - 1)
      have hera := eraDays_succ_year (year - 1)
      rw [sub_add_cancel] at hdays hera
      omega

theorem daysBeforeMonth_succ (year : ℤ) {month : ℤ} (h : 1 ≤ month) :
    daysBeforeMonth year (month + 1) = daysBeforeMonth year month + monthLength year month := by
  have hcount : (month + 1 - 1).toNat = (month - 1).toNat + 1 := by omega
  have hmonth : 1 + ((month - 1).toNat : ℤ) = month := by omega
  simp only [daysBeforeMonth, hcount, Finset.sum_range_succ, hmonth]

theorem eraDays_succ_month (year : ℤ) {month : ℤ} (h : 1 ≤ month) (hlast : month < 12) :
    eraDays year (month + 1) 1 = eraDays year month 1 + monthLength year month := by
  obtain rfl | hcases : month = 2 ∨ month = 1 ∨ month = 3 ∨ month = 4 ∨ month = 5 ∨ month = 6 ∨
      month = 7 ∨ month = 8 ∨ month = 9 ∨ month = 10 ∨ month = 11 := by
    omega
  · simp only [eraDays, monthLength, isLeap_iff]
    split_ifs <;> omega
  · rcases hcases with rfl | rfl | rfl | rfl | rfl | rfl | rfl | rfl | rfl | rfl <;>
      simp [eraDays, monthLength] <;> omega

/-- The closed form counts the days. -/
theorem eraDays_eq (year : ℤ) {month : ℤ} (hmonth : 1 ≤ month ∧ month ≤ 12) (day : ℤ) :
    eraDays year month day = dayNumber year month day := by
  have hmonths : ∀ month : ℤ, 1 ≤ month → month ≤ 12 →
      eraDays year month 1 = daysBeforeYear year + daysBeforeMonth year month := by
    intro month h
    induction month, h using Int.leInduction with
    | base =>
        intro _
        rw [daysBeforeYear_eq]
        exact (add_zero _).symm
    | succ month hge ih =>
        intro hle
        rw [eraDays_succ_month year hge (by omega), daysBeforeMonth_succ year hge, ih (by omega)]
        omega
  have hday : eraDays year month day = eraDays year month 1 + (day - 1) := by
    simp only [eraDays]
    omega
  rw [hday, hmonths month hmonth.1 hmonth.2]
  rfl

theorem monthLength_le (year month : ℤ) : monthLength year month ≤ 31 := by
  unfold monthLength
  split_ifs <;> omega

theorem DateTime.Exists.seconds_bounds {t : DateTime} (h : t.Exists) {first last : ℤ}
    (hfirst : first ≤ t.year) (hlast : t.year ≤ last) :
    daysBeforeYear first * 86400 ≤ t.seconds ∧ t.seconds < daysBeforeYear (last + 1) * 86400 := by
  have hdays := eraDays_eq t.year h.isDay.monthInYear t.day
  have hlength := monthLength_le t.year t.month
  obtain ⟨⟨hmonth, hday⟩, hhour, hminute, hsecond⟩ := h
  have hlow : daysBeforeYear first ≤ dayNumber t.year t.month t.day := by
    rw [← hdays, daysBeforeYear_eq]
    simp only [eraDays]
    split_ifs <;> omega
  have hhigh : dayNumber t.year t.month t.day < daysBeforeYear (last + 1) := by
    rw [← hdays, daysBeforeYear_eq]
    simp only [eraDays]
    split_ifs <;> omega
  rw [DateTime.seconds]
  omega

end Gregorian
