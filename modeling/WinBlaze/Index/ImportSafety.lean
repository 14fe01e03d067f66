import WinBlaze.Index.CatalogImport
import WinBlaze.Index.TreeTotals
import WinBlaze.Lib.Attempts

/-!
# Imports end without a panic

Every text is read, or refused with a message: no access is out of range, no
value is missing where one is taken for granted, and every loop ends.
-/

namespace WinBlaze

namespace CatalogText

open Attempts

def Failure.IsInvalid : Failure → Prop
  | .invalid _ => True
  | .panic => False
  | .unfinished => False

/-- Nothing but an error with a message keeps it from a result. -/
abbrev Safe {α : Type} (x : Import α) : Prop := FailsOnly Failure.IsInvalid x

section Steps

variable {α β : Type}

theorem safe_invalid (message : String) : Safe (.error (.invalid message) : Import α) :=
  failsOnly_error trivial

theorem safe_ensure (condition : Bool) (message : String) : Safe (ensure condition message) := by
  unfold ensure
  split
  · exact failsOnly_ok ()
  · exact safe_invalid message

theorem safe_orInvalid (message : String) (value : Option α) : Safe (orInvalid message value) := by
  cases value with
  | none => exact safe_invalid message
  | some a => exact failsOnly_ok a

theorem orInvalid_eq_ok_iff {message : String} {value : Option α} {a : α} :
    orInvalid message value = .ok a ↔ value = some a := by
  cases value <;> simp [orInvalid]

theorem orPanic_eq_ok_iff {value : Option α} {a : α} : orPanic value = .ok a ↔ value = some a := by
  cases value <;> simp [orPanic]

theorem safe_orPanic {value : Option α} (h : value.isSome) : Safe (orPanic value) := by
  obtain ⟨a, rfl⟩ := Option.isSome_iff_exists.mp h
  exact failsOnly_ok a

theorem ensure_eq_ok_iff {condition : Bool} {message : String} {done : Unit} :
    ensure condition message = .ok done ↔ condition = true := by
  cases condition <;> simp [ensure]

theorem column_eq_ok_iff {row : Row} {index : ℕ} {value : List Char} :
    column row index = .ok value ↔ row[index]? = some value := orPanic_eq_ok_iff

theorem safe_column {row : Row} {index : ℕ} (h : index < row.length) : Safe (column row index) :=
  safe_orPanic (List.getElem?_eq_getElem h ▸ rfl)

theorem safe_ite {condition : Prop} [Decidable condition] {x y : Import α} (hx : condition → Safe x)
    (hy : ¬ condition → Safe y) : Safe (if condition then x else y) := by
  split
  case isTrue h => exact hx h
  case isFalse h => exact hy h

theorem safe_mapError {x : Except String α} : Safe (x.mapError Failure.invalid) := by
  cases x with
  | error message => exact safe_invalid message
  | ok a => exact failsOnly_ok a

/-- A checked condition holds in what follows. -/
theorem safe_ensure_bind {condition : Bool} {message : String} {f : Unit → Import β}
    (h : condition = true → Safe (f ())) : Safe (ensure condition message >>= f) :=
  (safe_ensure condition message).bind fun _ hok ↦ h (ensure_eq_ok_iff.mp hok)

theorem safe_orInvalid_bind {message : String} {value : Option α} {f : α → Import β}
    (h : ∀ a, value = some a → Safe (f a)) : Safe (orInvalid message value >>= f) :=
  (safe_orInvalid message value).bind fun a hok ↦ h a (orInvalid_eq_ok_iff.mp hok)

theorem safe_column_bind {row : Row} {index : ℕ} (hindex : index < row.length)
    {f : List Char → Import β} (h : ∀ value, row[index]? = some value → Safe (f value)) :
    Safe (column row index >>= f) :=
  (safe_column hindex).bind fun value hok ↦ h value (column_eq_ok_iff.mp hok)

end Steps

/-! ## Rows and formats -/

theorem RowReader.safe_read (delimiter : Char) (reader : RowReader) (input : List Char) :
    Safe (RowReader.read delimiter reader input) := by
  fun_induction RowReader.read delimiter reader input <;>
    first
    | exact failsOnly_ok _
    | exact safe_invalid _
    | assumption

theorem safe_rows (input : List Char) (delimiter : Char) : Safe (rows input delimiter) :=
  (RowReader.safe_read delimiter {} input).bind fun _ _ ↦ safe_ensure_bind fun _ ↦ failsOnly_pure _

theorem safe_utcDate (text : List Char) : Safe (utcDate text) := by
  refine safe_ensure_bind fun hfields ↦ ?_
  refine (FailsOnly.mapM fun field _ ↦ (safe_orInvalid _ _).map _).bind fun numbers hnumbers ↦ ?_
  have hlength : numbers.length = 6 := by
    have hsix := (forall₂_of_mapM hnumbers).length_eq
    rw [List.length_take, Nat.min_eq_left (of_decide_eq_true hfields)] at hsix
    exact hsix.symm
  have hnumber : ∀ i < 6, Safe (orPanic numbers[i]?) := fun i hi ↦
    safe_orPanic (List.getElem?_eq_getElem (hlength.symm ▸ hi) ▸ rfl)
  refine safe_ensure_bind fun _ ↦ ?_
  refine (hnumber 0 (by decide)).bind fun year _ ↦ ?_
  refine (hnumber 1 (by decide)).bind fun month _ ↦ ?_
  refine (hnumber 2 (by decide)).bind fun day _ ↦ ?_
  refine (hnumber 3 (by decide)).bind fun hour _ ↦ ?_
  refine (hnumber 4 (by decide)).bind fun minute _ ↦ ?_
  refine (hnumber 5 (by decide)).bind fun second _ ↦ ?_
  exact safe_ensure_bind fun _ ↦ safe_ensure_bind fun _ ↦ failsOnly_pure _

theorem safe_optionalTime (text : List Char) : Safe (optionalTime text) :=
  safe_ite (fun _ ↦ failsOnly_pure _) fun _ ↦ safe_orInvalid_bind fun _ _ ↦ safe_mapError.map _

theorem safe_optionalNumber (text : List Char) : Safe (optionalNumber text) :=
  safe_ite (fun _ ↦ failsOnly_pure _) fun _ ↦ safe_orInvalid_bind fun _ _ ↦ failsOnly_pure _

theorem safe_optionalCount (text : List Char) : Safe (optionalCount text) :=
  safe_ite (fun _ ↦ failsOnly_pure _) fun _ ↦ (safe_orInvalid _ _).map _

theorem safe_detailsOf {row : Row} (h : row.length = 14) : Safe (detailsOf row) := by
  refine safe_column_bind (by omega) fun volume _ ↦ (safe_optionalNumber _).bind fun _ _ ↦ ?_
  refine safe_ensure_bind fun _ ↦ safe_column_bind (by omega) fun attributes _ ↦ ?_
  refine safe_orInvalid_bind fun _ _ ↦ safe_column_bind (by omega) fun created _ ↦ ?_
  refine (safe_optionalTime _).bind fun _ _ ↦ safe_column_bind (by omega) fun accessed _ ↦ ?_
  refine (safe_optionalTime _).bind fun _ _ ↦ safe_column_bind (by omega) fun owner _ ↦ ?_
  refine safe_column_bind (by omega) fun identity _ ↦ (safe_optionalNumber _).bind fun _ _ ↦ ?_
  exact safe_column_bind (by omega) fun _ _ ↦ (safe_optionalCount _).bind fun _ _ ↦ failsOnly_pure _

theorem safe_detailedRow (metadata : Metadata) (row : Row) : Safe (detailedRow metadata row) := by
  refine safe_ensure_bind fun hlength ↦ ?_
  have hcolumns : row.length = 14 := of_decide_eq_true hlength
  refine safe_column_bind (by omega) fun kind _ ↦ safe_ite (fun _ ↦ ?_) fun _ ↦ failsOnly_pure _
  exact safe_column_bind (by omega) fun path _ ↦ (safe_detailsOf hcolumns).bind fun _ _ ↦
    failsOnly_pure _

theorem safe_readDetails (rows : List Row) : Safe (readDetails rows) :=
  safe_ite (fun _ ↦ (FailsOnly.foldlM fun metadata row _ ↦ safe_detailedRow metadata row).bind
    fun _ _ ↦ failsOnly_pure _) fun _ ↦ failsOnly_pure _

theorem safe_takeColumns {indices : List ℕ} {row : Row} (h : ∀ index ∈ indices, index < row.length) :
    Safe (takeColumns indices row) := by
  induction indices generalizing row with
  | nil => exact failsOnly_pure _
  | cons index rest ih =>
      obtain ⟨hfirst, hrest⟩ := List.forall_mem_cons.mp h
      refine safe_column_bind hfirst fun value _ ↦ (ih ?_).bind fun _ _ ↦ failsOnly_pure _
      simpa only [List.length_set] using hrest

theorem lt_of_mem_captioned {header : Row} {caption : List Char} {index : ℕ}
    (h : index ∈ captioned header caption) : index < header.length := by
  obtain ⟨⟨value, place⟩, hentry, rfl⟩ := List.mem_map.mp h
  have hget := List.mk_mem_zipIdx_iff_getElem?.mp (List.mem_of_mem_filter hentry)
  exact (List.getElem?_eq_some_iff.mp hget).1

theorem safe_reorderColumns (rows : List Row) : Safe (reorderColumns rows) := by
  refine safe_orInvalid_bind fun header _ ↦ safe_ite (fun _ ↦ ?_) fun _ ↦ failsOnly_pure _
  refine FailsOnly.bind (FailsOnly.mapM fun caption _ ↦ safe_ensure_bind fun hone ↦ safe_orPanic ?_)
    fun mapping hmapping ↦ FailsOnly.mapM fun row _ ↦ safe_ensure_bind fun hwidth ↦
      safe_takeColumns fun index hindex ↦ ?_
  · rw [List.isSome_head?, ← List.length_pos_iff, of_decide_eq_true hone]
    exact Nat.one_pos
  · rw [of_decide_eq_true hwidth]
    rcases List.mem_append.mp hindex with hmapped | howner
    · obtain ⟨caption, -, hcaption⟩ := exists_of_mem_mapM hmapping hmapped
      obtain ⟨-, -, hhead⟩ := bind_eq_ok_iff.mp hcaption
      exact lt_of_mem_captioned (List.mem_of_mem_head? (orPanic_eq_ok_iff.mp hhead))
    · exact lt_of_mem_captioned (List.mem_of_mem_head? (Option.mem_toList.mp howner))

theorem safe_windirstatTime (date : List Char) : Safe (windirstatTime date) :=
  safe_ite (fun _ ↦ failsOnly_pure _) fun _ ↦ (safe_utcDate _).map _

theorem safe_windirstatRow (width : ℕ) (row : Row) : Safe (windirstatRow width row) := by
  refine safe_ensure_bind fun hlength ↦ ?_
  have hcolumns : 9 ≤ row.length := by
    rw [of_decide_eq_true hlength]
    split <;> decide
  refine safe_column_bind (by omega) fun _ _ ↦ safe_orInvalid_bind fun _ _ ↦ ?_
  refine safe_column_bind (by omega) fun date _ ↦ (safe_windirstatTime _).bind fun _ _ ↦ ?_
  exact safe_column_bind (by omega) fun _ _ ↦ safe_column_bind (by omega) fun _ _ ↦
    safe_column_bind (by omega) fun _ _ ↦ safe_column_bind (by omega) fun _ _ ↦
      safe_column_bind (by omega) fun _ _ ↦ failsOnly_pure _

theorem safe_windirstat {rows : List Row} (h : rows ≠ []) : Safe (windirstat rows) := by
  refine FailsOnly.bind (safe_orPanic ?_) fun first _ ↦
    (FailsOnly.mapM fun row _ ↦ safe_windirstatRow _ row).bind fun _ _ ↦ failsOnly_pure _
  rw [List.getElem?_eq_getElem (List.length_pos_iff.mpr h), Option.isSome_some]

theorem safe_wiztreeTime {localToUtc : ℤ → Import ℤ} (hlocal : ∀ seconds, Safe (localToUtc seconds))
    (timezone : CsvTimeZone) (date : List Char) : Safe (wiztreeTime localToUtc timezone date) := by
  refine safe_ite (fun _ ↦ failsOnly_pure _) fun _ ↦ (safe_utcDate _).bind fun seconds _ ↦
    FailsOnly.map ?_ _
  cases timezone with
  | «local» => exact hlocal seconds
  | utc => exact failsOnly_pure seconds

theorem safe_wiztreeRow {localToUtc : ℤ → Import ℤ} (hlocal : ∀ seconds, Safe (localToUtc seconds))
    (timezone : CsvTimeZone) (row : Row) : Safe (wiztreeRow localToUtc timezone row) := by
  refine safe_ensure_bind fun hlength ↦ ?_
  have hcolumns : 7 ≤ row.length := of_decide_eq_true hlength
  refine safe_column_bind (by omega) fun _ _ ↦ safe_orInvalid_bind fun _ _ ↦ ?_
  refine safe_column_bind (by omega) fun name _ ↦ ?_
  refine safe_column_bind (by omega) fun date _ ↦ (safe_wiztreeTime hlocal timezone _).bind
    fun _ _ ↦ ?_
  exact safe_column_bind (by omega) fun _ _ ↦ safe_column_bind (by omega) fun _ _ ↦
    safe_column_bind (by omega) fun _ _ ↦ safe_column_bind (by omega) fun _ _ ↦ failsOnly_pure _

theorem safe_convertRows {localToUtc : ℤ → Import ℤ} (hlocal : ∀ seconds, Safe (localToUtc seconds))
    (timezone : CsvTimeZone) (foreign : Bool) {rows : List Row} (h : rows ≠ []) :
    Safe (convertRows localToUtc timezone foreign rows) := by
  refine safe_ite (fun _ ↦ safe_windirstat h) fun _ ↦ safe_ite (fun _ ↦ ?_) fun _ ↦ failsOnly_pure _
  exact (FailsOnly.mapM fun row _ ↦ safe_wiztreeRow hlocal timezone row).bind fun _ _ ↦
    failsOnly_pure _

theorem safe_readTable {localToUtc : ℤ → Import ℤ} (hlocal : ∀ seconds, Safe (localToUtc seconds))
    (timezone : CsvTimeZone) (delimiter : Char) (text : List Char) :
    Safe (readTable localToUtc timezone delimiter text) := by
  refine (safe_rows _ _).bind fun rows _ ↦ (safe_readDetails _).bind fun details _ ↦ ?_
  refine (safe_reorderColumns _).bind fun rows _ ↦ safe_orInvalid_bind fun header hheader ↦ ?_
  refine safe_ensure_bind fun _ ↦ safe_ensure_bind fun _ ↦
    (safe_convertRows hlocal timezone _ ?_).bind fun _ _ ↦ failsOnly_pure _
  exact fun hnil ↦ by simp [hnil] at hheader

end CatalogText

end WinBlaze
