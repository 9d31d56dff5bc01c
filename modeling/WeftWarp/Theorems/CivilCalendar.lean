import WeftWarp.Civil
import WeftWarp.Lib.Gregorian
import WeftWarp.Theorems.DurationExact

/-! # The calendar of the civil reader

`date.h` counts the days of the Gregorian calendar. -/

namespace WeftWarp
open Gregorian

namespace YearMonthDay

/-- A `year_month_day` that stands for a date. -/
structure Is (ymd : YearMonthDay) (d : Date) : Prop where
  year : ymd.year.toInt = d.year
  month : ymd.month = d.month
  day : ymd.day = d.day

variable {ymd other : YearMonthDay} {d e : Date}

theorem Is.unique (first : ymd.Is d) (second : ymd.Is e) : d = e :=
  Date.ext (first.year.symm.trans second.year) (first.month.symm.trans second.month)
    (first.day.symm.trans second.day)

theorem tmod_eq_zero (a b : Int) : a.tmod b = 0 ↔ a % b = 0 := by
  rw [← Int.dvd_iff_tmod_eq_zero, Int.dvd_iff_emod_eq_zero]

theorem isLeap_iff (year : Int16) : isLeap year = true ↔ IsLeap year.toInt := by
  unfold isLeap IsLeap
  simp only [Bool.and_eq_true, Bool.or_eq_true, beq_iff_eq, bne_iff_ne, ne_eq, tmod_eq_zero]

theorem lastDay_eq (year : Int16) {month : Nat} (positive : 1 ≤ month) (within : month ≤ 12) :
    lastDay year month = Gregorian.lastDay year.toInt month := by
  have leap := isLeap_iff year
  unfold lastDay Gregorian.lastDay
  by_cases isLeap : IsLeap year.toInt
  · interval_cases month <;> simp [leap.mpr isLeap, isLeap]
  · have notLeap : YearMonthDay.isLeap year = false := Bool.eq_false_iff.mpr fun found => isLeap (leap.mp found)
    interval_cases month <;> simp [notLeap, isLeap]

theorem ok_iff : ymd.ok = true ↔ ymd.year ≠ Int16.minValue ∧ ∃ d, ymd.Is d := by
  unfold ok
  constructor
  · intro valid
    split at valid
    · cases valid
    · rename_i fields
      obtain ⟨year, months⟩ := not_or.mp fields
      obtain ⟨positive, within⟩ := Decidable.not_not.mp months
      obtain ⟨first, last⟩ : 1 ≤ ymd.day ∧ ymd.day ≤ lastDay ymd.year ymd.month := by simpa using valid
      rw [lastDay_eq ymd.year positive within] at last
      exact ⟨year, ⟨ymd.year.toInt, ymd.month, ymd.day, positive, within, first, last⟩, rfl, rfl, rfl⟩
  · rintro ⟨year, d, is⟩
    have positive : 1 ≤ ymd.month := is.month ▸ d.month_pos
    have within : ymd.month ≤ 12 := is.month ▸ d.month_le
    have first : 1 ≤ ymd.day := is.day ▸ d.day_pos
    have last : ymd.day ≤ lastDay ymd.year ymd.month := by
      rw [lastDay_eq ymd.year positive within, is.year, is.month, is.day]
      exact d.day_le
    rw [if_neg (not_or.mpr ⟨year, not_not.mpr ⟨positive, within⟩⟩)]
    simp [first, last]

theorem tdiv_era (y : Int) : (if 0 ≤ y then y else y - 399).tdiv 400 = y / 400 := by
  split
  · rename_i nonneg
    exact Int.tdiv_eq_ediv_of_nonneg nonneg
  · rename_i negative
    rw [show y - 399 = -(399 - y) by omega, Int.neg_tdiv, Int.tdiv_eq_ediv_of_nonneg (by omega)]
    omega

/-- `to_days` numbers the dates of the calendar. -/
theorem toDays_eq (is : ymd.Is d) : ymd.toDays = d.number - 719469 := by
  have month := is.month
  have positive := d.month_pos
  have within := d.month_le
  have day := is.day
  have first := d.day_pos
  unfold toDays Date.number monthStart
  dsimp only
  rw [tdiv_era, is.year, month, day]
  by_cases early : d.month ≤ 2
  · have notLate : ¬2 < d.month := Nat.not_lt.mpr early
    simp only [early, notLate, if_true, if_false]
    omega
  · have late : 2 < d.month := Nat.lt_of_not_le early
    simp only [early, late, if_true, if_false]
    omega

/-! ### Years and months -/

theorem plusYears_toInt (year : Int16) (n : Nat) :
    (plusYears year (Int64.ofNat n).toInt32).toInt = (year.toInt + n).bmod (2 ^ 16) := by
  have narrow : (2 ^ 16 : Nat) ∣ 2 ^ 32 := by decide
  have wide : (2 ^ 32 : Nat) ∣ Int64.size := by decide
  unfold plusYears
  rw [Int32.toInt_toInt16, Int32.toInt_add, Int16.toInt_toInt32, Int64.toInt_toInt32, Int64.toInt_ofNat',
    Int.bmod_bmod_of_dvd wide, Int.add_bmod_bmod, Int.bmod_bmod_of_dvd narrow]

theorem tdiv_year (mu : Int) : (if 0 ≤ mu then mu else mu - 11).tdiv 12 = mu / 12 := by
  split
  · rename_i nonneg
    exact Int.tdiv_eq_ediv_of_nonneg nonneg
  · rename_i negative
    rw [show mu - 11 = -(11 - mu) by omega, Int.neg_tdiv, Int.tdiv_eq_ediv_of_nonneg (by omega)]
    omega

theorem plusMonths_eq (month : Nat) (n : Int32) : plusMonths month n = ((month + n.toInt - 1) % 12).toNat + 1 := by
  unfold plusMonths
  dsimp only
  rw [tdiv_year]
  omega

theorem plusMonths_bounds (month : Nat) (n : Int32) : 1 ≤ plusMonths month n ∧ plusMonths month n ≤ 12 := by
  rw [plusMonths_eq]
  omega

theorem clamp_year (moved : YearMonthDay) : moved.clamp.year = moved.year := by
  unfold clamp
  split <;> rfl

theorem clamp_month (moved : YearMonthDay) : moved.clamp.month = moved.month := by
  unfold clamp
  split <;> rfl

theorem clamp_of_ok (valid : ymd.ok = true) : ymd.clamp = ymd := if_pos valid

/-- What is clamped stands for a date, on the same day as far as the month has it. -/
theorem exists_clamp {moved : YearMonthDay} (positive : 1 ≤ moved.month) (within : moved.month ≤ 12)
    (first : 1 ≤ moved.day) : ∃ e : Date, moved.clamp.Is e ∧
      (moved.year ≠ Int16.minValue → e.day = min moved.day (Gregorian.lastDay moved.year.toInt moved.month)) := by
  have last := lastDay_eq moved.year positive within
  by_cases valid : moved.ok = true
  · obtain ⟨-, e, is⟩ := ok_iff.mp valid
    rw [clamp_of_ok valid]
    refine ⟨e, is, fun _ => ?_⟩
    rw [is.year, is.month, is.day]
    exact (Nat.min_eq_left e.day_le).symm
  · have clamped : moved.clamp = { moved with day := lastDay moved.year moved.month } := if_neg valid
    rw [clamped, last]
    refine ⟨⟨moved.year.toInt, moved.month, _, positive, within, lastDay_pos _ _, Nat.le_refl _⟩, ⟨rfl, rfl, rfl⟩,
      fun year => ?_⟩
    refine (Nat.min_eq_right ?_).symm
    by_contra fits
    have fits := Nat.le_of_not_le fits
    exact valid (ok_iff.mpr
      ⟨year, ⟨moved.year.toInt, moved.month, moved.day, positive, within, first, fits⟩, rfl, rfl, rfl⟩)

open TwDuration

theorem moveCursor_years (is : ymd.Is d) (n : Nat) :
    ∃ e : Date, (moveCursor ymd 'Y' (Int64.ofNat n)).Is e ∧ e.year = (d.year + n).bmod (2 ^ 16) ∧
      e.month = d.month ∧ (e.year ≠ -2 ^ 15 → e.day = min d.day (Gregorian.lastDay e.year e.month)) := by
  let moved : YearMonthDay := { ymd with year := plusYears ymd.year (Int64.ofNat n).toInt32 }
  have year : moved.year.toInt = (d.year + n).bmod (2 ^ 16) := by rw [← is.year, ← plusYears_toInt]
  have month : moved.month = d.month := is.month
  obtain ⟨e, isE, day⟩ := @exists_clamp moved (month ▸ d.month_pos) (month ▸ d.month_le)
    (show 1 ≤ ymd.day from is.day ▸ d.day_pos)
  have eYear : e.year = moved.year.toInt := by rw [← isE.year, clamp_year]
  have eMonth : e.month = moved.month := by rw [← isE.month, clamp_month]
  refine ⟨e, isE, eYear.trans year, eMonth.trans month, fun notMin => ?_⟩
  rw [day fun isMin => notMin (by rw [eYear, isMin, Int16.toInt_minValue]), eYear, eMonth]
  exact congrArg (min · _) is.day

theorem moveCursor_months (is : ymd.Is d) (year : ymd.year ≠ Int16.minValue) (n : Nat) :
    ∃ e : Date, (moveCursor ymd 'M' (Int64.ofNat n)).Is e ∧ e.year = d.year ∧
      e.month = plusMonths d.month (Int64.ofNat n).toInt32 ∧ e.day = min d.day (Gregorian.lastDay e.year e.month) := by
  let moved : YearMonthDay := { ymd with month := plusMonths ymd.month (Int64.ofNat n).toInt32 }
  have bounds : 1 ≤ moved.month ∧ moved.month ≤ 12 := plusMonths_bounds _ _
  obtain ⟨e, isE, day⟩ := @exists_clamp moved bounds.1 bounds.2
    (show 1 ≤ ymd.day from is.day ▸ d.day_pos)
  have eYear : e.year = moved.year.toInt := by rw [← isE.year, clamp_year]
  have eMonth : e.month = moved.month := by rw [← isE.month, clamp_month]
  refine ⟨e, isE, eYear.trans is.year, ?_, ?_⟩
  · rw [eMonth, ← is.month]
  · rw [day year, eYear, eMonth]
    exact congrArg (min · _) is.day

end YearMonthDay

/-! ## Parts of a duration -/

namespace Iso8601Duration
open TwDuration

/-- A part that is counted in the calendar, from a cursor that is a date. -/
def Part.IsCalendar (cursor : YearMonthDay) (p : Part) : Prop := (p.unit = .y ∨ p.unit = .mo) ∧ cursor.ok = true

instance (cursor : YearMonthDay) (p : Part) : Decidable (p.IsCalendar cursor) := inferInstanceAs (Decidable (_ ∧ _))

/-- The cursor after a part. -/
def Part.moved (cursor : YearMonthDay) (p : Part) : YearMonthDay :=
  if p.IsCalendar cursor then moveCursor cursor p.unit.letter (Int64.ofNat (digitsValue p.number.whole)) else cursor

/-- The milliseconds of a part, counted from the cursor. -/
def Part.civilMs (cursor : YearMonthDay) (p : Part) : Int :=
  if p.IsCalendar cursor then 86400000 * ((p.moved cursor).toDays - cursor.toDays) + p.fracMs else p.milliseconds

theorem isCalendar_iff (cursor : YearMonthDay) (p : Part) :
    isCalendar cursor p.reading = true ↔ p.IsCalendar cursor := by
  unfold isCalendar Part.IsCalendar Part.reading
  cases p.unit <;> simp [DurationUnit.isTime, DurationUnit.letter]

theorem unitMs_div (u : DurationUnit) :
    Int64.ofNat (unitMilliseconds u) / 1000 = Int64.ofNat (unitMilliseconds u / 1000) := by
  cases u <;> decide

theorem ofInt_days (days : Int) : Int64.ofInt days * 86400 * 1000 = Int64.ofInt (86400000 * days) := by
  rw [Int64.mul_assoc, Int.mul_comm, Int64.ofInt_mul]
  rfl

theorem ofNat_wholeMs (p : Part) : readDigits p.reading.whole * p.reading.unitMs = Int64.ofNat p.wholeMs := by
  rw [readDigits_eq, Part.wholeMs, Int64.ofNat_mul]
  rfl

theorem ofNat_fracMs (p : Part) : fracMilli p.number.frac * (p.reading.unitMs / 1000) = Int64.ofNat p.fracMs := by
  have unit : p.reading.unitMs / 1000 = Int64.ofNat (unitMilliseconds p.unit / 1000) := unitMs_div p.unit
  rw [fracMilli_eq, unit, Part.fracMs, Int64.ofNat_mul]

/-- What the number before the point makes of the total and the cursor. -/
theorem civil_whole (total : Int64) (cursor : YearMonthDay) (p : Part) :
    (if isCalendar cursor p.reading then
        let moved := moveCursor cursor p.reading.unitC (readDigits p.reading.whole)
        ⟨total + Int64.ofInt (moved.toDays - cursor.toDays) * 86400 * 1000, moved⟩
      else ⟨total + readDigits p.reading.whole * p.reading.unitMs, cursor⟩ : Civil) =
      ⟨total + Int64.ofInt (p.civilMs cursor - p.fracMs), p.moved cursor⟩ := by
  by_cases calendar : p.IsCalendar cursor
  · have moved : moveCursor cursor p.reading.unitC (readDigits p.reading.whole) = p.moved cursor := by
      rw [readDigits_eq, Part.moved, if_pos calendar]
      rfl
    rw [if_pos ((isCalendar_iff cursor p).mpr calendar), Part.civilMs, if_pos calendar, Int.add_sub_cancel, moved]
    dsimp only
    rw [ofInt_days]
  · have sum : p.milliseconds = p.wholeMs + p.fracMs := rfl
    have milliseconds : (p.milliseconds : Int) - p.fracMs = p.wholeMs := by omega
    rw [if_neg fun found => calendar ((isCalendar_iff cursor p).mp found), Part.civilMs, if_neg calendar, milliseconds,
      Part.moved, if_neg calendar, ofNat_wholeMs, Int64.ofInt_eq_ofNat]

theorem readsPart_civil (total : Int64) (cursor : YearMonthDay) (p : Part) :
    readsPart civil ⟨total, cursor⟩ p = ⟨total + Int64.ofInt (p.civilMs cursor), p.moved cursor⟩ := by
  have number : readNumber civil ⟨total, cursor⟩ p.reading.whole p.reading.frac = ⟨total, cursor⟩ := by
    cases p.reading.frac <;> rfl
  have split : Int64.ofInt (p.civilMs cursor) =
      Int64.ofInt (p.civilMs cursor - p.fracMs) + Int64.ofNat p.fracMs := by
    rw [← Int64.ofInt_eq_ofNat, ← Int64.ofInt_add, Int.sub_add_cancel]
  rw [readsPart, number]
  dsimp only [civil]
  rw [civil_whole, split, ← Int64.add_assoc]
  by_cases plain : p.number.frac = []
  · have none : p.fracMs = 0 := by rw [Part.fracMs, Numeral.milli_eq_zero plain, Nat.zero_mul]
    rw [reading_plain plain, none]
    exact congrArg (Civil.mk · _) (Int64.add_zero _).symm
  · rw [reading_fraction plain]
    dsimp only
    rw [ofNat_fracMs]

/-- The cursor after a duration. -/
def movedBy (cursor : YearMonthDay) (ps : List Part) : YearMonthDay := ps.foldl Part.moved cursor

/-- The milliseconds of a duration, counted from the cursor. -/
def civilMs : YearMonthDay → List Part → Int
  | _, [] => 0
  | cursor, p :: ps => p.civilMs cursor + civilMs (p.moved cursor) ps

theorem foldl_civil (ps : List Part) (total : Int64) (cursor : YearMonthDay) :
    ps.foldl (readsPart civil) ⟨total, cursor⟩ = ⟨total + Int64.ofInt (civilMs cursor ps), movedBy cursor ps⟩ := by
  induction ps generalizing total cursor with
  | nil => exact congrArg (Civil.mk · cursor) (Int64.add_zero total).symm
  | cons p ps ih =>
    rw [List.foldl_cons, readsPart_civil, ih, civilMs, Int64.ofInt_add, Int64.add_assoc]
    rfl

theorem twCivilDurationMs_text (d : Duration) (cursor : YearMonthDay) :
    twCivilDurationMs d.text cursor = (Int64.ofInt (civilMs cursor d.parts), movedBy cursor d.parts) := by
  rw [twCivilDurationMs, run_text, foldl_civil]
  exact congrArg (·, movedBy cursor d.parts) (Int64.zero_add _)

/-! ## Years and months alone -/

/-- The duration of a number without a fraction. -/
def single (digits : List Char) (some : digits ≠ []) (isDigit : ∀ c ∈ digits, c.isDigit) (u : DurationUnit) : Duration where
  parts := [⟨⟨digits, [], some, isDigit, by simp⟩, u⟩]
  ordered := List.pairwise_singleton _ _
  weekAlone := by simp
  fractionLast := by simp

theorem text_single {digits : List Char} (some : digits ≠ []) (isDigit : ∀ c ∈ digits, c.isDigit) {u : DurationUnit}
    (date : u.isTime = false) : (single digits some isDigit u).text = String.ofList ('P' :: (digits ++ [u.letter])) := by
  rw [Duration.text_eq]
  simp [single, textFrom, date, Part.text, Numeral.text]

/-- A duration counts `n` months from a date: the cursor is moved to the date `n` months later, and the milliseconds are
    those of the days until then. -/
def Counts (dur : String) (cursor : YearMonthDay) (d : Date) (n : Nat) : Prop :=
  (twCivilDurationMs dur cursor).2.Is (d.addMonths n) ∧
    ∃ days : Nat, d.advance days = d.addMonths n ∧ (twCivilDurationMs dur cursor).1.toInt = 86400000 * days

/-- The dates of the years that a cursor can have. -/
theorem number_bounds {cursor : YearMonthDay} {d : Date} (is : cursor.Is d) :
    -13000000 ≤ d.number ∧ d.number ≤ 13000000 := by
  have lower := cursor.year.le_toInt
  have upper := cursor.year.toInt_lt
  rw [is.year] at lower upper
  have positive := d.month_pos
  have within := d.month_le
  have first := d.day_pos
  have last : d.day ≤ 31 := Nat.le_trans d.day_le (by unfold Gregorian.lastDay; split <;> split <;> decide)
  unfold Date.number monthStart
  dsimp only
  split <;> omega

theorem toInt_days {cursor moved : YearMonthDay} {d e : Date} (is : cursor.Is d) (isMoved : moved.Is e) :
    (Int64.ofInt (86400000 * (moved.toDays - cursor.toDays))).toInt = 86400000 * (e.number - d.number) := by
  have boundsD := number_bounds is
  have boundsE := number_bounds isMoved
  have days : moved.toDays - cursor.toDays = e.number - d.number := by
    rw [YearMonthDay.toDays_eq is, YearMonthDay.toDays_eq isMoved]
    omega
  rw [days]
  exact Int64.toInt_ofInt_of_le (by omega) (by omega)

theorem year_ne_min {cursor : YearMonthDay} {d : Date} (is : cursor.Is d) :
    cursor.year ≠ Int16.minValue ↔ d.year ≠ -2 ^ 15 := by
  rw [ne_eq, ne_eq, ← Int16.toInt_inj, is.year, Int16.toInt_minValue]

section
variable {cursor : YearMonthDay} {d : Date} {digits : List Char} (is : cursor.Is d) (valid : cursor.ok = true)
  (some : digits ≠ []) (isDigit : ∀ c ∈ digits, c.isDigit)
include is valid some isDigit

/-- A number of years or months alone counts `n` months if the cursor gets to the date `n` months later. -/
theorem counts_iff {u : DurationUnit} (calendar : u = .y ∨ u = .mo) (n : Nat) :
    Counts (String.ofList ('P' :: (digits ++ [u.letter]))) cursor d n ↔
      (moveCursor cursor u.letter (Int64.ofNat (digitsValue digits))).Is (d.addMonths n) := by
  have date : u.isTime = false := by rcases calendar with rfl | rfl <;> rfl
  have isCalendar : Part.IsCalendar cursor ⟨⟨digits, [], some, isDigit, by simp⟩, u⟩ := ⟨calendar, valid⟩
  have read := twCivilDurationMs_text (single digits some isDigit u) cursor
  have moved : movedBy cursor (single digits some isDigit u).parts =
      moveCursor cursor u.letter (Int64.ofNat (digitsValue digits)) := if_pos isCalendar
  have counted : civilMs cursor (single digits some isDigit u).parts =
      86400000 * ((moveCursor cursor u.letter (Int64.ofNat (digitsValue digits))).toDays - cursor.toDays) := by
    simp only [single, civilMs, Part.civilMs, Part.moved, if_pos isCalendar, Part.fracMs, Numeral.milli]
    simp [digitsValue]
  rw [text_single some isDigit date, moved, counted] at read
  unfold Counts
  rw [read]
  constructor
  · exact And.left
  · intro isMoved
    have later := d.number_le_addMonths n
    refine ⟨isMoved, ((d.addMonths n).number - d.number).toNat, Date.advance_eq_iff.mpr (by omega), ?_⟩
    rw [toInt_days is isMoved, Int.toNat_of_nonneg (by omega)]

theorem counts_years {n : Nat} (value : digitsValue digits = n) (within : d.year + n ≤ 9999) :
    Counts (String.ofList ('P' :: (digits ++ ['Y']))) cursor d (12 * n) := by
  have lower := cursor.year.le_toInt
  have notLeast := (year_ne_min is).mp (YearMonthDay.ok_iff.mp valid).1
  have positive := d.month_pos
  have last := d.month_le
  rw [is.year] at lower
  refine (counts_iff is valid some isDigit (.inl rfl) (12 * n)).mpr ?_
  rw [value]
  obtain ⟨e, isE, year, month, day⟩ := YearMonthDay.moveCursor_years is n
  have year : e.year = d.year + n := by
    rw [year]
    exact Int.bmod_eq_of_le (by omega) (by omega)
  have same : e = d.addMonths (12 * n) := by
    refine Date.eq_addMonths ?_ ?_ (day ?_)
    · rw [year, Date.year_addMonths]
      omega
    · rw [month, Date.month_addMonths]
      omega
    · rw [year]
      omega
  exact same ▸ isE

theorem counts_months_iff {n : Nat} (value : digitsValue digits = n) (within : (d.addMonths n).year ≤ 9999) :
    Counts (String.ofList ('P' :: (digits ++ ['M']))) cursor d n ↔ d.month + n ≤ 12 := by
  have lower := cursor.year.le_toInt
  have positive := d.month_pos
  have last := d.month_le
  have later := d.year_addMonths n
  rw [is.year] at lower
  refine (counts_iff is valid some isDigit (.inr rfl) n).trans ?_
  rw [value]
  obtain ⟨e, isE, year, month, day⟩ := YearMonthDay.moveCursor_months is (YearMonthDay.ok_iff.mp valid).1 n
  have narrow : (Int64.ofNat n).toInt32.toInt = n := by
    rw [Int64.toInt_toInt32, Int64.toInt_ofNat_of_lt (by omega)]
    exact Int.bmod_eq_of_le (by omega) (by omega)
  rw [YearMonthDay.plusMonths_eq, narrow] at month
  constructor
  · intro isLater
    have sameYear := congrArg Date.year (isE.unique isLater)
    omega
  · intro early
    have same : e = d.addMonths n := by
      refine Date.eq_addMonths (by omega) ?_ day
      rw [month, Date.month_addMonths]
      omega
    exact same ▸ isE

/-- Years are counted as the calendar has them; months only within the year, for the year stays as it is. -/
theorem twCivilDurationMs_counts {n : Nat} (value : digitsValue digits = n) :
    (d.year + n ≤ 9999 → Counts (String.ofList ('P' :: (digits ++ ['Y']))) cursor d (12 * n)) ∧
      ((d.addMonths n).year ≤ 9999 →
        (Counts (String.ofList ('P' :: (digits ++ ['M']))) cursor d n ↔ d.month + n ≤ 12)) :=
  ⟨counts_years is valid some isDigit value, counts_months_iff is valid some isDigit value⟩

end

/-- From the last day of January 2024, a year later is the last of January and a month later the last of February. -/
theorem twCivilDurationMs_counts_january :
    let january : Date := ⟨2024, 1, 31, by decide, by decide, by decide, by decide⟩
    Counts "P1Y" ⟨2024, 1, 31⟩ january 12 ∧ Counts "P1M" ⟨2024, 1, 31⟩ january 1 := by
  intro january
  have counts := twCivilDurationMs_counts (d := january) ⟨rfl, rfl, rfl⟩
    (by decide : YearMonthDay.ok ⟨2024, 1, 31⟩ = true) (by decide : ['1'] ≠ []) (by simp) rfl
  exact ⟨counts.1 (by decide), (counts.2 (by decide)).mpr (by decide)⟩

/-- A month after the middle of December comes the middle of January of the same year, 335 days before. -/
theorem twCivilDurationMs_december :
    let december : Date := ⟨2024, 12, 15, by decide, by decide, by decide, by decide⟩
    twCivilDurationMs "P1M" ⟨2024, 12, 15⟩ = (-28944000000, ⟨2024, 1, 15⟩) ∧
      ¬Counts "P1M" ⟨2024, 12, 15⟩ december 1 := by
  intro december
  have moved : twCivilDurationMs "P1M" ⟨2024, 12, 15⟩ = (-28944000000, ⟨2024, 1, 15⟩) := by decide +kernel
  refine ⟨moved, fun counts => ?_⟩
  have is := counts.1
  rw [moved] at is
  exact absurd is.year (by decide)

end Iso8601Duration
end WeftWarp
