import Mathlib.Algebra.Order.Ring.Int
import Mathlib.Logic.Function.Iterate
import Mathlib.Tactic.IntervalCases

/-! # The proleptic Gregorian calendar

A date is a year, a month and a day of that month; the calendar goes from a date to the next one. Dates are numbered by
a closed formula, with the year taken to begin in March. The next date has the next number, and different dates have
different numbers, so counting days and subtracting numbers is the same. -/

namespace WeftWarp
namespace Gregorian

/-- The year has a 29th of February. -/
def IsLeap (year : Int) : Prop := year % 4 = 0 ∧ (year % 100 ≠ 0 ∨ year % 400 = 0)

instance (year : Int) : Decidable (IsLeap year) := inferInstanceAs (Decidable (_ ∧ _))

/-- The last day of a month. -/
def lastDay (year : Int) (month : Nat) : Nat :=
  if month = 2 then if IsLeap year then 29 else 28
  else if month = 4 ∨ month = 6 ∨ month = 9 ∨ month = 11 then 30
  else 31

/-- A day of the calendar. -/
@[ext]
structure Date where
  year : Int
  month : Nat
  day : Nat
  month_pos : 1 ≤ month
  month_le : month ≤ 12
  day_pos : 1 ≤ day
  day_le : day ≤ lastDay year month
  deriving DecidableEq

theorem lastDay_pos (year : Int) (month : Nat) : 1 ≤ lastDay year month := by
  unfold lastDay
  split <;> split <;> decide

namespace Date

/-- The day after. -/
def next (d : Date) : Date :=
  if more : d.day < lastDay d.year d.month then
    { d with day := d.day + 1, day_pos := Nat.le_add_left 1 d.day, day_le := more }
  else if more : d.month < 12 then
    ⟨d.year, d.month + 1, 1, Nat.le_add_left 1 d.month, more, Nat.le_refl 1, lastDay_pos _ _⟩
  else ⟨d.year + 1, 1, 1, Nat.le_refl 1, by decide, Nat.le_refl 1, lastDay_pos _ _⟩

/-- The date `n` days later. -/
def advance (d : Date) (n : Nat) : Date := next^[n] d

/-- The same day `n` months later, or the last day of a month that is too short. -/
def addMonths (d : Date) (n : Nat) : Date :=
  let year := d.year + ((d.month - 1 + n) / 12 : Nat)
  let month := (d.month - 1 + n) % 12 + 1
  ⟨year, month, min d.day (lastDay year month), Nat.le_add_left 1 _, Nat.mod_lt _ (by decide),
    Nat.le_min.mpr ⟨d.day_pos, lastDay_pos _ _⟩, Nat.min_le_right _ _⟩

end Date

/-! ### Numbers of months -/

/-- The months from January of the year 0 on. -/
def Date.monthIndex (d : Date) : Int := 12 * d.year + d.month - 1

/-- The number of the last day before a month. -/
def monthStart (year : Int) (month : Nat) : Int :=
  let y := if month ≤ 2 then year - 1 else year
  let m := if month ≤ 2 then month + 9 else month - 3
  365 * y + y / 4 - y / 100 + y / 400 + ((153 * m + 2) / 5 : Nat)

/-- March begins with the year, so February is the last month of the year before it. -/
theorem monthStart_march (year : Int) : monthStart year 3 = monthStart year 2 + lastDay year 2 := by
  by_cases leap : IsLeap year
  · have days : lastDay year 2 = 29 := by simp [lastDay, leap]
    simp only [IsLeap] at leap
    rw [days]
    simp [monthStart]
    omega
  · have days : lastDay year 2 = 28 := by simp [lastDay, leap]
    simp only [IsLeap] at leap
    rw [days]
    simp [monthStart]
    omega

theorem monthStart_succ (year : Int) {month : Nat} (positive : 1 ≤ month) (more : month < 12) :
    monthStart year (month + 1) = monthStart year month + lastDay year month := by
  by_cases february : month = 2
  · subst february
    exact monthStart_march year
  · interval_cases month <;> first | contradiction | (simp [monthStart, lastDay] <;> omega)

theorem monthStart_january (year : Int) : monthStart (year + 1) 1 = monthStart year 12 + lastDay year 12 := by
  simp [monthStart, lastDay]
  omega

/-- The month with an index. -/
def yearOf (k : Int) : Int := k / 12

/-- The month with this index. -/
def monthOf (k : Int) : Nat := (k % 12).toNat + 1

theorem monthStart_index (k : Int) :
    monthStart (yearOf (k + 1)) (monthOf (k + 1)) = monthStart (yearOf k) (monthOf k) + lastDay (yearOf k) (monthOf k) := by
  rcases Int.lt_or_le (k % 12) 11 with more | last
  · have sameYear : yearOf (k + 1) = yearOf k := by unfold yearOf; omega
    have nextMonth : monthOf (k + 1) = monthOf k + 1 := by unfold monthOf; omega
    rw [sameYear, nextMonth]
    exact monthStart_succ _ (Nat.le_add_left 1 _) (by unfold monthOf; omega)
  · have nextYear : yearOf (k + 1) = yearOf k + 1 := by unfold yearOf; omega
    have january : monthOf (k + 1) = 1 := by unfold monthOf; omega
    have december : monthOf k = 12 := by unfold monthOf; omega
    rw [nextYear, january, december]
    exact monthStart_january _

theorem monthStart_lt {k l : Int} (before : k < l) :
    monthStart (yearOf k) (monthOf k) + lastDay (yearOf k) (monthOf k) ≤ monthStart (yearOf l) (monthOf l) := by
  obtain ⟨n, rfl⟩ : ∃ n : Nat, l = k + 1 + n := ⟨(l - (k + 1)).toNat, by omega⟩
  clear before
  induction n with
  | zero =>
    rw [Int.natCast_zero, Int.add_zero, monthStart_index]
  | succ n ih =>
    have next := monthStart_index (k + 1 + n)
    rw [Int.natCast_succ, ← Int.add_assoc]
    omega

namespace Date

theorem yearOf_monthIndex (d : Date) : yearOf d.monthIndex = d.year := by
  have lower := d.month_pos
  have upper := d.month_le
  unfold yearOf monthIndex
  omega

theorem monthOf_monthIndex (d : Date) : monthOf d.monthIndex = d.month := by
  have lower := d.month_pos
  have upper := d.month_le
  unfold monthOf monthIndex
  omega

/-! ### Numbers of days -/

/-- The day as a number. -/
def number (d : Date) : Int := monthStart d.year d.month + d.day

theorem number_next (d : Date) : d.next.number = d.number + 1 := by
  unfold next
  split
  · simp only [number]
    omega
  · rename_i last
    have whole : d.day = lastDay d.year d.month := Nat.le_antisymm d.day_le (Nat.not_lt.mp last)
    split
    · rename_i more
      simp only [number]
      rw [monthStart_succ d.year d.month_pos more, whole]
      omega
    · rename_i december
      have december : d.month = 12 := Nat.le_antisymm d.month_le (Nat.not_lt.mp december)
      simp only [number]
      rw [monthStart_january, whole, december]
      omega

theorem number_advance (d : Date) (n : Nat) : (d.advance n).number = d.number + n := by
  induction n with
  | zero => simp [advance]
  | succ n ih =>
    have step : d.advance (n + 1) = (d.advance n).next := Function.iterate_succ_apply' next n d
    rw [step, number_next, ih]
    omega

/-- A date in a later month has a greater number. -/
theorem number_lt_of_monthIndex_lt {d e : Date} (before : d.monthIndex < e.monthIndex) : d.number < e.number := by
  have months := monthStart_lt before
  rw [d.yearOf_monthIndex, d.monthOf_monthIndex, e.yearOf_monthIndex, e.monthOf_monthIndex] at months
  have dayD := d.day_le
  have dayE := e.day_pos
  unfold number
  omega

theorem eq_of_monthIndex_eq {d e : Date} (month : d.monthIndex = e.monthIndex) (day : d.day = e.day) : d = e := by
  have years := congrArg yearOf month
  have months := congrArg monthOf month
  rw [d.yearOf_monthIndex, e.yearOf_monthIndex] at years
  rw [d.monthOf_monthIndex, e.monthOf_monthIndex] at months
  exact Date.ext years months day

theorem number_inj {d e : Date} : d.number = e.number ↔ d = e := by
  constructor
  · intro same
    rcases Int.lt_trichotomy d.monthIndex e.monthIndex with before | month | behind
    · have less := number_lt_of_monthIndex_lt before
      omega
    · refine eq_of_monthIndex_eq month ?_
      have years := congrArg yearOf month
      have months := congrArg monthOf month
      rw [d.yearOf_monthIndex, e.yearOf_monthIndex] at years
      rw [d.monthOf_monthIndex, e.monthOf_monthIndex] at months
      unfold number at same
      rw [years, months] at same
      omega
    · have less := number_lt_of_monthIndex_lt behind
      omega
  · rintro rfl
    rfl

theorem advance_eq_iff {d e : Date} {n : Nat} : d.advance n = e ↔ e.number = d.number + n := by
  rw [← number_inj, number_advance]
  exact eq_comm

theorem year_addMonths (d : Date) (n : Nat) : (d.addMonths n).year = d.year + ((d.month - 1 + n) / 12 : Nat) := rfl

theorem month_addMonths (d : Date) (n : Nat) : (d.addMonths n).month = (d.month - 1 + n) % 12 + 1 := rfl

theorem eq_addMonths {d e : Date} {n : Nat} (year : e.year = (d.addMonths n).year) (month : e.month = (d.addMonths n).month)
    (day : e.day = min d.day (lastDay e.year e.month)) : e = d.addMonths n := by
  refine Date.ext year month ?_
  rw [day, year, month]
  rfl

theorem monthIndex_addMonths (d : Date) (n : Nat) : (d.addMonths n).monthIndex = d.monthIndex + n := by
  have positive := d.month_pos
  rw [monthIndex, year_addMonths, month_addMonths, monthIndex]
  omega

theorem number_le_addMonths (d : Date) (n : Nat) : d.number ≤ (d.addMonths n).number := by
  have index := d.monthIndex_addMonths n
  rcases Nat.eq_zero_or_pos n with rfl | positive
  · rw [Int.natCast_zero, Int.add_zero] at index
    have years := congrArg yearOf index
    have months := congrArg monthOf index
    rw [yearOf_monthIndex, yearOf_monthIndex] at years
    rw [monthOf_monthIndex, monthOf_monthIndex] at months
    have sameDay : (d.addMonths 0).day = d.day := by
      have fits := d.day_le
      rw [← years, ← months] at fits
      exact Nat.min_eq_left fits
    rw [eq_of_monthIndex_eq index sameDay]
  · exact Int.le_of_lt (number_lt_of_monthIndex_lt (by omega))

end Date
end Gregorian
end WeftWarp
