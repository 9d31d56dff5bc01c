import WeftWarp.DurationReader
import WeftWarp.Temporal

/-! # Civil time

The civil-time layer of `tw_temporal.hpp`, with the part of the vendored `date.h` it uses: years and months are counted
in the calendar, from a cursor that is moved on the way. -/

namespace WeftWarp

/-! ### `date.h` -/

/-- `date::year_month_day` -/
structure YearMonthDay where
  year : Int16
  month : Nat
  day : Nat
  deriving DecidableEq

namespace YearMonthDay

/-- `year::is_leap` -/
def isLeap (year : Int16) : Bool :=
  let y := year.toInt
  y.tmod 4 == 0 && (y.tmod 100 != 0 || y.tmod 400 == 0)

/-- `year_month_day_last::day` -/
def lastDay (year : Int16) (month : Nat) : Nat :=
  if (month ≠ 2 ∨ !isLeap year) ∧ 1 ≤ month ∧ month ≤ 12 then
    [31, 28, 31, 30, 31, 30, 31, 31, 30, 31, 30, 31].getD (month - 1) 0
  else 29

def ok (ymd : YearMonthDay) : Bool :=
  if ymd.year = Int16.minValue ∨ ¬(1 ≤ ymd.month ∧ ymd.month ≤ 12) then false
  else 1 ≤ ymd.day && ymd.day ≤ lastDay ymd.year ymd.month

/-- The days since 1970-01-01. -/
def toDays (ymd : YearMonthDay) : Int :=
  let y : Int := ymd.year.toInt - if ymd.month ≤ 2 then 1 else 0
  let era := (if 0 ≤ y then y else y - 399).tdiv 400
  let yoe := y - era * 400
  let doy : Nat := (153 * (if 2 < ymd.month then ymd.month - 3 else ymd.month + 9) + 2) / 5 + ymd.day - 1
  let doe := yoe * 365 + yoe / 4 - yoe / 100 + doy
  era * 146097 + doe - 719468

/-- `year + years{n}` -/
def plusYears (year : Int16) (n : Int32) : Int16 := (year.toInt32 + n).toInt16

/-- `month + months{n}`: it stays in the same year. -/
def plusMonths (month : Nat) (n : Int32) : Nat :=
  let mu : Int := month + n.toInt - 1
  let yr := (if 0 ≤ mu then mu else mu - 11).tdiv 12
  (mu - yr * 12 + 1).toNat

/-- The last day of the month, if there is no such day. -/
def clamp (ymd : YearMonthDay) : YearMonthDay :=
  if ymd.ok then ymd else { ymd with day := lastDay ymd.year ymd.month }

end YearMonthDay

/-- The digits of a number in a date. -/
def dateNumber (digits : List Char) : Nat :=
  digits.foldl (fun value c => value * 10 + digitValue c) 0

def twParseDate (s : String) : Option YearMonthDay :=
  match s.toList with
  | y₁ :: y₂ :: y₃ :: y₄ :: '-' :: m₁ :: m₂ :: '-' :: d₁ :: d₂ :: _ =>
    if [y₁, y₂, y₃, y₄, m₁, m₂, d₁, d₂].all Char.isDigit then
      let ymd : YearMonthDay :=
        ⟨Int16.ofNat (dateNumber [y₁, y₂, y₃, y₄]), dateNumber [m₁, m₂], dateNumber [d₁, d₂]⟩
      if ymd.ok then some ymd else none
    else none
  | _ => none

/-! ### `tw_civil_duration_ms` -/

namespace TwDuration

/-- The cursor after a number of years or months. -/
def moveCursor (cursor : YearMonthDay) (unitC : Char) (whole : Int64) : YearMonthDay :=
  YearMonthDay.clamp <|
    if unitC = 'Y' then { cursor with year := YearMonthDay.plusYears cursor.year whole.toInt32 }
    else { cursor with month := YearMonthDay.plusMonths cursor.month whole.toInt32 }

/-- Y and M before the `T`, if the cursor is a date. -/
def isCalendar (cursor : YearMonthDay) (read : Reading) : Bool :=
  !read.inTime && (read.unitC = 'Y' || read.unitC = 'M') && cursor.ok

/-- What the civil reader keeps. -/
structure Civil where
  totalMs : Int64
  cursor : YearMonthDay
  deriving DecidableEq

def civil : Reader Civil where
  whole kept _ := kept
  fraction kept _ := kept
  part kept read :=
    let whole := readDigits read.whole
    let kept :=
      if isCalendar kept.cursor read then
        let cursor := moveCursor kept.cursor read.unitC whole
        let days := Int64.ofInt (cursor.toDays - kept.cursor.toDays)
        ⟨kept.totalMs + days * 86400 * 1000, cursor⟩
      else { kept with totalMs := kept.totalMs + whole * read.unitMs }
    match read.frac with
    | none => kept
    | some digits => { kept with totalMs := kept.totalMs + fracMilli digits * (read.unitMs / 1000) }

end TwDuration

/-- The milliseconds, or -1, and the cursor as it is left. -/
def twCivilDurationMs (dur : String) (cursor : YearMonthDay) : Int64 × YearMonthDay :=
  match TwDuration.civil.run ⟨0, cursor⟩ dur with
  | (true, kept) => (kept.totalMs, kept.cursor)
  | (false, kept) => (-1, kept.cursor)

/-! ### `tw_check_temporal_civil` -/

section Check
variable {F : Type} [CxxMath F]

/-- The step `i` of a plan, for `durMs` milliseconds. -/
def Timing.place (t : Timing F) (name : String) (i : Nat) (durIso : String) (durMs : Int64) : Timing F :=
  let durS := Cxx.ofInt64 durMs / (1000.0 : F)
  let start := "a" ++ toString i ++ "_start"
  let finish := "a" ++ toString i ++ "_end"
  { stn := (t.stn.addConstraint t.prevEnd start 0.0 0.0).addConstraint start finish durS durS
    prevEnd := finish
    current := t.current + durMs
    totalMs := t.totalMs + durMs
    steps := t.steps ++ [⟨name, if durIso = "" then "PT0S" else durIso, twFormatDurationMs t.current,
      twFormatDurationMs (t.current + durMs)⟩] }

/-- The variables of the loop of `tw_check_temporal_civil`. -/
structure CivilTiming (F : Type) where
  timing : Timing F
  civilCursor : Option YearMonthDay

/-- The milliseconds of a duration's text, by the calendar if there is a cursor, and the cursor behind it. -/
def civilParsed (civilCursor : Option YearMonthDay) (dur : String) : Int64 × Option YearMonthDay :=
  match civilCursor with
  | none => (twParseDurationMs dur, none)
  | some cursor =>
    if cursor.ok then
      let (parsed, cursor) := twCivilDurationMs dur cursor
      (parsed, some cursor)
    else (twParseDurationMs dur, some cursor)

/-- One round of the loop, for the step `i` of the plan. -/
def CivilTiming.push (d : TwDomain F) (t : CivilTiming F) (step : TwCall F × Nat) : CivilTiming F :=
  match d.actionDurations.find? step.1.name with
  | none => { t with timing := t.timing.place step.1.name step.2 "" 0 }
  | some dur =>
    let (parsed, civilCursor) := civilParsed t.civilCursor dur
    ⟨t.timing.place step.1.name step.2 dur (if 0 ≤ parsed then parsed else 0), civilCursor⟩

/-- The loop's variables before the first round. -/
def civilStart (originIso referenceDate : String) : CivilTiming F :=
  let parsed := twParseDurationMs originIso
  let originMs := if parsed < 0 then 0 else parsed
  ⟨⟨STN.empty.addPoint "t0", "t0", originMs, 0, []⟩, if referenceDate = "" then none else twParseDate referenceDate⟩

def twCheckTemporalCivil (plan : List (TwCall F)) (d : TwDomain F) (originIso referenceDate : String) :
    TwTemporalResult :=
  if plan.isEmpty then ⟨true, "PT0S", originIso, []⟩
  else
    let t := (plan.zipIdx.foldl (CivilTiming.push d) (civilStart originIso referenceDate)).timing
    ⟨t.stn.consistent, twFormatDurationMs t.totalMs, originIso, t.steps⟩

end Check

end WeftWarp
