import WeftWarp.Theorems.CivilCursor

/-! # The dates of a plan

`tw_check_temporal_civil` moves its cursor by years and months only; the fixed units of a duration, and a duration that
comes out negative, pass without it. -/

namespace WeftWarp
namespace Iso8601Duration
open TwDuration Gregorian

variable {cursor : YearMonthDay} {d : Date} {p : Part} {ps : List Part}

/-! ## The date after a duration -/

/-- The number of a unit. -/
def countOf (u : DurationUnit) (ps : List Part) : Nat :=
  ((ps.filter fun p => p.unit = u).map fun p => digitsValue p.number.whole).sum

theorem countOf_eq_zero {u : DurationUnit} (none : ∀ p ∈ ps, p.unit ≠ u) : countOf u ps = 0 := by
  have empty : ps.filter (fun p => p.unit = u) = [] := by
    rw [List.filter_eq_nil_iff]
    intro p mem
    simpa using none p mem
  rw [countOf, empty]
  rfl

theorem countOf_cons_self (ps : List Part) : countOf p.unit (p :: ps) = digitsValue p.number.whole + countOf p.unit ps := by
  simp [countOf]

theorem countOf_cons_of_ne {u : DurationUnit} (other : p.unit ≠ u) (ps : List Part) :
    countOf u (p :: ps) = countOf u ps := by
  simp [countOf, other]

theorem moveCursor_zero_years (valid : cursor.ok = true) : moveCursor cursor 'Y' (Int64.ofNat 0) = cursor := by
  have same := (plusYears_eq_iff cursor.year 0).mpr rfl
  have moved : moveCursor cursor 'Y' (Int64.ofNat 0) = YearMonthDay.clamp { cursor with
    year := YearMonthDay.plusYears cursor.year (Int64.ofNat 0).toInt32 } := rfl
  rw [moved, same]
  exact YearMonthDay.clamp_of_ok valid

theorem moveCursor_zero_months (valid : cursor.ok = true) : moveCursor cursor 'M' (Int64.ofNat 0) = cursor := by
  obtain ⟨-, d, is⟩ := YearMonthDay.ok_iff.mp valid
  have same := (plusMonths_eq_iff (is.month ▸ d.month_pos : 1 ≤ cursor.month) (is.month ▸ d.month_le)
    (Int64.ofNat 0).toInt32).mpr rfl
  have moved : moveCursor cursor 'M' (Int64.ofNat 0) = YearMonthDay.clamp { cursor with
    month := YearMonthDay.plusMonths cursor.month (Int64.ofNat 0).toInt32 } := rfl
  rw [moved, same]
  exact YearMonthDay.clamp_of_ok valid

/-- A cursor that is no date stays where it is, and every unit is fixed. -/
theorem movedBy_of_invalid (invalid : ¬cursor.ok = true) (ps : List Part) : movedBy cursor ps = cursor := by
  induction ps with
  | nil => rfl
  | cons p ps ih =>
    have still : p.moved cursor = cursor := if_neg fun calendar => invalid calendar.2
    rw [movedBy, List.foldl_cons, still]
    exact ih

theorem civilMs_of_invalid (invalid : ¬cursor.ok = true) (ps : List Part) :
    civilMs cursor ps = (ps.map Part.milliseconds).sum := by
  induction ps with
  | nil => rfl
  | cons p ps ih =>
    have still : p.moved cursor = cursor := if_neg fun calendar => invalid calendar.2
    have part : p.civilMs cursor = p.milliseconds := if_neg fun calendar => invalid calendar.2
    rw [civilMs, still, part, ih, List.map_cons, List.sum_cons, Int.natCast_add]

theorem movedBy_months (ordered : ps.Pairwise fun p q => unitRank p.unit < unitRank q.unit)
    (notYears : ∀ p ∈ ps, p.unit ≠ .y) (valid : cursor.ok = true) :
    movedBy cursor ps = moveCursor cursor 'M' (Int64.ofNat (countOf .mo ps)) := by
  cases ps with
  | nil => exact (moveCursor_zero_months valid).symm
  | cons p ps =>
    obtain ⟨later, -⟩ := List.pairwise_cons.mp ordered
    have notFirst := notYears p List.mem_cons_self
    have rest : ∀ q ∈ ps, q.unit ≠ .y ∧ q.unit ≠ .mo := fun q mem =>
      ⟨not_years_of_later (later q mem), not_months_of_later notFirst (later q mem)⟩
    have none : countOf .mo ps = 0 := countOf_eq_zero fun q mem => (rest q mem).2
    have here : movedBy cursor (p :: ps) = p.moved cursor := movedBy_of_not rest
    rw [here]
    by_cases months : p.unit = .mo
    · have count := countOf_cons_self (p := p) ps
      rw [months, none, Nat.add_zero] at count
      rw [moved_of_months valid months, count]
      rfl
    · rw [countOf_cons_of_ne months, none, moved_of_not notFirst months, moveCursor_zero_months valid]

/-- The years of a duration are added first, and then its months. -/
theorem movedBy_eq (ordered : ps.Pairwise fun p q => unitRank p.unit < unitRank q.unit) (valid : cursor.ok = true) :
    let behindYears := moveCursor cursor 'Y' (Int64.ofNat (countOf .y ps))
    movedBy cursor ps =
      if behindYears.ok then moveCursor behindYears 'M' (Int64.ofNat (countOf .mo ps)) else behindYears := by
  intro behindYears
  cases ps with
  | nil =>
    have same : behindYears = cursor := moveCursor_zero_years valid
    rw [same, if_pos valid]
    exact (moveCursor_zero_months valid).symm
  | cons p ps =>
    obtain ⟨later, orderedRest⟩ := List.pairwise_cons.mp ordered
    have rest : ∀ q ∈ ps, q.unit ≠ .y := fun q mem => not_years_of_later (later q mem)
    by_cases years : p.unit = .y
    · have count := countOf_cons_self (p := p) ps
      rw [years, countOf_eq_zero rest, Nat.add_zero] at count
      have first : p.moved cursor = behindYears := by
        rw [moved_of_years valid years]
        simp only [behindYears, count]
        rfl
      have notMonths : p.unit ≠ .mo := by rw [years]; decide
      have here : movedBy cursor (p :: ps) = movedBy behindYears ps := by rw [← first]; rfl
      rw [here, countOf_cons_of_ne notMonths]
      split
      · rename_i stillOk
        exact movedBy_months orderedRest rest stillOk
      · rename_i notOk
        exact movedBy_of_invalid notOk ps
    · have none : countOf .y (p :: ps) = 0 := by rw [countOf_cons_of_ne years, countOf_eq_zero rest]
      have same : behindYears = cursor := by
        simp only [behindYears, none]
        exact moveCursor_zero_years valid
      rw [same, if_pos valid]
      refine movedBy_months ordered (fun q mem => ?_) valid
      rcases List.mem_cons.mp mem with rfl | mem
      · exact years
      · exact rest q mem

/-- A duration takes the cursor to an earlier month: its months do not carry into the year, and the year wraps around in
    16 bits. -/
def GoesBack (cursor : YearMonthDay) (ps : List Part) : Prop :=
  let year := (cursor.year.toInt + countOf .y ps).bmod (2 ^ 16)
  let month := YearMonthDay.plusMonths cursor.month (Int64.ofNat (countOf .mo ps)).toInt32
  year < cursor.year.toInt ∨ (year = cursor.year.toInt ∧ month < cursor.month)

instance (cursor : YearMonthDay) (ps : List Part) : Decidable (GoesBack cursor ps) :=
  inferInstanceAs (Decidable (_ ∨ _))

/-- The date after a duration. -/
theorem exists_movedBy (is : cursor.Is d) (valid : cursor.ok = true)
    (ordered : ps.Pairwise fun p q => unitRank p.unit < unitRank q.unit) :
    ∃ e : Date, (movedBy cursor ps).Is e ∧ e.year = (d.year + countOf .y ps).bmod (2 ^ 16) ∧
      (e.year ≠ -2 ^ 15 → e.month = YearMonthDay.plusMonths d.month (Int64.ofNat (countOf .mo ps)).toInt32 ∧
        (e.year = d.year → e.month = d.month → e = d)) := by
  have moved := movedBy_eq ordered valid
  dsimp only at moved
  obtain ⟨e, isE, year, month, day⟩ := YearMonthDay.moveCursor_years is (countOf .y ps)
  by_cases stillOk : (moveCursor cursor 'Y' (Int64.ofNat (countOf .y ps))).ok = true
  · rw [if_pos stillOk] at moved
    have notMin := (YearMonthDay.ok_iff.mp stillOk).1
    obtain ⟨f, isF, yearF, monthF, dayF⟩ := YearMonthDay.moveCursor_months isE notMin (countOf .mo ps)
    refine ⟨f, moved ▸ isF, yearF.trans year, fun _ => ⟨month ▸ monthF, fun sameYear sameMonth => ?_⟩⟩
    have day := day ((year_ne_min isE).mp notMin)
    refine Date.ext sameYear sameMonth ?_
    rw [dayF, day, ← yearF, month, sameYear, sameMonth, Nat.min_eq_left d.day_le, Nat.min_eq_left d.day_le]
  · rw [if_neg stillOk] at moved
    have isMin : e.year = -2 ^ 15 := by
      by_contra notMin
      exact stillOk (YearMonthDay.ok_iff.mpr ⟨(year_ne_min isE).mpr notMin, e, isE⟩)
    exact ⟨e, moved ▸ isE, year, fun notMin => absurd isMin notMin⟩

/-! ## The milliseconds of a duration -/

/-- The milliseconds of a part that pass without the cursor. -/
def Part.fixedMs (p : Part) : Nat := if p.unit = .y ∨ p.unit = .mo then p.fracMs else p.milliseconds

/-- The milliseconds of the parts that count as fixed. -/
def fixedMs (ps : List Part) : Nat := (ps.map Part.fixedMs).sum

theorem le_civilMs (cursor : YearMonthDay) (ps : List Part) :
    86400000 * ((movedBy cursor ps).toDays - cursor.toDays) ≤ civilMs cursor ps := by
  induction ps generalizing cursor with
  | nil => simp [movedBy, civilMs]
  | cons p ps ih =>
    have rest := ih (p.moved cursor)
    have step : movedBy cursor (p :: ps) = movedBy (p.moved cursor) ps := rfl
    rw [step, civilMs]
    by_cases calendar : p.IsCalendar cursor
    · rw [Part.civilMs, if_pos calendar]
      omega
    · have still : p.moved cursor = cursor := if_neg calendar
      rw [Part.civilMs, if_neg calendar]
      rw [still] at rest ⊢
      omega

theorem exists_moved (is : cursor.Is d) (p : Part) : ∃ e, (p.moved cursor).Is e := by
  unfold Part.moved
  split
  · rename_i calendar
    obtain ⟨years | months, valid⟩ := calendar
    · obtain ⟨e, isE, -⟩ := YearMonthDay.moveCursor_years is (digitsValue p.number.whole)
      rw [years]
      exact ⟨e, isE⟩
    · obtain ⟨e, isE, -⟩ :=
        YearMonthDay.moveCursor_months is (YearMonthDay.ok_iff.mp valid).1 (digitsValue p.number.whole)
      rw [months]
      exact ⟨e, isE⟩
  · exact ⟨d, is⟩

/-- As long as the cursor stays a date, the milliseconds are the days it moves and the fixed ones. -/
theorem civilMs_eq (ordered : ps.Pairwise fun p q => unitRank p.unit < unitRank q.unit) (valid : cursor.ok = true)
    (stays : (movedBy cursor ps).year ≠ Int16.minValue) :
    civilMs cursor ps = 86400000 * ((movedBy cursor ps).toDays - cursor.toDays) + fixedMs ps := by
  induction ps generalizing cursor with
  | nil => simp [movedBy, civilMs, fixedMs]
  | cons p ps ih =>
    obtain ⟨later, ordered⟩ := List.pairwise_cons.mp ordered
    obtain ⟨notMin, d, is⟩ := YearMonthDay.ok_iff.mp valid
    have step : movedBy cursor (p :: ps) = movedBy (p.moved cursor) ps := rfl
    rw [step] at stays ⊢
    have sameYear : (movedBy (p.moved cursor) ps).year = (p.moved cursor).year :=
      movedBy_year fun q mem => not_years_of_later (later q mem)
    have validNext : (p.moved cursor).ok = true :=
      YearMonthDay.ok_iff.mpr ⟨sameYear ▸ stays, exists_moved is p⟩
    have rest := ih ordered validNext stays
    have sum : fixedMs (p :: ps) = p.fixedMs + fixedMs ps := by simp [fixedMs]
    rw [civilMs, rest, sum, Part.civilMs, Part.fixedMs]
    by_cases calendar : p.unit = .y ∨ p.unit = .mo
    · have isCalendar : p.IsCalendar cursor := ⟨calendar, valid⟩
      rw [if_pos isCalendar, if_pos calendar]
      omega
    · have notCalendar : ¬p.IsCalendar cursor := fun found => calendar found.1
      have still : p.moved cursor = cursor := if_neg notCalendar
      rw [if_neg notCalendar, if_neg calendar, still]
      omega

theorem forward_step (is : cursor.Is d) (valid : cursor.ok = true)
    (ordered : ps.Pairwise fun p q => unitRank p.unit < unitRank q.unit) (forward : ¬GoesBack cursor ps) :
    ∃ e : Date, (movedBy cursor ps).Is e ∧ (movedBy cursor ps).ok = true ∧ d.number ≤ e.number ∧
      civilMs cursor ps = 86400000 * (e.number - d.number) + fixedMs ps := by
  obtain ⟨e, isE, year, rest⟩ := exists_movedBy is valid ordered
  have notLeast := (year_ne_min is).mp (YearMonthDay.ok_iff.mp valid).1
  have lower := cursor.year.le_toInt
  rw [is.year] at lower
  simp only [GoesBack, is.year, is.month, ← year] at forward
  obtain ⟨notBefore, sameYear⟩ := not_or.mp forward
  have notMin : e.year ≠ -2 ^ 15 := by omega
  obtain ⟨month, same⟩ := rest notMin
  rw [← month] at sameYear
  have validE : (movedBy cursor ps).ok = true := YearMonthDay.ok_iff.mpr ⟨(year_ne_min isE).mpr notMin, e, isE⟩
  refine ⟨e, isE, validE, ?_, ?_⟩
  · by_cases equal : e.year = d.year ∧ e.month = d.month
    · rw [same equal.1 equal.2]
    · have lastMonth := d.month_le
      have firstMonth := e.month_pos
      refine Int.le_of_lt (Date.number_lt_of_monthIndex_lt ?_)
      unfold Date.monthIndex
      omega
  · rw [civilMs_eq ordered valid ((year_ne_min isE).mpr notMin), YearMonthDay.toDays_eq is, YearMonthDay.toDays_eq isE]
    omega

theorem backward_step (is : cursor.Is d) (valid : cursor.ok = true)
    (ordered : ps.Pairwise fun p q => unitRank p.unit < unitRank q.unit) (back : GoesBack cursor ps) :
    ∃ e : Date, (movedBy cursor ps).Is e ∧ e.number < d.number ∧
      86400000 * (e.number - d.number) ≤ civilMs cursor ps := by
  obtain ⟨e, isE, year, rest⟩ := exists_movedBy is valid ordered
  have notLeast := (year_ne_min is).mp (YearMonthDay.ok_iff.mp valid).1
  have lastMonth := e.month_le
  have firstMonth := d.month_pos
  simp only [GoesBack, is.year, is.month, ← year] at back
  refine ⟨e, isE, Date.number_lt_of_monthIndex_lt ?_, ?_⟩
  · unfold Date.monthIndex
    rcases back with earlier | ⟨sameYear, earlier⟩
    · omega
    · have month := (rest (by omega)).1
      omega
  · have days := le_civilMs cursor ps
    rw [YearMonthDay.toDays_eq is, YearMonthDay.toDays_eq isE] at days
    omega

/-! ## One step of a plan -/

theorem civilParsed_text (cursor : YearMonthDay) (D : Duration) :
    civilParsed (some cursor) D.text = (Int64.ofInt (civilMs cursor D.parts), some (movedBy cursor D.parts)) := by
  unfold civilParsed
  dsimp only
  split
  · rw [twCivilDurationMs_text]
  · rename_i invalid
    rw [twParseDurationMs_text, movedBy_of_invalid invalid, civilMs_of_invalid invalid, Int64.ofInt_eq_ofNat]
    rfl

/-- The cursor after a step; an action without a duration takes no time. -/
def cursorAfter (cursor : YearMonthDay) : Option Duration → YearMonthDay
  | none => cursor
  | some D => movedBy cursor D.parts

/-- The milliseconds of a step. -/
def stepMs (cursor : YearMonthDay) : Option Duration → Int
  | none => 0
  | some D => max 0 (civilMs cursor D.parts)

/-- The milliseconds of a step, as the code computes them. -/
def parsedMs (cursor : YearMonthDay) : Option Duration → Int64
  | none => 0
  | some D =>
    let parsed := Int64.ofInt (civilMs cursor D.parts)
    if 0 ≤ parsed then parsed else 0

/-- Those that pass without the cursor. -/
def stepFixedMs : Option Duration → Nat
  | none => 0
  | some D => fixedMs D.parts

/-- The step has a duration that takes the cursor back. -/
def StepGoesBack (cursor : YearMonthDay) (duration : Option Duration) : Prop :=
  ∃ D ∈ duration, GoesBack cursor D.parts

theorem stepMs_nonneg (cursor : YearMonthDay) (duration : Option Duration) : 0 ≤ stepMs cursor duration := by
  cases duration with
  | none => exact Int.le_refl 0
  | some D => exact Int.le_max_left 0 _

section
variable {duration : Option Duration}

theorem step_forward (is : cursor.Is d) (valid : cursor.ok = true) (forward : ¬StepGoesBack cursor duration) :
    ∃ e : Date, (cursorAfter cursor duration).Is e ∧ (cursorAfter cursor duration).ok = true ∧ d.number ≤ e.number ∧
      stepMs cursor duration = 86400000 * (e.number - d.number) + stepFixedMs duration := by
  cases duration with
  | none => exact ⟨d, is, valid, Int.le_refl _, by simp [stepMs, stepFixedMs]⟩
  | some D =>
    have notBack : ¬GoesBack cursor D.parts := fun back => forward ⟨D, rfl, back⟩
    obtain ⟨e, isE, validE, later, sum⟩ := forward_step is valid D.ordered notBack
    refine ⟨e, isE, validE, later, ?_⟩
    rw [stepMs, stepFixedMs, sum]
    omega

theorem step_backward (is : cursor.Is d) (valid : cursor.ok = true) (back : StepGoesBack cursor duration) :
    ∃ e : Date, (cursorAfter cursor duration).Is e ∧ e.number < d.number := by
  obtain ⟨D, rfl, back⟩ := back
  obtain ⟨e, isE, earlier, -⟩ := backward_step is valid D.ordered back
  exact ⟨e, isE, earlier⟩

theorem cursorAfter_of_invalid (invalid : ¬cursor.ok = true) : cursorAfter cursor duration = cursor := by
  cases duration with
  | none => rfl
  | some D => exact movedBy_of_invalid invalid D.parts

/-- The milliseconds of a step fit if they are not too many: the cursor cannot go back far enough to wrap around. -/
theorem toInt_parsedMs {e : Date} (is : cursor.Is d) (isE : (cursorAfter cursor duration).Is e)
    (fits : stepMs cursor duration < 2 ^ 63) : (parsedMs cursor duration).toInt = stepMs cursor duration := by
  cases duration with
  | none => rfl
  | some D =>
    have isE : (movedBy cursor D.parts).Is e := isE
    have days := le_civilMs cursor D.parts
    have boundsD := number_bounds is
    have boundsE := number_bounds isE
    rw [YearMonthDay.toDays_eq is, YearMonthDay.toDays_eq isE] at days
    have step : stepMs cursor (some D) = max 0 (civilMs cursor D.parts) := rfl
    rw [step] at fits ⊢
    have exact : (Int64.ofInt (civilMs cursor D.parts)).toInt = civilMs cursor D.parts :=
      Int64.toInt_ofInt_of_le (by omega) (by omega)
    have zero : (0 : Int64).toInt = 0 := rfl
    dsimp only [parsedMs]
    split
    · rename_i nonneg
      have nonneg := Int64.le_iff_toInt_le.mp nonneg
      rw [exact] at nonneg ⊢
      omega
    · rename_i negative
      have negative := Int64.lt_iff_toInt_lt.mp (Int64.not_le.mp negative)
      rw [exact] at negative
      omega

theorem toInt_add_parsedMs {e : Date} (is : cursor.Is d) (isE : (cursorAfter cursor duration).Is e) {current : Int64}
    (nonneg : 0 ≤ current.toInt) (fits : current.toInt + stepMs cursor duration < 2 ^ 63) :
    (current + parsedMs cursor duration).toInt = current.toInt + stepMs cursor duration := by
  have step := stepMs_nonneg cursor duration
  rw [Int64.toInt_add, toInt_parsedMs is isE (by omega)]
  exact Int.bmod_eq_of_le (by omega) (by omega)

end

/-! ## Whole plans -/

section Plans
variable {F : Type} [CxxMath F] (dom : TwDomain F) (plan : List (TwCall F)) (reference : String)

/-- The variables of the loop when it comes to step `i`, from the origin `PT0S`. -/
def timingBefore (i : Nat) : CivilTiming F :=
  (plan.zipIdx.take i).foldl (CivilTiming.push dom) (civilStart "PT0S" reference)

variable (durations : String → Option Duration)

/-- The total duration of the steps before step `i`. -/
def elapsed : Nat → Int
  | 0 => 0
  | i + 1 =>
    elapsed i + match (timingBefore dom plan reference i).civilCursor, plan[i]? with
      | some cursor, some call => stepMs cursor (durations call.name)
      | _, _ => 0

/-- The part of it that passes without the cursor. -/
def fixedBefore (i : Nat) : Nat := ((plan.take i).map fun call => stepFixedMs (durations call.name)).sum

/-- No step before step `i` goes back. -/
def Forward (i : Nat) : Prop :=
  ∀ j < i, ∀ call cursor, plan[j]? = some call → (timingBefore dom plan reference j).civilCursor = some cursor →
    ¬StepGoesBack cursor (durations call.name)

variable {dom plan reference durations} {call : TwCall F}

theorem push_spec {t : CivilTiming F} (found : t.civilCursor = some cursor)
    (valid : dom.actionDurations.find? call.name = (durations call.name).map Duration.text) (i : Nat) :
    (t.push dom (call, i)).civilCursor = some (cursorAfter cursor (durations call.name)) ∧
      (t.push dom (call, i)).timing.current = t.timing.current + parsedMs cursor (durations call.name) := by
  unfold CivilTiming.push
  dsimp only
  rw [valid]
  cases durations call.name with
  | none => exact ⟨found, rfl⟩
  | some D =>
    dsimp only [Option.map_some]
    rw [found, civilParsed_text]
    exact ⟨rfl, rfl⟩

variable {i : Nat} {start : Date}

theorem timingBefore_succ (here : plan[i]? = some call) :
    timingBefore dom plan reference (i + 1) = (timingBefore dom plan reference i).push dom (call, i) := by
  have indexed : plan.zipIdx[i]? = some (call, i) := by simp [here]
  unfold timingBefore
  rw [List.take_add_one, indexed, List.foldl_append]
  rfl

theorem elapsed_succ (durations : String → Option Duration) (here : plan[i]? = some call)
    (found : (timingBefore dom plan reference i).civilCursor = some cursor) :
    elapsed dom plan reference durations (i + 1) =
      elapsed dom plan reference durations i + stepMs cursor (durations call.name) := by
  rw [elapsed, found, here]

omit [CxxMath F] in
theorem fixedBefore_succ (durations : String → Option Duration) (here : plan[i]? = some call) :
    fixedBefore plan durations (i + 1) = fixedBefore plan durations i + stepFixedMs (durations call.name) := by
  unfold fixedBefore
  rw [List.take_add_one, here]
  simp

theorem forward_succ (durations : String → Option Duration) (here : plan[i]? = some call)
    (found : (timingBefore dom plan reference i).civilCursor = some cursor) :
    Forward dom plan reference durations (i + 1) ↔
      Forward dom plan reference durations i ∧ ¬StepGoesBack cursor (durations call.name) := by
  constructor
  · intro forward
    exact ⟨fun j less => forward j (Nat.lt_succ_of_lt less), forward i (Nat.lt_succ_self i) call cursor here found⟩
  · rintro ⟨forward, last⟩ j less other moved at_ stands
    rcases Nat.lt_succ_iff_lt_or_eq.mp less with less | rfl
    · exact forward j less other moved at_ stands
    · rw [here] at at_
      rw [found] at stands
      cases at_
      cases stands
      exact last

/-- Where the loop stands when it comes to step `i`. While no step goes back, the days the cursor has moved and the fixed
    milliseconds make up the time; a step that goes back loses a day for good. -/
structure Standing (dom : TwDomain F) (plan : List (TwCall F)) (reference : String)
    (durations : String → Option Duration) (start : Date) (i : Nat) (cursor : YearMonthDay) (e : Date) : Prop where
  found : (timingBefore dom plan reference i).civilCursor = some cursor
  is : cursor.Is e
  nonneg : 0 ≤ elapsed dom plan reference durations i
  forward : Forward dom plan reference durations i → cursor.ok = true ∧ start.number ≤ e.number ∧
    elapsed dom plan reference durations i = 86400000 * (e.number - start.number) + fixedBefore plan durations i
  backward : ¬Forward dom plan reference durations i →
    86400000 * (e.number - start.number) + 86400000 ≤ elapsed dom plan reference durations i
  current : elapsed dom plan reference durations i < 2 ^ 63 →
    (timingBefore dom plan reference i).timing.current.toInt = elapsed dom plan reference durations i

theorem Standing.time {e : Date} (stands : Standing dom plan reference durations start i cursor e) :
    86400000 * (e.number - start.number) ≤ elapsed dom plan reference durations i := by
  by_cases forward : Forward dom plan reference durations i
  · have sum := (stands.forward forward).2.2
    omega
  · have sum := stands.backward forward
    omega

theorem standing_zero (parsed : twParseDate reference = some cursor) (is : cursor.Is start) (valid : cursor.ok = true) :
    Standing dom plan reference durations start 0 cursor start := by
  have origin : (if twParseDurationMs "PT0S" < 0 then 0 else twParseDurationMs "PT0S") = 0 := by decide +kernel
  have named : reference ≠ "" := by
    rintro rfl
    cases parsed
  have begun : timingBefore dom plan reference 0 = civilStart "PT0S" reference := rfl
  have found : (timingBefore dom plan reference 0).civilCursor = some cursor := by
    rw [begun, ← parsed]
    exact if_neg named
  have current : (timingBefore dom plan reference 0).timing.current = 0 := origin
  refine ⟨found, is, Int.le_refl 0, fun _ => ⟨valid, Int.le_refl _, ?_⟩, fun back => absurd ?_ back, fun _ => ?_⟩
  · simp [elapsed, fixedBefore]
  · exact fun j less => absurd less (Nat.not_lt_zero j)
  · rw [current]
    rfl

theorem standing_succ {e : Date} (stands : Standing dom plan reference durations start i cursor e)
    (here : plan[i]? = some call)
    (valid : dom.actionDurations.find? call.name = (durations call.name).map Duration.text) :
    ∃ next f, Standing dom plan reference durations start (i + 1) next f := by
  have pushed := push_spec stands.found valid i
  rw [← timingBefore_succ here] at pushed
  have step := stepMs_nonneg cursor (durations call.name)
  have time := elapsed_succ durations here stands.found
  have fixed := fixedBefore_succ durations here
  have before := stands.nonneg
  have forwardIff := forward_succ durations here stands.found
  -- the code's own time, once the date behind the step is known
  have current : ∀ f, (cursorAfter cursor (durations call.name)).Is f →
      elapsed dom plan reference durations (i + 1) < 2 ^ 63 →
      (timingBefore dom plan reference (i + 1)).timing.current.toInt = elapsed dom plan reference durations (i + 1) := by
    intro f isF fits
    have current := stands.current (by omega)
    rw [pushed.2, toInt_add_parsedMs stands.is isF (by omega) (by omega), current, time]
  by_cases ok : cursor.ok = true
  · by_cases back : StepGoesBack cursor (durations call.name)
    · obtain ⟨f, isF, earlier⟩ := step_backward stands.is ok back
      have notForward : ¬Forward dom plan reference durations (i + 1) := fun forward => (forwardIff.mp forward).2 back
      have days := stands.time
      exact ⟨_, f, pushed.1, isF, by omega, fun forward => absurd forward notForward, fun _ => by omega, current f isF⟩
    · obtain ⟨f, isF, okF, later, sum⟩ := step_forward stands.is ok back
      refine ⟨_, f, pushed.1, isF, by omega, fun forward => ?_, fun notForward => ?_, current f isF⟩
      · have sumBefore := stands.forward (forwardIff.mp forward).1
        exact ⟨okF, by omega, by omega⟩
      · have sumBefore := stands.backward fun forward => notForward (forwardIff.mpr ⟨forward, back⟩)
        omega
  · have same : cursorAfter cursor (durations call.name) = cursor := cursorAfter_of_invalid ok
    have notForward : ¬Forward dom plan reference durations i := fun forward => ok (stands.forward forward).1
    have isSame := stands.is
    rw [← same] at isSame
    have sumBefore := stands.backward notForward
    refine ⟨_, e, pushed.1, isSame, by omega, fun forward => absurd (forwardIff.mp forward).1 notForward,
      fun _ => by omega, current e isSame⟩

theorem exists_standing (parsed : twParseDate reference = some cursor) (is : cursor.Is start) (ok : cursor.ok = true)
    (valid : ∀ call ∈ plan, dom.actionDurations.find? call.name = (durations call.name).map Duration.text)
    (within : i ≤ plan.length) : ∃ next e, Standing dom plan reference durations start i next e := by
  induction i with
  | zero => exact ⟨cursor, start, standing_zero parsed is ok⟩
  | succ i ih =>
    obtain ⟨next, e, stands⟩ := ih (Nat.le_of_succ_le within)
    have here : plan[i]? = some plan[i] := List.getElem?_eq_getElem within
    exact standing_succ stands here (valid _ (List.getElem_mem within))

theorem ok_of_twParseDate (parsed : twParseDate reference = some cursor) : cursor.ok = true := by
  unfold twParseDate at parsed
  split at parsed
  · split at parsed
    · dsimp only at parsed
      split at parsed
      · rename_i ok
        cases parsed
        exact ok
      · cases parsed
    · cases parsed
  · cases parsed

/-- When the loop comes to step `i`, the cursor is at the date that many whole days have passed since the reference date
    exactly if no step before it went back and their fixed units make up less than a day. -/
theorem timingBefore_cursor_iff (dom : TwDomain F) (plan : List (TwCall F)) (durations : String → Option Duration)
    (valid : ∀ call ∈ plan, dom.actionDurations.find? call.name = (durations call.name).map Duration.text)
    (reference : String) (cursor : YearMonthDay) (parsed : twParseDate reference = some cursor) (start : Date)
    (is : cursor.Is start) (i : Nat) (within : i < plan.length) :
    (elapsed dom plan reference durations i < 2 ^ 63 →
        (timingBefore dom plan reference i).timing.current.toInt = elapsed dom plan reference durations i) ∧
      ((∃ next, (timingBefore dom plan reference i).civilCursor = some next ∧
          next.Is (start.advance (elapsed dom plan reference durations i / 86400000).toNat)) ↔
        Forward dom plan reference durations i ∧ fixedBefore plan durations i < 86400000) := by
  obtain ⟨next, e, stands⟩ := exists_standing parsed is (ok_of_twParseDate parsed) valid (Nat.le_of_lt within)
  have nonneg := stands.nonneg
  refine ⟨stands.current, ?_⟩
  constructor
  · rintro ⟨found, at_, isAdvanced⟩
    rw [stands.found] at at_
    cases at_
    have days := Date.advance_eq_iff.mp (isAdvanced.unique stands.is)
    by_cases forward : Forward dom plan reference durations i
    · have sum := (stands.forward forward).2.2
      exact ⟨forward, by omega⟩
    · have sum := stands.backward forward
      omega
  · rintro ⟨forward, small⟩
    obtain ⟨-, later, sum⟩ := stands.forward forward
    refine ⟨next, stands.found, ?_⟩
    rw [Date.advance_eq_iff.mpr (show e.number = _ by omega)]
    exact stands.is

end Plans

/-! ### A month's notice -/

/-- An action of 31 days and one of a month. -/
def leaseDomain : TwDomain Int where
  actions := .empty
  taskMethods := .empty
  actionDurations := (OrderedMap.empty.set "notice" "P31D").set "lease" "P1M"

/-- The durations that the domain declares. -/
def leaseDurations (name : String) : Option Duration :=
  if name = "notice" then some (single ['3', '1'] (by simp) (by simp) .d)
  else if name = "lease" then some (single ['1'] (by simp) (by simp) .mo)
  else none

/-- A month from the last day of January is over at the end of February, and the next step starts there. -/
theorem timingBefore_cursor_lease :
    let plan : List (TwCall Int) := [⟨"lease", []⟩, ⟨"notice", []⟩]
    let start : Date := ⟨2024, 1, 31, by decide, by decide, by decide, by decide⟩
    ∃ next, (timingBefore leaseDomain plan "2024-01-31" 1).civilCursor = some next ∧
      next.Is (start.advance (elapsed leaseDomain plan "2024-01-31" leaseDurations 1 / 86400000).toNat) := by
  intro plan start
  have valid : ∀ call ∈ plan,
      leaseDomain.actionDurations.find? call.name = (leaseDurations call.name).map Duration.text := by
    intro call mem
    simp only [plan, List.mem_cons, List.not_mem_nil, or_false] at mem
    rcases mem with rfl | rfl
    · decide +kernel
    · decide +kernel
  have onTime := timingBefore_cursor_iff leaseDomain plan leaseDurations valid "2024-01-31" ⟨2024, 1, 31⟩
    (by decide +kernel) start ⟨rfl, rfl, rfl⟩ 1 (by decide)
  refine onTime.2.mpr ⟨?_, by decide +kernel⟩
  intro j less call cursor at_ stands
  obtain rfl : j = 0 := Nat.lt_one_iff.mp less
  have first : (timingBefore leaseDomain plan "2024-01-31" 0).civilCursor = some ⟨2024, 1, 31⟩ := by decide +kernel
  rw [first] at stands
  cases at_
  cases stands
  rintro ⟨D, mem, back⟩
  have lease : leaseDurations "lease" = some (single ['1'] (by simp) (by simp) .mo) := by
    rw [leaseDurations, if_neg (by decide), if_pos rfl]
  rw [lease] at mem
  cases mem
  exact absurd back (by decide +kernel)

/-- After 31 days of notice the month is still counted from the first of January: days are a fixed unit. -/
theorem timingBefore_cursor_notice :
    let plan : List (TwCall Int) := [⟨"notice", []⟩, ⟨"lease", []⟩]
    let start : Date := ⟨2024, 1, 1, by decide, by decide, by decide, by decide⟩
    (timingBefore leaseDomain plan "2024-01-01" 1).civilCursor = some ⟨2024, 1, 1⟩ ∧
      (timingBefore leaseDomain plan "2024-01-01" 1).timing.current = 2678400000 ∧
      ¬∃ next, (timingBefore leaseDomain plan "2024-01-01" 1).civilCursor = some next ∧
        next.Is (start.advance (elapsed leaseDomain plan "2024-01-01" leaseDurations 1 / 86400000).toNat) := by
  intro plan start
  have cursor : (timingBefore leaseDomain plan "2024-01-01" 1).civilCursor = some ⟨2024, 1, 1⟩ := by decide +kernel
  have month : (start.advance (elapsed leaseDomain plan "2024-01-01" leaseDurations 1 / 86400000).toNat).month = 2 := by
    decide +kernel
  refine ⟨cursor, by decide +kernel, ?_⟩
  rintro ⟨next, found, is⟩
  rw [cursor] at found
  cases found
  exact absurd (is.month.trans month) (by decide)

end Iso8601Duration
end WeftWarp
