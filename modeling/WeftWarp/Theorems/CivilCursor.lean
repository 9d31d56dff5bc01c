import WeftWarp.Theorems.CivilCalendar

/-! # The cursor of the civil reader

The cursor is moved as soon as a number of years or months is read, also in a text that is rejected further on. -/

namespace WeftWarp
namespace Iso8601Duration
open TwDuration Gregorian

variable {cursor : YearMonthDay} {p : Part} {ps : List Part}

/-- The cursor is moved to another year or another month. -/
def Part.Moves (p : Part) : Prop :=
  (p.unit = .y ∧ digitsValue p.number.whole % 2 ^ 16 ≠ 0) ∨
    (p.unit = .mo ∧ (Int64.ofNat (digitsValue p.number.whole)).toInt32.toInt % 12 ≠ 0)

theorem plusYears_eq_iff (year : Int16) (n : Nat) :
    YearMonthDay.plusYears year (Int64.ofNat n).toInt32 = year ↔ n % 2 ^ 16 = 0 := by
  have lower := year.le_toInt
  have upper := year.toInt_lt
  rw [← Int16.toInt_inj, YearMonthDay.plusYears_toInt, Int.bmod_def]
  omega

theorem plusMonths_eq_iff {month : Nat} (positive : 1 ≤ month) (within : month ≤ 12) (n : Int32) :
    YearMonthDay.plusMonths month n = month ↔ n.toInt % 12 = 0 := by
  rw [YearMonthDay.plusMonths_eq]
  omega

theorem moved_of_years (valid : cursor.ok = true) (years : p.unit = .y) :
    p.moved cursor = YearMonthDay.clamp { cursor with
      year := YearMonthDay.plusYears cursor.year (Int64.ofNat (digitsValue p.number.whole)).toInt32 } := by
  unfold Part.moved
  rw [if_pos ⟨.inl years, valid⟩, years]
  rfl

theorem moved_of_months (valid : cursor.ok = true) (months : p.unit = .mo) :
    p.moved cursor = YearMonthDay.clamp { cursor with
      month := YearMonthDay.plusMonths cursor.month (Int64.ofNat (digitsValue p.number.whole)).toInt32 } := by
  unfold Part.moved
  rw [if_pos ⟨.inr months, valid⟩, months]
  rfl

theorem moved_of_not (notYears : p.unit ≠ .y) (notMonths : p.unit ≠ .mo) : p.moved cursor = cursor :=
  if_neg fun calendar => calendar.1.elim notYears notMonths

theorem moved_eq_iff (valid : cursor.ok = true) : p.moved cursor = cursor ↔ ¬p.Moves := by
  obtain ⟨-, d, is⟩ := YearMonthDay.ok_iff.mp valid
  by_cases years : p.unit = .y
  · have moves : p.Moves ↔ digitsValue p.number.whole % 2 ^ 16 ≠ 0 := by simp [Part.Moves, years]
    rw [moves, moved_of_years valid years, not_not, ← plusYears_eq_iff cursor.year]
    constructor
    · intro same
      have sameYear := congrArg YearMonthDay.year same
      rwa [YearMonthDay.clamp_year] at sameYear
    · intro sameYear
      rw [sameYear]
      exact YearMonthDay.clamp_of_ok valid
  by_cases months : p.unit = .mo
  · have moves : p.Moves ↔ (Int64.ofNat (digitsValue p.number.whole)).toInt32.toInt % 12 ≠ 0 := by
      simp [Part.Moves, months]
    rw [moves, moved_of_months valid months, not_not,
      ← plusMonths_eq_iff (is.month ▸ d.month_pos : 1 ≤ cursor.month) (is.month ▸ d.month_le)]
    constructor
    · intro same
      have sameMonth := congrArg YearMonthDay.month same
      rwa [YearMonthDay.clamp_month] at sameMonth
    · intro sameMonth
      rw [sameMonth]
      exact YearMonthDay.clamp_of_ok valid
  · have still : ¬p.Moves := by simp [Part.Moves, years, months]
    exact iff_of_true (moved_of_not years months) still

theorem moved_year (notYears : p.unit ≠ .y) : (p.moved cursor).year = cursor.year := by
  unfold Part.moved
  split
  · rename_i calendar
    have months : p.unit = .mo := calendar.1.resolve_left notYears
    rw [months]
    exact YearMonthDay.clamp_year _
  · rfl

theorem movedBy_year (notYears : ∀ p ∈ ps, p.unit ≠ .y) : (movedBy cursor ps).year = cursor.year := by
  induction ps generalizing cursor with
  | nil => rfl
  | cons p ps ih =>
    have rest := @ih (p.moved cursor) fun q mem => notYears q (List.mem_cons_of_mem p mem)
    exact rest.trans (moved_year (notYears p List.mem_cons_self))

theorem movedBy_of_not (still : ∀ p ∈ ps, p.unit ≠ .y ∧ p.unit ≠ .mo) : movedBy cursor ps = cursor := by
  induction ps with
  | nil => rfl
  | cons p ps ih =>
    obtain ⟨notYears, notMonths⟩ := still p List.mem_cons_self
    have rest := ih fun q mem => still q (List.mem_cons_of_mem p mem)
    unfold movedBy at rest ⊢
    rw [List.foldl_cons, moved_of_not notYears notMonths]
    exact rest

theorem not_years_of_later {u v : DurationUnit} (later : unitRank u < unitRank v) : v ≠ .y := by
  rintro rfl
  exact absurd later (Int.not_lt.mpr (unitRank_nonneg u))

theorem not_months_of_later {u v : DurationUnit} (notYears : u ≠ .y) (later : unitRank u < unitRank v) : v ≠ .mo := by
  rintro rfl
  cases u <;> first | exact notYears rfl | exact absurd later (by decide)

/-- The parts of a duration leave the cursor where it is only if none of them moves it. -/
theorem movedBy_eq_iff (valid : cursor.ok = true)
    (ordered : ps.Pairwise fun p q => unitRank p.unit < unitRank q.unit) :
    movedBy cursor ps = cursor ↔ ∀ p ∈ ps, ¬p.Moves := by
  induction ps with
  | nil => simp [movedBy]
  | cons p ps ih =>
    obtain ⟨later, ordered⟩ := List.pairwise_cons.mp ordered
    by_cases moves : p.Moves
    · have notAll : ¬∀ q ∈ p :: ps, ¬q.Moves := fun none => none p List.mem_cons_self moves
      refine iff_of_false (fun same => ?_) notAll
      have movedAway : p.moved cursor ≠ cursor := fun still => (moved_eq_iff valid).mp still moves
      rcases moves with ⟨years, notZero⟩ | ⟨months, -⟩
      · have rest : ∀ q ∈ ps, q.unit ≠ .y := fun q mem => not_years_of_later (later q mem)
        have kept : (movedBy cursor (p :: ps)).year = (p.moved cursor).year := movedBy_year rest
        rw [same, moved_of_years valid years, YearMonthDay.clamp_year] at kept
        exact notZero ((plusYears_eq_iff cursor.year _).mp kept.symm)
      · have notYears : p.unit ≠ .y := by rw [months]; decide
        have rest : ∀ q ∈ ps, q.unit ≠ .y ∧ q.unit ≠ .mo := fun q mem =>
          ⟨not_years_of_later (later q mem), not_months_of_later notYears (later q mem)⟩
        exact movedAway ((movedBy_of_not rest).symm.trans same)
    · have still : p.moved cursor = cursor := (moved_eq_iff valid).mpr moves
      have step : movedBy cursor (p :: ps) = movedBy cursor ps := by
        rw [movedBy, List.foldl_cons, still]
        rfl
      rw [step, ih ordered]
      simp [moves]

/-! ## Rejected texts -/

theorem stopped_civil {kept left : Civil} {closed : Bool} {text : List Char}
    (stopped : Stopped civil kept closed text left) : left = kept := by
  cases stopped with
  | before => rfl
  | number frac => cases frac <;> rfl

theorem cursor_of_rejected {s : String} (rejected : (civil.run ⟨0, cursor⟩ s).1 = false) :
    (twCivilDurationMs s cursor).2 = (civil.run ⟨0, cursor⟩ s).2.cursor := by
  unfold twCivilDurationMs
  split
  · rename_i ran
    rw [ran] at rejected
    cases rejected
  · rename_i ran
    rw [ran]

/-- A rejected text leaves the cursor where it is exactly if no duration at its head moves it. -/
theorem twCivilDurationMs_rejected_iff (s : String) (cursor : YearMonthDay) (valid : cursor.ok = true)
    (rejected : (civil.run ⟨0, cursor⟩ s).1 = false) :
    (twCivilDurationMs s cursor).2 = cursor ↔
      ∀ d : Duration, d.text.toList <+: s.toList → ∀ p ∈ d.parts, ¬p.Moves := by
  have none : ∀ d : Duration, d.text ≠ s := by
    intro d same
    have accepted := (run_eq_true civil ⟨0, cursor⟩).mpr ⟨d, same⟩
    rw [rejected] at accepted
    cases accepted
  rw [cursor_of_rejected rejected]
  obtain ⟨-, ⟨noP, same⟩ | ⟨text, ps, last, rest, rfl, reads, stopped⟩⟩ := run_of_rejected civil ⟨0, cursor⟩ none
  · -- no duration stands at the head of a text without a `P`
    rw [same]
    refine iff_of_true rfl fun d ⟨tail, whole⟩ => absurd ?_ noP
    rw [← whole, toList_text]
    rfl
  constructor
  · rintro unchanged d ⟨tail, whole⟩ p mem
    rw [toList_text, String.toList_ofList, List.cons_append] at whole
    obtain rfl := (List.cons.inj whole).2
    obtain ⟨qs, last, rest, reads, ⟨-, ran⟩ | ⟨-, stopped⟩⟩ :=
      run_behind civil ⟨0, cursor⟩ (reads_textFrom d.follows tail)
    · rw [ran] at rejected
      cases rejected
    · rw [stopped_civil stopped, foldl_civil] at unchanged
      exact (movedBy_eq_iff valid reads.follows.ordered).mp unchanged p (List.mem_append_left qs mem)
  · intro still
    obtain ⟨d, rfl⟩ := exists_of_follows reads.follows
    rw [stopped_civil stopped, foldl_civil]
    exact (movedBy_eq_iff valid reads.follows.ordered).mpr (still d (head_of_reads reads))

/-- The first part of a duration behind a `T` is one of the time, and so are the others. -/
theorem not_moves_of_time {d : Duration} {text : List Char} (head : d.text.toList <+: 'P' :: 'T' :: text) :
    ∀ p ∈ d.parts, ¬p.Moves := by
  rw [toList_text] at head
  have behind := (List.cons_prefix_cons.mp head).2
  have ordered := d.ordered
  cases parts : d.parts with
  | nil => exact fun p mem => nomatch mem
  | cons p ps =>
    rw [parts] at behind ordered
    have time : p.unit.isTime = true := by
      by_contra date
      rw [Bool.not_eq_true] at date
      obtain ⟨c, digits, whole⟩ := List.exists_cons_of_ne_nil p.number.whole_ne
      have digit := p.number.whole_digits c (by rw [whole]; exact List.mem_cons_self)
      simp only [textFrom, date, Part.text, Numeral.text, whole, Bool.not_false, Bool.and_false, Bool.false_eq_true,
        if_false, List.nil_append, List.cons_append] at behind
      rw [(List.cons_prefix_cons.mp behind).1] at digit
      exact absurd digit (by decide)
    have first : p.unit ≠ .y ∧ p.unit ≠ .mo := by constructor <;> intro same <;> rw [same] at time <;> cases time
    intro q mem moves
    rcases List.mem_cons.mp mem with rfl | mem
    · exact moves.elim (fun years => first.1 years.1) fun months => first.2 months.1
    · have later := (List.pairwise_cons.mp ordered).1 q mem
      exact moves.elim (fun years => not_years_of_later later years.1)
        fun months => not_months_of_later first.1 later months.1

/-- An hour is read before the letter behind it is seen, and leaves the cursor where it is. -/
theorem twCivilDurationMs_rejected_hour :
    (civil.run ⟨0, ⟨2024, 2, 29⟩⟩ "PT1HX").1 = false ∧ (twCivilDurationMs "PT1HX" ⟨2024, 2, 29⟩).2 = ⟨2024, 2, 29⟩ := by
  have rejected : (civil.run ⟨0, ⟨2024, 2, 29⟩⟩ "PT1HX").1 = false := by decide +kernel
  exact ⟨rejected, (twCivilDurationMs_rejected_iff "PT1HX" ⟨2024, 2, 29⟩ (by decide) rejected).mpr
    fun _ head => not_moves_of_time head⟩

/-- The year is added before the letter behind it is seen. -/
theorem twCivilDurationMs_rejected_year :
    (civil.run ⟨0, ⟨2024, 1, 1⟩⟩ "P1YX").1 = false ∧ twCivilDurationMs "P1YX" ⟨2024, 1, 1⟩ = (-1, ⟨2025, 1, 1⟩) := by
  decide +kernel

/-! ## Agreement with `tw_parse_duration_ms` -/

/-- What `tw_parse_duration_ms` returns at the end of the text; `none` is one of its `return -1`. -/
def twParseDurationMsReturned (dur : String) : Option Int64 :=
  match dur.toList with
  | ['P'] => some 0
  | 'P' :: rest => loop rest.length {} rest
  | _ => none

theorem twParseDurationMs_returned (dur : String) :
    twParseDurationMs dur = (twParseDurationMsReturned dur).getD (-1) := by
  unfold twParseDurationMs twParseDurationMsReturned
  generalize dur.toList = text
  rcases text with _ | ⟨c, rest⟩
  · rfl
  · by_cases starts : c = 'P'
    · subst starts
      cases rest <;> rfl
    · simp [starts]

theorem returned_fixed (dur : String) :
    twParseDurationMsReturned dur = if (fixed.run 0 dur).1 then some (fixed.run 0 dur).2 else none := by
  unfold twParseDurationMsReturned Reader.run
  generalize dur.toList = text
  rcases text with _ | ⟨c, rest⟩
  · rfl
  · by_cases starts : c = 'P'
    · subst starts
      cases rest with
      | nil => rfl
      | cons c rest => exact loop_fixed {} (c :: rest).length 0 (c :: rest)
    · simp [starts]

theorem returned_eq_none (dur : String) : twParseDurationMsReturned dur = none ↔ ∀ d : Duration, d.text ≠ dur := by
  have accepted := run_eq_true fixed 0 (s := dur)
  rw [returned_fixed]
  cases ran : (fixed.run 0 dur).1 <;> simp_all

/-- Neither a `Y` nor an `M` stands before the first `T`. -/
def NoCalendarUnit (text : List Char) : Prop := ∀ c ∈ text.takeWhile (· ≠ 'T'), c ≠ 'Y' ∧ c ≠ 'M'

instance (text : List Char) : Decidable (NoCalendarUnit text) := List.decidableBAll _ _

theorem Part.text_ne_T (p : Part) : ∀ c ∈ p.text, c ≠ 'T' := by
  have digit : ∀ c : Char, c.isDigit → c ≠ 'T' := by
    rintro c isDigit rfl
    exact absurd isDigit (by decide)
  have letter : p.unit.letter ≠ 'T' := by cases p.unit <;> decide
  intro c mem
  rcases List.mem_append.mp mem with inNumber | isLetter
  · rcases List.mem_append.mp inNumber with inWhole | inFrac
    · exact digit c (p.number.whole_digits c inWhole)
    · split at inFrac
      · cases inFrac
      · rcases List.mem_cons.mp inFrac with rfl | inDigits
        · decide
        · exact digit c (p.number.frac_digits c inDigits)
  · exact List.mem_singleton.mp isLetter ▸ letter

theorem noCalendarUnit_text {p : Part} {text : List Char} :
    NoCalendarUnit (p.text ++ text) ↔ (∀ c ∈ p.text, c ≠ 'Y' ∧ c ≠ 'M') ∧ NoCalendarUnit text := by
  have through : (p.text ++ text).takeWhile (· ≠ 'T') = p.text ++ text.takeWhile (· ≠ 'T') :=
    List.takeWhile_append_of_pos fun c mem => decide_eq_true (p.text_ne_T c mem)
  unfold NoCalendarUnit
  rw [through, List.forall_mem_append]

theorem Reads.not_calendar {place last : Place} {text rest : List Char} (reads : Reads place text ps last rest)
    (plain : place.inTime = false → NoCalendarUnit text) : ∀ p ∈ ps, p.unit ≠ .y ∧ p.unit ≠ .mo := by
  induction reads with
  | done => exact List.forall_mem_nil _
  | @part place last p ps text rest allows side _ ih =>
    cases time : place.inTime with
    | true =>
      -- behind the `T` all units are units of the time
      rw [time] at side
      have here : p.unit ≠ .y ∧ p.unit ≠ .mo := by
        constructor <;> intro date <;> simp [date, DurationUnit.isTime] at side
      exact List.forall_mem_cons.mpr ⟨here, ih fun date => by simp [Place.after, time] at date⟩
    | false =>
      obtain ⟨letters, plainRest⟩ := noCalendarUnit_text.mp (plain time)
      have letter := letters p.unit.letter (List.mem_append_right _ List.mem_cons_self)
      have here : p.unit ≠ .y ∧ p.unit ≠ .mo := by
        constructor <;> intro date <;> simp [date, DurationUnit.letter] at letter
      exact List.forall_mem_cons.mpr ⟨here, ih fun _ => plainRest⟩
  | time _ _ _ _ ih => exact ih fun date => Bool.noConfusion date

theorem civilMs_of_not (still : ∀ p ∈ ps, p.unit ≠ .y ∧ p.unit ≠ .mo) :
    civilMs cursor ps = (ps.map Part.milliseconds).sum := by
  induction ps with
  | nil => rfl
  | cons p ps ih =>
    obtain ⟨⟨notYears, notMonths⟩, rest⟩ := List.forall_mem_cons.mp still
    have part : p.civilMs cursor = p.milliseconds := if_neg fun calendar => calendar.1.elim notYears notMonths
    rw [civilMs, moved_of_not notYears notMonths, part, ih rest, List.map_cons, List.sum_cons, Int.natCast_add]

theorem civil_run_eq_false (dur : String) :
    (civil.run ⟨0, cursor⟩ dur).1 = false ↔ ∀ d : Duration, d.text ≠ dur := by
  have accepted := run_eq_true civil ⟨0, cursor⟩ (s := dur)
  cases ran : (civil.run ⟨0, cursor⟩ dur).1 <;> simp_all

theorem agrees_of_text (d : Duration) (plain : NoCalendarUnit d.text.toList) :
    twCivilDurationMs d.text cursor = (twParseDurationMs d.text, cursor) := by
  rw [toList_text] at plain
  have reads := reads_textFrom d.follows []
  rw [List.append_nil] at reads
  have still := reads.not_calendar fun _ c mem => plain c (List.mem_cons_of_mem 'P' mem)
  rw [twCivilDurationMs_text, twParseDurationMs_text, movedBy_of_not still, civilMs_of_not still,
    Int64.ofInt_eq_ofNat]
  rfl

theorem agrees_of_rejected {dur : String} (rejected : ∀ d : Duration, d.text ≠ dur) (plain : NoCalendarUnit dur.toList) :
    twCivilDurationMs dur cursor = (twParseDurationMs dur, cursor) := by
  have fixedStops : twParseDurationMs dur = -1 := by
    rw [twParseDurationMs_returned, (returned_eq_none dur).mpr rejected]
    rfl
  have civilStops : (twCivilDurationMs dur cursor).1 = -1 := by
    have stops := (@civil_run_eq_false cursor dur).mpr rejected
    unfold twCivilDurationMs
    split
    · rename_i ran
      rw [ran] at stops
      cases stops
    · rfl
  have still : (twCivilDurationMs dur cursor).2 = cursor := by
    rw [cursor_of_rejected ((civil_run_eq_false dur).mpr rejected)]
    obtain ⟨-, ⟨-, same⟩ | ⟨text, ps, last, rest, rfl, reads, stopped⟩⟩ := run_of_rejected civil ⟨0, cursor⟩ rejected
    · rw [same]
    · rw [String.toList_ofList] at plain
      rw [stopped_civil stopped, foldl_civil]
      exact movedBy_of_not (reads.not_calendar fun _ c mem => plain c (List.mem_cons_of_mem 'P' mem))
  exact Prod.ext (civilStops.trans fixedStops.symm) still

/-- Both readers stop at the same texts, and without years and months they read the same. -/
theorem twCivilDurationMs_agrees (dur : String) (cursor : YearMonthDay) :
    ((civil.run ⟨0, cursor⟩ dur).1 = false ↔ twParseDurationMsReturned dur = none) ∧
      (NoCalendarUnit dur.toList → twCivilDurationMs dur cursor = (twParseDurationMs dur, cursor)) := by
  refine ⟨(civil_run_eq_false dur).trans (returned_eq_none dur).symm, fun plain => ?_⟩
  by_cases accepted : ∃ d : Duration, d.text = dur
  · obtain ⟨d, rfl⟩ := accepted
    exact agrees_of_text d plain
  · exact agrees_of_rejected (fun d same => accepted ⟨d, same⟩) plain

/-- Minutes are read like that, and a text that ends behind its `T` is rejected by both. -/
theorem twCivilDurationMs_agrees_minutes :
    twCivilDurationMs "P2DT5M" ⟨2024, 2, 29⟩ = (twParseDurationMs "P2DT5M", ⟨2024, 2, 29⟩) ∧
      twCivilDurationMs "P2DT" ⟨2024, 2, 29⟩ = (twParseDurationMs "P2DT", ⟨2024, 2, 29⟩) :=
  ⟨(twCivilDurationMs_agrees "P2DT5M" ⟨2024, 2, 29⟩).2 (by decide +kernel),
    (twCivilDurationMs_agrees "P2DT" ⟨2024, 2, 29⟩).2 (by decide +kernel)⟩

end Iso8601Duration
end WeftWarp
