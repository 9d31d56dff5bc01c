import Mathlib.Algebra.Ring.Nat
import Mathlib.Data.List.TakeWhile
import WeftWarp.Duration

/-! # The grammar of durations

The texts `P[nY][nM][nD][T[nH][nM][nS]]` and `PnW`, with a fraction of any length on the last number, and what they
denote. `Follows` reads the same texts from left to right. -/

namespace WeftWarp
namespace Iso8601Duration

/-- The letter of a unit. -/
def DurationUnit.letter : DurationUnit → Char
  | .y => 'Y'
  | .mo => 'M'
  | .w => 'W'
  | .d => 'D'
  | .h => 'H'
  | .mi => 'M'
  | .s => 'S'

/-- The unit stands behind the `T`. -/
def DurationUnit.isTime : DurationUnit → Bool
  | .h | .mi | .s => true
  | _ => false

/-- The value of decimal digits. -/
def digitsValue (digits : List Char) : Nat :=
  digits.foldl (fun value c => value * 10 + digitValue c) 0

/-- A decimal number as it is written; without a fraction `frac` is empty. -/
structure Numeral where
  whole : List Char
  frac : List Char
  whole_ne : whole ≠ []
  whole_digits : ∀ c ∈ whole, c.isDigit
  frac_digits : ∀ c ∈ frac, c.isDigit

/-- The numeral as it is written. -/
def Numeral.text (n : Numeral) : List Char :=
  n.whole ++ if n.frac.isEmpty then [] else '.' :: n.frac

/-- The thousandths of a number, cut after the third digit. -/
def Numeral.milli (n : Numeral) : Nat :=
  digitsValue (n.frac.take 3) * 10 ^ (3 - (n.frac.take 3).length)

/-- A number and its unit. -/
structure Part where
  number : Numeral
  unit : DurationUnit

/-- The part as it is written. -/
def Part.text (p : Part) : List Char :=
  p.number.text ++ [p.unit.letter]

/-- The milliseconds of a part. -/
def Part.milliseconds (p : Part) : Nat :=
  digitsValue p.number.whole * unitMilliseconds p.unit + p.number.milli * (unitMilliseconds p.unit / 1000)

/-- Parts in the order of their units, weeks on their own, a fraction at the end. -/
structure Duration where
  parts : List Part
  ordered : parts.Pairwise fun p q => unitRank p.unit < unitRank q.unit
  weekAlone : ∀ p ∈ parts, p.unit = .w → parts = [p]
  fractionLast : ∀ p ∈ parts.dropLast, p.number.frac = []

/-- The parts in front of the `T`. -/
def Duration.datePart (d : Duration) : List Char :=
  (d.parts.filter fun p => !p.unit.isTime).flatMap Part.text

/-- The parts behind the `T`. -/
def Duration.timePart (d : Duration) : List Char :=
  (d.parts.filter fun p => p.unit.isTime).flatMap Part.text

/-- The duration as it is written. -/
def Duration.text (d : Duration) : String :=
  String.ofList ('P' :: (d.datePart ++ if d.timePart.isEmpty then [] else 'T' :: d.timePart))

/-- The milliseconds of a duration. -/
def Duration.milliseconds (d : Duration) : Nat :=
  (d.parts.map Part.milliseconds).sum

/-- No number has more than three digits in its fraction. -/
def Duration.ToMilliseconds (d : Duration) : Prop :=
  ∀ p ∈ d.parts, p.number.frac.length ≤ 3

/-! ## Reading from left to right -/

/-- What a reader has to know between two parts. -/
structure Place where
  inTime : Bool := false
  last : Int := -1
  closed : Bool := false

/-- The part may come next. -/
structure Place.Allows (place : Place) (p : Part) : Prop where
  isOpen : place.closed = false
  side : place.inTime = true → p.unit.isTime = true
  later : place.last < unitRank p.unit
  weekFirst : p.unit = .w → place.last = -1

/-- The place behind a part. -/
def Place.after (place : Place) (p : Part) : Place :=
  ⟨place.inTime || p.unit.isTime, unitRank p.unit, !p.number.frac.isEmpty⟩

/-- The parts may come one after the other. -/
inductive Follows : Place → List Part → Prop
  | nil (place : Place) : Follows place []
  | cons {place : Place} {p : Part} {ps : List Part} :
    place.Allows p → Follows (place.after p) ps → Follows place (p :: ps)

/-- The text of the parts that are still to come; the `T` stands before the first part of the time. -/
def textFrom (inTime : Bool) : List Part → List Char
  | [] => []
  | p :: ps =>
    (if !inTime && p.unit.isTime then ['T'] else []) ++ (p.text ++ textFrom (inTime || p.unit.isTime) ps)

theorem unitRank_nonneg (u : DurationUnit) : 0 ≤ unitRank u := by
  cases u <;> decide

theorem unitRank_le (u : DurationUnit) : unitRank u ≤ 99 := by
  cases u <;> decide

variable {u : DurationUnit} {place : Place} {ps : List Part} {p : Part} {rest digits : List Char}

theorem isTime_of_later {v : DurationUnit} (later : unitRank u < unitRank v) (time : u.isTime = true)
    (notWeek : v ≠ .w) : v.isTime = true := by
  revert later time notWeek
  cases u <;> cases v <;> decide

theorem Follows.later (follows : Follows place ps) : ∀ p ∈ ps, place.last < unitRank p.unit := by
  induction follows with
  | nil place => simp
  | cons allows _ ih =>
    intro q mem
    rcases List.mem_cons.mp mem with rfl | mem
    · exact allows.later
    · exact Int.lt_trans allows.later (ih q mem)

theorem Follows.week (follows : Follows place ps) : ∀ p ∈ ps, p.unit = .w → place.last = -1 ∧ ps = [p] := by
  induction follows with
  | nil place => simp
  | @cons place p ps allows follows ih =>
    intro q mem week
    rcases List.mem_cons.mp mem with rfl | mem
    · refine ⟨allows.weekFirst week, ?_⟩
      cases ps with
      | nil => rfl
      | cons r ps =>
        -- no rank lies above the one of the weeks
        have later : unitRank q.unit < unitRank r.unit := follows.later r (by simp)
        rw [week] at later
        exact absurd later (Int.not_lt.mpr (unitRank_le r.unit))
    · have first : unitRank p.unit = -1 := (ih q mem week).1
      have nonneg := unitRank_nonneg p.unit
      omega

theorem Follows.ordered (follows : Follows place ps) : ps.Pairwise fun p q => unitRank p.unit < unitRank q.unit := by
  induction follows with
  | nil place => exact .nil
  | cons _ follows ih => exact .cons follows.later ih

theorem Follows.fractionLast (follows : Follows place ps) : ∀ p ∈ ps.dropLast, p.number.frac = [] := by
  induction follows with
  | nil place => simp
  | @cons place p ps allows follows ih =>
    cases follows with
    | nil => simp
    | @cons _ q ps allowsNext follows =>
      intro r mem
      rcases List.mem_cons.mp mem with rfl | mem
      · have next := allowsNext.isOpen
        simpa [Place.after] using next
      · exact ih r mem

theorem exists_of_follows (follows : Follows {} ps) : ∃ d : Duration, d.parts = ps :=
  ⟨⟨ps, follows.ordered, fun p mem week => (follows.week p mem week).2, follows.fractionLast⟩, rfl⟩

/-- The parts of a duration may follow wherever the first of them may. -/
theorem follows_of_ordered (ordered : ps.Pairwise fun p q => unitRank p.unit < unitRank q.unit)
    (weekAlone : ∀ p ∈ ps, p.unit = .w → ps = [p]) (fractionLast : ∀ p ∈ ps.dropLast, p.number.frac = [])
    (first : ∀ p ∈ ps.head?, place.Allows p) : Follows place ps := by
  induction ps generalizing place with
  | nil => exact .nil place
  | cons p ps ih =>
    obtain ⟨later, ordered⟩ := List.pairwise_cons.mp ordered
    have notWeek : ∀ q ∈ ps, q.unit ≠ .w := by
      intro q mem week
      have alone := weekAlone q (List.mem_cons_of_mem p mem) week
      simp only [List.cons.injEq] at alone
      rw [alone.2] at mem
      exact absurd mem List.not_mem_nil
    refine .cons (first p rfl) (ih ordered (fun q mem week => absurd week (notWeek q mem)) ?_ ?_)
    · intro q mem
      cases ps with
      | nil => exact absurd mem List.not_mem_nil
      | cons r ps => exact fractionLast q (List.mem_cons_of_mem p mem)
    · intro q head
      have mem : q ∈ ps := List.mem_of_mem_head? head
      have laterQ := later q mem
      refine ⟨?_, ?_, laterQ, fun week => absurd week (notWeek q mem)⟩
      · have noFraction : p.number.frac = [] := by
          cases ps with
          | nil => exact absurd mem List.not_mem_nil
          | cons r ps => exact fractionLast p List.mem_cons_self
        simp [Place.after, noFraction]
      · intro side
        rcases Bool.or_eq_true_iff.mp side with side | side
        · exact isTime_of_later laterQ ((first p rfl).side side) (notWeek q mem)
        · exact isTime_of_later laterQ side (notWeek q mem)

theorem Duration.follows (d : Duration) : Follows {} d.parts := by
  refine follows_of_ordered d.ordered d.weekAlone d.fractionLast fun p _ => ⟨rfl, by simp, ?_, fun _ => rfl⟩
  exact Int.lt_of_lt_of_le (by decide) (unitRank_nonneg p.unit)

theorem Follows.time (follows : Follows place ps) (inTime : place.inTime = true) :
    ∀ p ∈ ps, p.unit.isTime = true := by
  induction follows with
  | nil place => simp
  | cons allows _ ih =>
    intro q mem
    rcases List.mem_cons.mp mem with rfl | mem
    · exact allows.side inTime
    · exact ih (by simp [Place.after, inTime]) q mem

theorem textFrom_time (time : ∀ p ∈ ps, p.unit.isTime = true) : textFrom true ps = ps.flatMap Part.text := by
  induction ps with
  | nil => rfl
  | cons p ps ih =>
    have rest := ih fun q mem => time q (List.mem_cons_of_mem p mem)
    simp [textFrom, rest]

theorem Part.text_ne (p : Part) : p.text ≠ [] := by
  simp [Part.text]

theorem textFrom_date (follows : Follows place ps) (date : place.inTime = false) :
    textFrom false ps = (ps.filter fun p => !p.unit.isTime).flatMap Part.text ++
      (if ((ps.filter fun p => p.unit.isTime).flatMap Part.text).isEmpty then []
        else 'T' :: (ps.filter fun p => p.unit.isTime).flatMap Part.text) := by
  induction follows with
  | nil place => simp [textFrom]
  | @cons place p ps allows follows ih =>
    rcases Bool.eq_false_or_eq_true p.unit.isTime with time | notTime
    · have rest : ∀ q ∈ ps, q.unit.isTime = true := follows.time (by simp [Place.after, time])
      have noDate : (ps.filter fun q => !q.unit.isTime) = [] := by
        rw [List.filter_eq_nil_iff]
        intro q mem
        simp [rest q mem]
      have allTime : (ps.filter fun q => q.unit.isTime) = ps := List.filter_eq_self.mpr rest
      simp [textFrom, time, noDate, allTime, textFrom_time rest, p.text_ne]
    · have later := ih (by simp [Place.after, date, notTime])
      simp [textFrom, notTime, later]

theorem Duration.text_eq (d : Duration) : d.text = String.ofList ('P' :: textFrom false d.parts) := by
  rw [textFrom_date d.follows rfl]
  rfl

theorem Place.after_T (time : p.unit.isTime = true) :
    Place.after { place with inTime := true } p = place.after p := by
  simp [Place.after, time]

theorem Place.Allows.afterT (allows : place.Allows p) (time : p.unit.isTime = true) :
    Place.Allows { place with inTime := true } p :=
  ⟨allows.isOpen, fun _ => time, allows.later, allows.weekFirst⟩

/-- A part stands on the side reached before it, or the `T` stands between. -/
theorem textFrom_cons (allows : place.Allows p) (ps : List Part) :
    (p.unit.isTime = place.inTime ∧
        textFrom place.inTime (p :: ps) = p.text ++ textFrom (place.after p).inTime ps) ∨
      (place.inTime = false ∧ p.unit.isTime = true ∧
        textFrom place.inTime (p :: ps) = 'T' :: (p.text ++ textFrom (place.after p).inTime ps)) := by
  rcases Bool.eq_false_or_eq_true place.inTime with inTime | date
  · have time := allows.side inTime
    exact .inl ⟨time.trans inTime.symm, by simp [textFrom, Place.after, inTime]⟩
  · rcases Bool.eq_false_or_eq_true p.unit.isTime with time | notTime
    · exact .inr ⟨date, time, by simp [textFrom, Place.after, date, time]⟩
    · exact .inl ⟨notTime.trans date.symm, by simp [textFrom, Place.after, date, notTime]⟩

theorem exists_of_part (allows : place.Allows p) (side : p.unit.isTime = place.inTime)
    (more : ∃ ps, Follows (place.after p) ps ∧ rest = textFrom (place.after p).inTime ps) :
    ∃ ps, Follows place ps ∧ p.text ++ rest = textFrom place.inTime ps := by
  obtain ⟨ps, follows, rfl⟩ := more
  exact ⟨p :: ps, .cons allows follows, by simp [textFrom, Place.after, side]⟩

theorem exists_of_T (date : place.inTime = false) (some : rest ≠ [])
    (more : ∃ ps, Follows { place with inTime := true } ps ∧ rest = textFrom true ps) :
    ∃ ps, Follows place ps ∧ 'T' :: rest = textFrom place.inTime ps := by
  obtain ⟨ps, follows, rfl⟩ := more
  cases follows with
  | nil => exact absurd rfl some
  | @cons _ p ps allows follows =>
    have time : p.unit.isTime = true := allows.side rfl
    rw [Place.after_T time] at follows
    refine ⟨p :: ps, .cons ⟨allows.isOpen, fun _ => time, allows.later, allows.weekFirst⟩ follows, ?_⟩
    simp [textFrom, date, time]

/-! ## Digits -/

theorem letter_not_digit (u : DurationUnit) : u.letter.isDigit = false := by
  cases u <;> decide

theorem letter_eq_week : u.letter = 'W' ↔ u = .w := by
  cases u <;> decide

theorem unitRank_eq_week : unitRank u = 99 ↔ u = .w := by
  cases u <;> decide

theorem takeWhile_digits (isDigit : ∀ c ∈ digits, c.isDigit) (stop : startsWithDigit rest = false) :
    (digits ++ rest).takeWhile Char.isDigit = digits := by
  rw [List.takeWhile_append_of_pos isDigit]
  cases rest with
  | nil => simp
  | cons c rest =>
    have notDigit : c.isDigit = false := stop
    simp [notDigit]

theorem dropWhile_digits (isDigit : ∀ c ∈ digits, c.isDigit) (stop : startsWithDigit rest = false) :
    (digits ++ rest).dropWhile Char.isDigit = rest := by
  rw [List.dropWhile_append_of_pos isDigit]
  cases rest with
  | nil => rfl
  | cons c rest =>
    have notDigit : c.isDigit = false := stop
    simp [notDigit]

theorem startsWithDigit_append (isDigit : ∀ c ∈ digits, c.isDigit) (some : digits ≠ []) :
    startsWithDigit (digits ++ rest) = true := by
  cases digits with
  | nil => exact absurd rfl some
  | cons c digits => exact isDigit c List.mem_cons_self

theorem startsWithDigit_dropWhile (text : List Char) : startsWithDigit (text.dropWhile Char.isDigit) = false := by
  cases rest : text.dropWhile Char.isDigit with
  | nil => rfl
  | cons c tail =>
    have stop := List.head_dropWhile_not Char.isDigit (show text.dropWhile Char.isDigit ≠ [] by simp [rest])
    simpa [rest, startsWithDigit] using stop

theorem Numeral.milli_eq_zero {n : Numeral} (noFraction : n.frac = []) : n.milli = 0 := by
  simp [Numeral.milli, noFraction, digitsValue]

theorem exists_numeral {text tail : List Char} (digit : startsWithDigit text = true)
    (isDigit : ∀ c ∈ digits, c.isDigit)
    (after : text.dropWhile Char.isDigit = (if digits.isEmpty then [] else '.' :: digits) ++ tail) :
    ∃ n : Numeral, n.frac = digits ∧ text = n.text ++ tail := by
  have some : text.takeWhile Char.isDigit ≠ [] := by
    cases text with
    | nil => cases digit
    | cons c text =>
      have head : c.isDigit = true := digit
      simp [head]
  refine ⟨⟨text.takeWhile Char.isDigit, digits, some, fun c mem => List.mem_takeWhile_imp mem, isDigit⟩, rfl, ?_⟩
  calc text = text.takeWhile Char.isDigit ++ text.dropWhile Char.isDigit := List.takeWhile_append_dropWhile.symm
    _ = _ := by rw [after, Numeral.text, List.append_assoc]

end Iso8601Duration
end WeftWarp
