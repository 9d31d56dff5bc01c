import WeftWarp.Theorems.DurationScan

/-! # The two readers of durations

The Elixir reader accepts the texts of the grammar whose fraction has at most three digits. The C++ reader accepts all
of them, and computes in 64 bits. -/

namespace WeftWarp
namespace Iso8601Duration
open TwDuration

/-! ## Numbers and units -/

theorem takeInt_eq (text : List Char) (acc : Nat) (raw : String) : ∃ raw',
    takeInt text acc raw = ((text.takeWhile Char.isDigit).foldl (fun value c => value * 10 + digitValue c) acc, raw',
      text.dropWhile Char.isDigit) := by
  induction text generalizing acc raw with
  | nil => exact ⟨raw, rfl⟩
  | cons c text ih =>
    rcases Bool.eq_false_or_eq_true c.isDigit with digit | notDigit
    · obtain ⟨raw', taken⟩ := ih (acc * 10 + digitValue c) (raw.push c)
      exact ⟨raw', by simp [takeInt, digit, taken]⟩
    · exact ⟨raw, by simp [takeInt, notDigit]⟩

/-- `take_frac` takes the digits there are, but three at most. -/
theorem takeFrac_eq (digits rest : List Char) (isDigit : ∀ c ∈ digits, c.isDigit)
    (stop : startsWithDigit rest = false) (acc n : Nat) (within : n ≤ 3) (raw : String) : ∃ raw',
    takeFrac (digits ++ rest) acc n raw =
      ((digits.take (3 - n)).foldl (fun value c => value * 10 + digitValue c) acc *
        10 ^ (3 - n - (digits.take (3 - n)).length), raw', digits.drop (3 - n) ++ rest) := by
  induction digits generalizing acc n raw with
  | nil =>
    cases rest with
    | nil => exact ⟨raw, by simp [takeFrac]⟩
    | cons c rest =>
      have notDigit : c.isDigit = false := stop
      exact ⟨raw, by simp [takeFrac, notDigit]⟩
  | cons c digits ih =>
    have digit : c.isDigit = true := isDigit c List.mem_cons_self
    rcases Nat.lt_or_ge n 3 with more | enough
    · obtain ⟨raw', taken⟩ := ih (fun d mem => isDigit d (List.mem_cons_of_mem c mem)) (acc * 10 + digitValue c)
        (n + 1) more (raw.push c)
      have left : 3 - n = (3 - (n + 1)) + 1 := by omega
      refine ⟨raw', ?_⟩
      rw [List.cons_append, takeFrac, if_pos ⟨digit, more⟩, taken, left]
      simp
    · have full : n = 3 := Nat.le_antisymm within enough
      exact ⟨raw, by simp [takeFrac, full]⟩

variable {c : Char} {u : DurationUnit} {inTime fracSeen sawT : Bool} {number : Number} {text rest : List Char}
  {acc : List Component} {lastRank rank : Int} {place : Place} {comp : Component} {p : Part} {fuel : Nat}

theorem unitsDate_eq_some : unitsDate c = some u ↔ c = u.letter ∧ u.isTime = false := by
  constructor
  · intro found
    unfold unitsDate at found
    split at found <;> cases found <;> exact ⟨rfl, rfl⟩
  · rintro ⟨rfl, side⟩
    cases u <;> first | rfl | cases side

theorem unitsTime_eq_some : unitsTime c = some u ↔ c = u.letter ∧ u.isTime = true := by
  constructor
  · intro found
    unfold unitsTime at found
    split at found <;> cases found <;> exact ⟨rfl, rfl⟩
  · rintro ⟨rfl, side⟩
    cases u <;> first | rfl | cases side

theorem lookupIn_eq_ok {units cross : Char → Option DurationUnit} :
    lookupIn units cross c = .ok u ↔ units c = some u := by
  unfold lookupIn
  cases units c with
  | some v => simp
  | none => cases cross c <;> simp

theorem lookupUnit_eq_ok : lookupUnit c inTime = .ok u ↔ c = u.letter ∧ u.isTime = inTime := by
  cases inTime with
  | false => simp [lookupUnit, lookupIn_eq_ok, unitsDate_eq_some]
  | true => simp [lookupUnit, lookupIn_eq_ok, unitsTime_eq_some]

/-! ## The components -/

/-- The arguments of `parse_components` say where it stands. The rank is set back at the `T`, below the rank of every
unit of the time. -/
structure PartsAt (acc : List Component) (inTime sawT : Bool) (lastRank : Int) (fracSeen : Bool) (place : Place) :
    Prop where
  inTime : inTime = place.inTime
  sawT : sawT = place.inTime
  fracSeen : fracSeen = place.closed
  first : acc = [] ↔ place.last = -1
  week : acc.any (·.unit = .w) = true ↔ place.last = 99
  dateRank : place.inTime = false → lastRank = place.last ∧ (place.last ≤ 2 ∨ place.last = 99)
  timeRank : place.inTime = true → place.last ≠ 99 → lastRank = place.last ∨ lastRank = -1 ∧ place.last ≤ 2

theorem partsAt_start : PartsAt [] false false (-1) false {} :=
  ⟨rfl, rfl, rfl, by simp, by simp, by simp, by simp⟩

/-- The component that is read for a part. -/
def Part.component (p : Part) : Component :=
  ⟨p.unit, digitsValue p.number.whole, p.number.milli⟩

theorem takeNumber_text (n : Numeral) (u : DurationUnit) (rest : List Char) : ∃ raw,
    takeNumber (n.text ++ u.letter :: rest) =
      .ok ⟨digitsValue n.whole, n.milli, !n.frac.isEmpty, raw, n.frac.drop 3 ++ u.letter :: rest⟩ := by
  have stop : startsWithDigit (u.letter :: rest) = false := letter_not_digit u
  have after : startsWithDigit ((if n.frac.isEmpty then [] else '.' :: n.frac) ++ u.letter :: rest) = false := by
    split
    · exact stop
    · rfl
  obtain ⟨raw, taken⟩ :=
    takeInt_eq (n.whole ++ ((if n.frac.isEmpty then [] else '.' :: n.frac) ++ u.letter :: rest)) 0 ""
  rw [takeWhile_digits n.whole_digits after, dropWhile_digits n.whole_digits after] at taken
  rw [Numeral.text, List.append_assoc]
  simp only [takeNumber, startsWithDigit_append n.whole_digits n.whole_ne, taken]
  by_cases noFraction : n.frac = []
  · refine ⟨raw, ?_⟩
    rw [Numeral.milli_eq_zero noFraction, noFraction]
    cases u <;> rfl
  · obtain ⟨raw', fraction⟩ := takeFrac_eq n.frac (u.letter :: rest) n.frac_digits stop 0 0 (by decide) (raw ++ ".")
    refine ⟨raw', ?_⟩
    simp [noFraction, startsWithDigit_append n.frac_digits noFraction, fraction, Numeral.milli, digitsValue]

theorem takeNumber_eq_ok (taken : takeNumber text = .ok number) :
    ∃ n : Numeral, number.hadFrac = !n.frac.isEmpty ∧ text = n.text ++ number.rest := by
  unfold takeNumber at taken
  split at taken
  · cases taken
  · rename_i digit
    have digit : startsWithDigit text = true := by simpa using digit
    obtain ⟨raw, integer⟩ := takeInt_eq text 0 ""
    rw [integer] at taken
    simp only at taken
    split at taken
    · rename_i full after
      split at taken
      · cases taken
      · rename_i some
        have some : startsWithDigit full = true := by simpa using some
        obtain ⟨raw', fraction⟩ := takeFrac_eq (full.takeWhile Char.isDigit) (full.dropWhile Char.isDigit)
          (fun c mem => List.mem_takeWhile_imp mem) (startsWithDigit_dropWhile full) 0 0 (by decide) (raw ++ ".")
        rw [List.takeWhile_append_dropWhile] at fraction
        rw [fraction] at taken
        cases taken
        have nonempty : ((full.takeWhile Char.isDigit).take 3).isEmpty = false := by
          cases full with
          | nil => cases some
          | cons c full =>
            have head : c.isDigit = true := some
            simp [head]
        have split : text.dropWhile Char.isDigit =
            (if ((full.takeWhile Char.isDigit).take 3).isEmpty then [] else '.' :: (full.takeWhile Char.isDigit).take 3)
              ++ ((full.takeWhile Char.isDigit).drop (3 - 0) ++ full.dropWhile Char.isDigit) := by
          rw [nonempty, after]
          simp [← List.append_assoc]
        obtain ⟨n, frac, written⟩ := exists_numeral digit
          (fun c mem => List.mem_takeWhile_imp (List.mem_of_mem_take mem)) split
        exact ⟨n, by rw [frac, nonempty]; rfl, written⟩
    · cases taken
      have none : ∀ c ∈ ([] : List Char), c.isDigit := by simp
      obtain ⟨n, frac, written⟩ := exists_numeral digit none rfl
      exact ⟨n, by rw [frac]; rfl, written⟩

theorem reads_iff (atPlace : PartsAt acc inTime sawT lastRank fracSeen place) (side : u.isTime = place.inTime) :
    (¬(u.letter = 'W' ∧ (acc ≠ [] ∨ inTime = true)) ∧ ¬acc.any (·.unit = .w) = true ∧ ¬unitRank u ≤ lastRank) ↔
      place.last < unitRank u ∧ (u = .w → place.last = -1) := by
  have first := atPlace.first
  rw [letter_eq_week, atPlace.week, atPlace.inTime, Ne, first]
  by_cases week : u = .w
  · subst week
    have date : place.inTime = false := side.symm
    obtain ⟨rank, -⟩ := atPlace.dateRank date
    have top : unitRank .w = 99 := rfl
    simp only [date, top, Bool.false_eq_true, or_false, true_and, not_not, true_implies]
    omega
  · have notTop : unitRank u ≠ 99 := fun top => week (unitRank_eq_week.mp top)
    have below := unitRank_le u
    have agree : place.last ≠ 99 → (¬unitRank u ≤ lastRank ↔ place.last < unitRank u) := by
      intro notWeek
      rcases Bool.eq_false_or_eq_true place.inTime with inTime | date
      · have time : 3 ≤ unitRank u := by
          rw [inTime] at side
          revert side
          cases u <;> decide
        rcases atPlace.timeRank inTime notWeek with same | reset <;> omega
      · have same := (atPlace.dateRank date).1
        omega
    simp only [week, false_and, not_false_eq_true, true_and, false_implies, and_true]
    by_cases notWeek : place.last = 99
    · simp only [notWeek, not_true, false_and, false_iff]
      omega
    · simp [notWeek, agree]

theorem partsAt_after (atPlace : PartsAt acc inTime sawT lastRank fracSeen place)
    (side : p.unit.isTime = place.inTime) (noWeek : ¬acc.any (·.unit = .w) = true) (unit : comp.unit = p.unit) :
    PartsAt (comp :: acc) inTime sawT (unitRank p.unit) (!p.number.frac.isEmpty) (place.after p) := by
  have nonneg := unitRank_nonneg p.unit
  have same : (place.after p).inTime = place.inTime := by simp [Place.after, side]
  refine ⟨atPlace.inTime.trans same.symm, atPlace.sawT.trans same.symm, rfl, ?_, ?_, ?_, fun _ _ => .inl rfl⟩
  · simp only [Place.after, reduceCtorEq, false_iff]
    omega
  · have rank : (place.after p).last = 99 ↔ p.unit = .w := unitRank_eq_week
    rw [rank, List.any_cons, Bool.or_eq_true, or_iff_left noWeek, unit]
    exact decide_eq_true_iff
  · intro date
    refine ⟨rfl, ?_⟩
    have date : p.unit.isTime = false := side.trans (same.symm.trans date)
    simp only [Place.after]
    revert date
    cases p.unit <;> decide

theorem PartsAt.afterT (atPlace : PartsAt acc inTime sawT lastRank fracSeen place) (isOpen : place.closed = false)
    (date : place.inTime = false) : PartsAt acc true true (-1) false { place with inTime := true } := by
  refine ⟨rfl, rfl, isOpen.symm, atPlace.first, atPlace.week, by simp, fun _ notWeek => .inr ⟨rfl, ?_⟩⟩
  rcases (atPlace.dateRank date).2 with low | week
  · exact low
  · exact absurd week notWeek

theorem classifyComponent_eq_ok :
    classifyComponent number c inTime lastRank = .ok (comp, rank) ↔
      ∃ u : DurationUnit, c = u.letter ∧ u.isTime = inTime ∧ ¬unitRank u ≤ lastRank ∧
        comp = ⟨u, number.whole, number.milli⟩ ∧ rank = unitRank u := by
  unfold classifyComponent
  constructor
  · intro classified
    cases found : lookupUnit c inTime with
    | ok u =>
      obtain ⟨letter, side⟩ := lookupUnit_eq_ok.mp found
      simp only [found] at classified
      split at classified
      · cases classified
      · cases classified
        exact ⟨u, letter, side, by assumption, rfl, rfl⟩
    | cross u => cases inTime <;> simp [found] at classified
    | unknown => simp [found] at classified
  · rintro ⟨u, letter, side, later, rfl, rfl⟩
    simp only [lookupUnit_eq_ok.mpr ⟨letter, side⟩, if_neg later]

/-- Which components are read: the number is given, and the unit passes the tests. -/
theorem readComponent_eq_ok {tail : List Char} (taken : takeNumber text = .ok number)
    (after : number.rest = c :: tail) {hadFrac : Bool} :
    readComponent text acc inTime lastRank = .ok (comp, rank, hadFrac, rest) ↔
      ∃ u : DurationUnit, c = u.letter ∧ u.isTime = inTime ∧
        (¬(u.letter = 'W' ∧ (acc ≠ [] ∨ inTime = true)) ∧ ¬acc.any (·.unit = .w) = true ∧ ¬unitRank u ≤ lastRank) ∧
        comp = ⟨u, number.whole, number.milli⟩ ∧ rank = unitRank u ∧ hadFrac = number.hadFrac ∧ rest = tail := by
  simp only [readComponent, taken, after]
  constructor
  · intro read
    split at read
    · cases read
    · rename_i mixed
      split at read
      · cases read
      · rename_i noWeek
        cases classified : classifyComponent number c inTime lastRank with
        | error err => simp [classified] at read
        | ok pair =>
          simp only [classified, Except.ok.injEq, Prod.mk.injEq] at read
          obtain ⟨rfl, rfl, rfl, rfl⟩ := read
          obtain ⟨u, rfl, side, later, made⟩ := classifyComponent_eq_ok.mp classified
          exact ⟨u, rfl, side, ⟨mixed, noWeek, later⟩, made.1, made.2, rfl, rfl⟩
  · rintro ⟨u, rfl, side, ⟨mixed, noWeek, later⟩, rfl, rfl, rfl, rfl⟩
    have classified : classifyComponent number u.letter inTime lastRank =
        .ok (⟨u, number.whole, number.milli⟩, unitRank u) :=
      classifyComponent_eq_ok.mpr ⟨u, rfl, side, later, rfl, rfl⟩
    simp only [if_neg mixed, if_neg noWeek, classified]

theorem exists_of_readComponent (atPlace : PartsAt acc inTime sawT lastRank fracSeen place)
    (isOpen : place.closed = false) {hadFrac : Bool}
    (read : readComponent text acc inTime lastRank = .ok (comp, rank, hadFrac, rest)) :
    ∃ p : Part, place.Allows p ∧ p.unit.isTime = place.inTime ∧ text = p.text ++ rest ∧
      PartsAt (comp :: acc) inTime sawT rank hadFrac (place.after p) := by
  cases taken : takeNumber text with
  | error err => simp [readComponent, taken] at read
  | ok number =>
    cases after : number.rest with
    | nil => simp [readComponent, taken, after] at read
    | cons c tail =>
      obtain ⟨u, rfl, side, admitted, rfl, rfl, rfl, rfl⟩ := (readComponent_eq_ok taken after).mp read
      obtain ⟨n, fraction, written⟩ := takeNumber_eq_ok taken
      have side := side.trans atPlace.inTime
      obtain ⟨later, weekFirst⟩ := (reads_iff atPlace side).mp admitted
      refine ⟨⟨n, u⟩, ⟨isOpen, fun inTime => side.trans inTime, later, weekFirst⟩, side, ?_, ?_⟩
      · rw [written, after]
        simp [Part.text]
      · rw [fraction]
        exact partsAt_after (p := ⟨n, u⟩) atPlace side admitted.2.1 rfl

theorem readComponent_text (atPlace : PartsAt acc inTime sawT lastRank fracSeen place) (allows : place.Allows p)
    (side : p.unit.isTime = place.inTime) (short : p.number.frac.length ≤ 3) (rest : List Char) :
    readComponent (p.text ++ rest) acc inTime lastRank =
      .ok (p.component, unitRank p.unit, !p.number.frac.isEmpty, rest) := by
  obtain ⟨raw, taken⟩ := takeNumber_text p.number p.unit rest
  have text : p.text ++ rest = p.number.text ++ p.unit.letter :: rest := by simp [Part.text]
  rw [List.drop_eq_nil_of_le short] at taken
  rw [text]
  exact (readComponent_eq_ok taken rfl).mpr ⟨p.unit, rfl, side.trans atPlace.inTime.symm,
    (reads_iff atPlace side).mpr ⟨allows.later, allows.weekFirst⟩, rfl, rfl, rfl, rfl⟩

/-- The fourth digit of a fraction is taken for the unit. -/
theorem readComponent_long (long : 3 < p.number.frac.length) (rest : List Char) (acc : List Component) (inTime : Bool)
    (lastRank : Int) : ∃ err, readComponent (p.text ++ rest) acc inTime lastRank = .error err := by
  obtain ⟨raw, taken⟩ := takeNumber_text p.number p.unit rest
  have text : p.text ++ rest = p.number.text ++ p.unit.letter :: rest := by simp [Part.text]
  rw [text]
  cases read : readComponent (p.number.text ++ p.unit.letter :: rest) acc inTime lastRank with
  | error err => exact ⟨err, rfl⟩
  | ok out =>
    obtain ⟨comp, rank, hadFrac, tail⟩ := out
    cases left : p.number.frac.drop 3 with
    | nil =>
      have short := List.drop_eq_nil_iff.mp left
      omega
    | cons c digits =>
      have digit : c.isDigit = true :=
        p.number.frac_digits c (List.mem_of_mem_drop (left ▸ List.mem_cons_self))
      rw [left] at taken
      obtain ⟨u, rfl, -⟩ := (readComponent_eq_ok taken rfl).mp read
      rw [letter_not_digit] at digit
      cases digit

theorem parseComponents_digit (digit : startsWithDigit text = true) (fuel : Nat) (acc : List Component)
    (inTime sawT : Bool) (lastRank : Int) :
    parseComponents (fuel + 1) text acc inTime sawT lastRank false =
      match readComponent text acc inTime lastRank with
      | .error err => .error err
      | .ok (comp, rank, hadFrac, rest) => parseComponents fuel rest (comp :: acc) inTime sawT rank hadFrac := by
  cases text with
  | nil => cases digit
  | cons c text =>
    have isDigit : c.isDigit = true := digit
    have notT : c ≠ 'T' := by
      rintro rfl
      exact absurd isDigit (by decide)
    rw [parseComponents]
    exact (if_neg Bool.false_ne_true).trans ((if_neg notT).trans (if_pos isDigit))

theorem parseComponents_T (fuel : Nat) (text : List Char) (acc : List Component) (inTime sawT : Bool)
    (lastRank : Int) (some : text ≠ []) (notSaw : sawT = false) :
    parseComponents (fuel + 1) ('T' :: text) acc inTime sawT lastRank false =
      parseComponents fuel text acc true true (-1) false := by
  simp [parseComponents, some, notSaw]

theorem startsWithDigit_part (p : Part) (rest : List Char) : startsWithDigit (p.text ++ rest) = true := by
  rw [Part.text, Numeral.text, List.append_assoc, List.append_assoc]
  exact startsWithDigit_append p.number.whole_digits p.number.whole_ne

/-- What reading `ps` may come to: the components are read, or a fraction is too long. -/
def Outcome (result : Except ParseError (List Component)) (acc : List Component) (ps : List Part) : Prop :=
  (result = .ok (acc.reverse ++ ps.map Part.component) ∧ ∀ p ∈ ps, p.number.frac.length ≤ 3) ∨
    (∃ err, result = .error err) ∧ ∃ p ∈ ps, 3 < p.number.frac.length

theorem outcome_part (atPlace : PartsAt acc inTime sawT lastRank false place) (allows : place.Allows p)
    (side : p.unit.isTime = place.inTime) {ps : List Part}
    (more : PartsAt (p.component :: acc) inTime sawT (unitRank p.unit) (!p.number.frac.isEmpty) (place.after p) →
      Outcome (parseComponents fuel rest (p.component :: acc) inTime sawT (unitRank p.unit) (!p.number.frac.isEmpty))
        (p.component :: acc) ps) :
    Outcome (parseComponents (fuel + 1) (p.text ++ rest) acc inTime sawT lastRank false) acc (p :: ps) := by
  rw [parseComponents_digit (startsWithDigit_part p rest)]
  rcases Nat.lt_or_ge 3 p.number.frac.length with long | short
  · obtain ⟨err, failed⟩ := readComponent_long long rest acc inTime lastRank
    exact .inr ⟨⟨err, by rw [failed]⟩, p, List.mem_cons_self, long⟩
  · have noWeek := ((reads_iff atPlace side).mpr ⟨allows.later, allows.weekFirst⟩).2.1
    rw [readComponent_text atPlace allows side short]
    rcases more (partsAt_after atPlace side noWeek rfl) with ⟨read, all⟩ | ⟨failed, q, mem, long⟩
    · refine .inl ⟨by simp [read], ?_⟩
      intro q mem
      rcases List.mem_cons.mp mem with rfl | mem
      · exact short
      · exact all q mem
    · exact .inr ⟨failed, q, List.mem_cons_of_mem p mem, long⟩

/-- The reader accepts the texts of the grammar whose fractions it can read to their end. -/
theorem parseComponents_text {ps : List Part} (follows : Follows place ps)
    (atPlace : PartsAt acc inTime sawT lastRank fracSeen place) (enough : (textFrom place.inTime ps).length ≤ fuel) :
    Outcome (parseComponents fuel (textFrom place.inTime ps) acc inTime sawT lastRank fracSeen) acc ps := by
  induction follows generalizing acc inTime sawT lastRank fracSeen fuel with
  | nil place => exact .inl (by simp [textFrom, parseComponents])
  | @cons place p ps allows follows ih =>
    have written : 0 < p.text.length := List.length_pos_iff.mpr p.text_ne
    have noFraction : fracSeen = false := atPlace.fracSeen.trans allows.isOpen
    subst noFraction
    rcases textFrom_cons allows ps with ⟨side, here⟩ | ⟨date, time, here⟩
    · rw [here, List.length_append] at enough
      obtain ⟨fuel, rfl⟩ : ∃ f, fuel = f + 1 := ⟨fuel - 1, by omega⟩
      rw [here]
      exact outcome_part atPlace allows side fun atNext => ih atNext (by omega)
    · rw [here, List.length_cons, List.length_append] at enough
      obtain ⟨fuel, rfl⟩ : ∃ f, fuel = f + 1 + 1 := ⟨fuel - 2, by omega⟩
      rw [here, parseComponents_T _ _ _ _ _ _ (by simp [p.text_ne]) (atPlace.sawT.trans date)]
      refine outcome_part (atPlace.afterT allows.isOpen date) (allows.afterT time) time fun atNext => ?_
      rw [Place.after_T time] at atNext
      exact ih atNext (by omega)

theorem exists_of_parseComponents (atPlace : PartsAt acc inTime sawT lastRank fracSeen place)
    {components : List Component}
    (accepted : parseComponents fuel text acc inTime sawT lastRank fracSeen = .ok components) :
    ∃ ps, Follows place ps ∧ text = textFrom place.inTime ps := by
  induction fuel generalizing text acc inTime sawT fracSeen lastRank place with
  | zero =>
    cases text with
    | nil => exact ⟨[], .nil place, rfl⟩
    | cons c text => simp [parseComponents] at accepted
  | succ fuel ih =>
    cases text with
    | nil => exact ⟨[], .nil place, rfl⟩
    | cons c text =>
      have noFraction : fracSeen = false := by
        by_contra seen
        simp [parseComponents, eq_true_of_ne_false seen] at accepted
      have isOpen : place.closed = false := atPlace.fracSeen.symm.trans noFraction
      subst noFraction
      by_cases isT : c = 'T'
      · subst isT
        have notSaw : sawT = false := by
          by_contra saw
          simp [parseComponents, eq_true_of_ne_false saw] at accepted
        have some : text ≠ [] := by
          rintro rfl
          simp [parseComponents, notSaw] at accepted
        have date : place.inTime = false := atPlace.sawT.symm.trans notSaw
        rw [parseComponents_T _ _ _ _ _ _ some notSaw] at accepted
        exact exists_of_T date some (ih (atPlace.afterT isOpen date) accepted)
      · have digit : c.isDigit = true := by
          by_contra notDigit
          simp [parseComponents, isT, notDigit] at accepted
        rw [parseComponents_digit (show startsWithDigit (c :: text) = true from digit)] at accepted
        cases read : readComponent (c :: text) acc inTime lastRank with
        | error err => simp [read] at accepted
        | ok out =>
          obtain ⟨comp, rank, hadFrac, rest⟩ := out
          simp only [read] at accepted
          obtain ⟨p, allows, side, written, atNext⟩ := exists_of_readComponent atPlace isOpen read
          rw [written]
          exact exists_of_part allows side (ih atNext accepted)

/-! ## Both readers -/

theorem twParseDurationMs_ofList (rest : List Char) :
    twParseDurationMs (String.ofList ('P' :: rest)) = (loop rest.length {} rest).getD (-1) := by
  cases rest <;> simp [twParseDurationMs, loop]

theorem parse_ofList (rest : List Char) :
    parse (String.ofList ('P' :: rest)) = parseComponents rest.length rest [] false false (-1) false := by
  cases rest <;> simp [parse, parseComponents]

theorem twParseDurationMs_text (d : Duration) : twParseDurationMs d.text = Int64.ofNat d.milliseconds := by
  rw [d.text_eq, twParseDurationMs_ofList, loop_text d.follows scanAt_start (Nat.le_refl _)]
  simp [Duration.milliseconds]

theorem parse_text (d : Duration) : Outcome (parse d.text) [] d.parts := by
  rw [d.text_eq, parse_ofList]
  exact parseComponents_text d.follows partsAt_start (Nat.le_refl _)

theorem totalMilliseconds_components (ps : List Part) :
    totalMilliseconds (ps.map Part.component) = (ps.map Part.milliseconds).sum := by
  have total : ∀ (ps : List Part) (acc : Nat), (ps.map Part.component).foldl (fun acc c =>
      acc + c.whole * unitMilliseconds c.unit + c.fracMilli * (unitMilliseconds c.unit / 1000)) acc =
        acc + (ps.map Part.milliseconds).sum := by
    intro ps
    induction ps with
    | nil => simp
    | cons p ps ih =>
      intro acc
      simp only [List.map_cons, List.foldl_cons, ih, List.sum_cons, Part.milliseconds, Part.component]
      omega
  exact (total ps 0).trans (Nat.zero_add _)

theorem exists_of_textFrom (read : ∃ ps, Follows {} ps ∧ rest = textFrom false ps) :
    ∃ d : Duration, d.text = String.ofList ('P' :: rest) := by
  obtain ⟨ps, follows, rfl⟩ := read
  obtain ⟨d, rfl⟩ := exists_of_follows follows
  exact ⟨d, d.text_eq⟩

theorem exists_of_parse {s : String} {components : List Component} (accepted : parse s = .ok components) :
    ∃ d : Duration, d.text = s := by
  obtain ⟨text, rfl⟩ : ∃ text, s = String.ofList text := ⟨s.toList, by simp⟩
  cases text with
  | nil => simp [parse] at accepted
  | cons c rest =>
    by_cases isP : c = 'P'
    · subst isP
      rw [parse_ofList] at accepted
      exact exists_of_textFrom (exists_of_parseComponents partsAt_start accepted)
    · simp [parse, isP] at accepted

theorem exists_of_twParseDurationMs {s : String} (accepted : twParseDurationMs s ≠ -1) :
    ∃ d : Duration, d.text = s := by
  obtain ⟨text, rfl⟩ : ∃ text, s = String.ofList text := ⟨s.toList, by simp⟩
  cases text with
  | nil => simp [twParseDurationMs] at accepted
  | cons c rest =>
    by_cases isP : c = 'P'
    · subst isP
      rw [twParseDurationMs_ofList] at accepted
      cases found : loop rest.length {} rest with
      | none => simp [found] at accepted
      | some total => exact exists_of_textFrom (exists_of_loop scanAt_start found)
    · simp [twParseDurationMs, isP] at accepted

theorem toInt_ofNat_eq_iff (n : Nat) : (Int64.ofNat n).toInt = n ↔ n < 2 ^ 63 := by
  rw [Int64.toInt_ofNat', Int.bmod_def]
  simp only [Int64.size]
  omega

/-- The C++ reader returns -1 exactly on the texts the Elixir one rejects, and its milliseconds on the others. -/
structure Agree (s : String) : Prop where
  rejects : twParseDurationMs s = -1 ↔ ∃ err, parse s = .error err
  total : ∀ components, parse s = .ok components → (twParseDurationMs s).toInt = totalMilliseconds components

theorem parsers_agree_iff (s : String) :
    Agree s ↔ ∀ d : Duration, d.text = s →
      (d.ToMilliseconds → d.milliseconds < 2 ^ 63) ∧ (¬d.ToMilliseconds → Int64.ofNat d.milliseconds = -1) := by
  constructor
  · rintro agree d rfl
    have read := twParseDurationMs_text d
    rcases parse_text d with ⟨parsed, short⟩ | ⟨failed, p, mem, long⟩
    · refine ⟨fun _ => ?_, fun notShort => absurd short notShort⟩
      have total := agree.total _ parsed
      rw [read, List.reverse_nil, List.nil_append, totalMilliseconds_components] at total
      exact (toInt_ofNat_eq_iff d.milliseconds).mp total
    · refine ⟨fun short => absurd (short p mem) (Nat.not_le.mpr long), fun _ => ?_⟩
      rw [← read]
      exact agree.rejects.mpr failed
  · intro within
    by_cases isDuration : ∃ d : Duration, d.text = s
    · obtain ⟨d, rfl⟩ := isDuration
      have read := twParseDurationMs_text d
      obtain ⟨fits, wraps⟩ := within d rfl
      rcases parse_text d with ⟨parsed, short⟩ | ⟨⟨err, failed⟩, p, mem, long⟩
      · have held := (toInt_ofNat_eq_iff d.milliseconds).mpr (fits short)
        rw [← read] at held
        refine ⟨⟨fun minusOne => ?_, fun ⟨err, failed⟩ => ?_⟩, fun components same => ?_⟩
        · have negative : (-1 : Int64).toInt = -1 := by decide
          rw [minusOne, negative] at held
          omega
        · rw [parsed] at failed
          cases failed
        · rw [parsed] at same
          cases same
          rw [List.reverse_nil, List.nil_append, totalMilliseconds_components]
          exact held
      · have notShort : ¬d.ToMilliseconds := fun short => Nat.not_le.mpr long (short p mem)
        refine ⟨⟨fun _ => ⟨err, failed⟩, fun _ => read.trans (wraps notShort)⟩, fun components parsed => ?_⟩
        rw [failed] at parsed
        cases parsed
    · have rejected : twParseDurationMs s = -1 := by
        by_contra accepted
        exact isDuration (exists_of_twParseDurationMs accepted)
      refine ⟨⟨fun _ => ?_, fun _ => rejected⟩, fun components parsed => absurd (exists_of_parse parsed) isDuration⟩
      cases parsed : parse s with
      | error err => exact ⟨err, rfl⟩
      | ok components => exact absurd (exists_of_parse parsed) isDuration

/-- The C++ reader cuts the fraction, the Elixir one takes its fourth digit for the unit. -/
theorem parsers_disagree_long_fraction : ¬Agree "PT1.2345S" := by
  intro agree
  have cut : twParseDurationMs "PT1.2345S" = 1234 := by decide +kernel
  have rejected : parse "PT1.2345S" = .error (.unexpectedToken "5") := by decide +kernel
  have minusOne := agree.rejects.mpr ⟨_, rejected⟩
  rw [cut] at minusOne
  exact absurd minusOne (by decide)

end Iso8601Duration
end WeftWarp
