import WeftWarp.Theorems.DurationGrammar

/-! # The C++ reader of durations

The loop of `tw_parse_duration_ms` accepts the texts of the grammar and no others, and adds up their milliseconds in
64 bits. Digits of a fraction after the third are skipped. -/

namespace WeftWarp
namespace Iso8601Duration
open TwDuration

/-! ## Numbers and units -/

theorem readDigits_eq (digits : List Char) : readDigits digits = Int64.ofNat (digitsValue digits) := by
  have read : ∀ (digits : List Char) (value : Nat),
      digits.foldl (fun whole c => whole * 10 + Int64.ofNat (digitValue c)) (Int64.ofNat value) =
        Int64.ofNat (digits.foldl (fun value c => value * 10 + digitValue c) value) := by
    intro digits
    induction digits with
    | nil => exact fun _ => rfl
    | cons c digits ih =>
      intro value
      rw [List.foldl_cons, List.foldl_cons, ← ih, Int64.ofNat_add, Int64.ofNat_mul]
      rfl
  exact read digits 0

theorem repeat_mul_ten (n value : Nat) : Nat.repeat (· * 10) n (Int64.ofNat value) = Int64.ofNat (value * 10 ^ n) := by
  induction n with
  | zero => simp [Nat.repeat]
  | succ n ih =>
    rw [Nat.repeat, ih, Nat.pow_succ, ← Nat.mul_assoc, Int64.ofNat_mul (value * 10 ^ n)]
    rfl

theorem fracMilli_eq (n : Numeral) : fracMilli n.frac = Int64.ofNat n.milli := by
  rw [fracMilli, readDigits_eq, repeat_mul_ten, Numeral.milli]

theorem classify_eq_some {inTime : Bool} {c : Char} {rank : Int} {ms : Int64} :
    classify inTime c = some (rank, ms) ↔
      ∃ u : DurationUnit, c = u.letter ∧ u.isTime = inTime ∧ rank = unitRank u ∧
        ms = Int64.ofNat (unitMilliseconds u) := by
  constructor
  · intro found
    cases inTime <;> simp only [classify, Bool.not_false, Bool.not_true, if_true, Bool.false_eq_true, if_false] at found
    · split at found
      · cases found; exact ⟨.y, by assumption, rfl, rfl, rfl⟩
      split at found
      · cases found; exact ⟨.mo, by assumption, rfl, rfl, rfl⟩
      split at found
      · cases found; exact ⟨.w, by assumption, rfl, rfl, rfl⟩
      split at found
      · cases found; exact ⟨.d, by assumption, rfl, rfl, rfl⟩
      · cases found
    · split at found
      · cases found; exact ⟨.h, by assumption, rfl, rfl, rfl⟩
      split at found
      · cases found; exact ⟨.mi, by assumption, rfl, rfl, rfl⟩
      split at found
      · cases found; exact ⟨.s, by assumption, rfl, rfl, rfl⟩
      · cases found
  · rintro ⟨u, rfl, rfl, rfl, rfl⟩
    cases u <;> rfl

/-! ## The loop -/

/-- The loop's variables say where it stands. -/
structure ScanAt (s : Scan) (place : Place) : Prop where
  inTime : s.inTime = place.inTime
  sawT : s.sawT = place.inTime
  fracSeen : s.fracSeen = place.closed
  last : place.last = if s.sawW then 99 else s.lastRank
  first : s.sawAny = false ↔ place.last = -1

theorem scanAt_start : ScanAt {} {} :=
  ⟨rfl, rfl, rfl, rfl, by simp⟩

/-- What `add` leaves for a unit it admits. -/
def added (s : Scan) (whole : Int64) (frac : Option Int64) (u : DurationUnit) : Scan :=
  let unitMs := Int64.ofNat (unitMilliseconds u)
  { s with
    sawW := u = .w
    lastRank := if u = .w then s.lastRank else unitRank u
    totalMs := match frac with
      | none => s.totalMs + whole * unitMs
      | some milli => s.totalMs + whole * unitMs + milli * (unitMs / 1000)
    fracSeen := frac.isSome
    sawAny := true }

variable {place : Place} {s next : Scan} {frac : Option Int64} {text rest : List Char}

/-- The three tests of the loop together. -/
theorem admitted_iff (atPlace : ScanAt s place) {u : DurationUnit} (side : u.isTime = s.inTime) :
    (¬(u.letter = 'W' ∧ (s.sawAny = true ∨ s.inTime = true)) ∧ s.sawW = false ∧
        ¬(unitRank u ≠ 99 ∧ unitRank u ≤ s.lastRank)) ↔
      place.last < unitRank u ∧ (u = .w → place.last = -1) := by
  have last := atPlace.last
  have first := atPlace.first
  rw [letter_eq_week]
  by_cases week : u = .w
  · subst week
    have date : s.inTime = false := side.symm
    have top : unitRank .w = 99 := rfl
    rcases Bool.eq_false_or_eq_true s.sawAny with any | any <;>
      rcases Bool.eq_false_or_eq_true s.sawW with saw | saw <;>
      simp [any, saw, date, top] at first last ⊢ <;> omega
  · have rank := unitRank_le u
    have notTop : unitRank u ≠ 99 := fun top => week (unitRank_eq_week.mp top)
    rcases Bool.eq_false_or_eq_true s.sawW with saw | saw <;> simp [saw, week, notTop] at last ⊢ <;> omega

theorem add_letter (atPlace : ScanAt s place) {u : DurationUnit} (side : u.isTime = s.inTime) (whole : Int64)
    (frac : Option Int64) :
    s.add whole frac u.letter =
      if place.last < unitRank u ∧ (u = .w → place.last = -1) then some (added s whole frac u) else none := by
  have classified : classify s.inTime u.letter = some (unitRank u, Int64.ofNat (unitMilliseconds u)) :=
    classify_eq_some.mpr ⟨u, rfl, side, rfl, rfl⟩
  have admitted := admitted_iff atPlace side
  simp only [Scan.add, classified]
  by_cases mixed : u.letter = 'W' ∧ (s.sawAny = true ∨ s.inTime = true)
  · rw [if_pos mixed, if_neg fun allowed => (admitted.mpr allowed).1 mixed]
  rw [if_neg mixed]
  by_cases saw : s.sawW = true
  · rw [if_pos saw, if_neg fun allowed => Bool.eq_false_iff.mp (admitted.mpr allowed).2.1 saw]
  rw [if_neg saw]
  by_cases order : unitRank u ≠ 99 ∧ unitRank u ≤ s.lastRank
  · rw [if_pos order, if_neg fun allowed => (admitted.mpr allowed).2.2 order]
  rw [if_neg order, if_pos (admitted.mp ⟨mixed, Bool.eq_false_iff.mpr saw, order⟩)]
  have week : (u.letter == 'W') = decide (u = .w) := by
    rw [beq_eq_decide]
    exact decide_eq_decide.mpr letter_eq_week
  cases frac <;> simp only [added, week, unitRank_eq_week]

theorem add_eq_some (atPlace : ScanAt s place) {whole : Int64} {c : Char} (found : s.add whole frac c = some next) :
    ∃ u : DurationUnit, c = u.letter ∧ u.isTime = s.inTime ∧
      (place.last < unitRank u ∧ (u = .w → place.last = -1)) ∧ next = added s whole frac u := by
  cases classified : classify s.inTime c with
  | none => simp [Scan.add, classified] at found
  | some pair =>
    obtain ⟨u, rfl, side, -⟩ := classify_eq_some.mp classified
    rw [add_letter atPlace side] at found
    split at found
    · exact ⟨u, rfl, side, by assumption, (Option.some.inj found).symm⟩
    · cases found

theorem scanAt_added (atPlace : ScanAt s place) {p : Part} (side : p.unit.isTime = s.inTime) (whole : Int64)
    (fraction : frac.isSome = !p.number.frac.isEmpty) : ScanAt (added s whole frac p.unit) (place.after p) := by
  have inTime : place.inTime = s.inTime := atPlace.inTime.symm
  have nonneg := unitRank_nonneg p.unit
  refine ⟨?_, ?_, fraction, ?_, ?_⟩
  · simp [added, Place.after, side, inTime]
  · simp [added, Place.after, side, inTime, atPlace.sawT]
  · by_cases week : p.unit = .w <;> simp [added, Place.after, week, unitRank]
  · simp only [added, Place.after, Bool.true_eq_false, false_iff]
    omega

theorem added_totalMs (s : Scan) (p : Part)
    (fraction : frac = if p.number.frac.isEmpty then none else some (fracMilli p.number.frac)) :
    (added s (readDigits p.number.whole) frac p.unit).totalMs = s.totalMs + Int64.ofNat p.milliseconds := by
  have perThousand : Int64.ofNat (unitMilliseconds p.unit) / 1000 = Int64.ofNat (unitMilliseconds p.unit / 1000) := by
    cases p.unit <;> decide
  rw [fraction]
  split
  · rename_i empty
    have none : p.number.milli = 0 := Numeral.milli_eq_zero (List.isEmpty_iff.mp empty)
    simp [added, Part.milliseconds, none, readDigits_eq, Int64.ofNat_mul]
  · simp [added, Part.milliseconds, readDigits_eq, fracMilli_eq, perThousand, Int64.ofNat_mul, Int64.ofNat_add,
      Int64.add_assoc]

theorem readFraction_text (n : Numeral) (u : DurationUnit) (rest : List Char) :
    readFraction ((if n.frac.isEmpty then [] else '.' :: n.frac) ++ u.letter :: rest) =
      some (if n.frac.isEmpty then none else some (fracMilli n.frac), u.letter :: rest) := by
  have stop : startsWithDigit (u.letter :: rest) = false := letter_not_digit u
  split
  · cases u <;> rfl
  · rename_i fraction
    have some : n.frac ≠ [] := fun empty => fraction (List.isEmpty_iff.mpr empty)
    simp only [List.cons_append, readFraction, startsWithDigit_append n.frac_digits some,
      takeWhile_digits n.frac_digits stop, dropWhile_digits n.frac_digits stop, Bool.not_true, Bool.false_eq_true,
      if_false]

theorem turn_digit (noFraction : s.fracSeen = false) (digit : startsWithDigit text = true) :
    turn s text = readPart s text := by
  unfold turn
  rw [noFraction, if_neg Bool.false_ne_true]
  cases text with
  | nil => cases digit
  | cons c text =>
    have isDigit : c.isDigit = true := digit
    split
    · contradiction
    · rename_i head
      cases head
      exact absurd isDigit (by decide)
    · rename_i head
      cases head
      rw [isDigit]
      rfl

theorem turn_text (noFraction : s.fracSeen = false) (p : Part) (rest : List Char) :
    turn s (p.text ++ rest) =
      (s.add (readDigits p.number.whole) (if p.number.frac.isEmpty then none else some (fracMilli p.number.frac))
        p.unit.letter).map (·, rest) := by
  have text : p.text ++ rest = p.number.whole ++
      ((if p.number.frac.isEmpty then [] else '.' :: p.number.frac) ++ p.unit.letter :: rest) := by
    simp [Part.text, Numeral.text]
  have stop : startsWithDigit
      ((if p.number.frac.isEmpty then [] else '.' :: p.number.frac) ++ p.unit.letter :: rest) = false := by
    split
    · exact letter_not_digit p.unit
    · rfl
  rw [text, turn_digit noFraction (startsWithDigit_append p.number.whole_digits p.number.whole_ne), readPart,
    takeWhile_digits p.number.whole_digits stop, dropWhile_digits p.number.whole_digits stop, readFraction_text]

theorem loop_of_turn (turned : turn s text = some (next, rest)) (fuel : Nat) :
    loop (fuel + 1) s text = loop fuel next rest := by
  cases text with
  | nil => simp [turn] at turned
  | cons c text => simp only [loop, turned]

theorem loop_part (atPlace : ScanAt s place) {p : Part} (allows : place.Allows p) (side : p.unit.isTime = s.inTime) :
    ∃ next, ScanAt next (place.after p) ∧
      next.totalMs = s.totalMs + Int64.ofNat p.milliseconds ∧
      ∀ fuel rest, loop (fuel + 1) s (p.text ++ rest) = loop fuel next rest := by
  refine ⟨_, scanAt_added atPlace side _ ?_, added_totalMs s p rfl, fun fuel rest => loop_of_turn ?_ fuel⟩
  · cases p.number.frac.isEmpty <;> rfl
  · rw [turn_text (atPlace.fracSeen.trans allows.isOpen), add_letter atPlace side,
      if_pos ⟨allows.later, allows.weekFirst⟩]
    rfl

theorem turn_T (noFraction : s.fracSeen = false) (text : List Char) :
    turn s ('T' :: text) =
      if s.sawT = true ∨ text = [] then none else some ({ s with sawT := true, inTime := true }, text) := by
  cases saw : s.sawT <;> cases text <;> simp [turn, noFraction, saw]

theorem ScanAt.afterT (atPlace : ScanAt s place) :
    ScanAt { s with sawT := true, inTime := true } { place with inTime := true } :=
  ⟨rfl, rfl, atPlace.fracSeen, atPlace.last, atPlace.first⟩

/-- The loop accepts every text of the grammar, with its milliseconds in 64 bits. -/
theorem loop_text {ps : List Part} (follows : Follows place ps) (atPlace : ScanAt s place) {fuel : Nat}
    (enough : (textFrom place.inTime ps).length ≤ fuel) :
    loop fuel s (textFrom place.inTime ps) = some (s.totalMs + Int64.ofNat (ps.map Part.milliseconds).sum) := by
  induction follows generalizing s fuel with
  | nil place => simp [textFrom, loop]
  | @cons place p ps allows follows ih =>
    have written : 0 < p.text.length := List.length_pos_iff.mpr p.text_ne
    have total : s.totalMs + Int64.ofNat ((p :: ps).map Part.milliseconds).sum =
        s.totalMs + Int64.ofNat p.milliseconds + Int64.ofNat (ps.map Part.milliseconds).sum := by
      rw [List.map_cons, List.sum_cons, Int64.ofNat_add, Int64.add_assoc]
    rcases textFrom_cons allows ps with ⟨side, here⟩ | ⟨date, time, here⟩
    · obtain ⟨next, atNext, added, run⟩ := loop_part atPlace allows (side.trans atPlace.inTime.symm)
      rw [here, List.length_append] at enough
      obtain ⟨fuel, rfl⟩ : ∃ f, fuel = f + 1 := ⟨fuel - 1, by omega⟩
      rw [here, run, ih atNext (by omega), added, total]
    · obtain ⟨next, atNext, added, run⟩ := loop_part atPlace.afterT (allows.afterT time) time
      rw [Place.after_T time] at atNext
      have turned : turn s ('T' :: (p.text ++ textFrom (place.after p).inTime ps)) =
          some ({ s with sawT := true, inTime := true }, p.text ++ textFrom (place.after p).inTime ps) := by
        rw [turn_T (atPlace.fracSeen.trans allows.isOpen), if_neg]
        simp [atPlace.sawT, date, p.text_ne]
      rw [here, List.length_cons, List.length_append] at enough
      obtain ⟨fuel, rfl⟩ : ∃ f, fuel = f + 1 + 1 := ⟨fuel - 2, by omega⟩
      rw [here, loop_of_turn turned, run, ih atNext (by omega), added, total]

theorem readFraction_eq_some {tail : List Char} (found : readFraction text = some (frac, tail)) :
    ∃ digits : List Char, (∀ c ∈ digits, c.isDigit) ∧ frac.isSome = !digits.isEmpty ∧
      text = (if digits.isEmpty then [] else '.' :: digits) ++ tail := by
  unfold readFraction at found
  split at found
  · rename_i rest
    split at found
    · cases found
    · rename_i digit
      cases found
      have some : (rest.takeWhile Char.isDigit).isEmpty = false := by
        cases rest with
        | nil => exact absurd rfl digit
        | cons c rest =>
          have isDigit : c.isDigit = true := by simpa [startsWithDigit] using digit
          simp [isDigit]
      refine ⟨rest.takeWhile Char.isDigit, fun c mem => List.mem_takeWhile_imp mem, by simp [some], ?_⟩
      simp [some]
  · cases found
    exact ⟨[], by simp, rfl, rfl⟩

theorem readPart_eq_some (atPlace : ScanAt s place) (isOpen : place.closed = false)
    (digit : startsWithDigit text = true) (found : readPart s text = some (next, rest)) :
    ∃ p : Part, place.Allows p ∧ p.unit.isTime = place.inTime ∧ text = p.text ++ rest ∧
      ScanAt next (place.after p) := by
  unfold readPart at found
  split at found
  · cases found
  · cases found
  · rename_i frac c tail fraction
    obtain ⟨found, add, pair⟩ := Option.map_eq_some_iff.mp found
    cases pair
    obtain ⟨u, rfl, side, ⟨later, weekFirst⟩, rfl⟩ := add_eq_some atPlace add
    obtain ⟨digits, isDigit, isSome, after⟩ := readFraction_eq_some fraction
    obtain ⟨n, rfl, written⟩ := exists_numeral digit isDigit after
    refine ⟨⟨n, u⟩, ⟨isOpen, ?_, later, weekFirst⟩, side.trans atPlace.inTime, ?_, ?_⟩
    · intro inTime
      exact side.trans (atPlace.inTime.trans inTime)
    · rw [written]
      simp [Part.text]
    · exact scanAt_added (p := ⟨n, u⟩) atPlace side _ isSome

theorem turn_eq_some (atPlace : ScanAt s place) (turned : turn s text = some (next, rest)) :
    (place.inTime = false ∧ text = 'T' :: rest ∧ rest ≠ [] ∧ ScanAt next { place with inTime := true }) ∨
      ∃ p : Part, place.Allows p ∧ p.unit.isTime = place.inTime ∧ text = p.text ++ rest ∧
        ScanAt next (place.after p) := by
  have noFraction : s.fracSeen = false := by
    by_contra seen
    simp [turn, seen] at turned
  cases text with
  | nil => simp [turn] at turned
  | cons c text =>
    by_cases isT : c = 'T'
    · subst isT
      rw [turn_T noFraction] at turned
      split at turned
      · cases turned
      · rename_i fine
        obtain ⟨notSaw, some⟩ := not_or.mp fine
        cases turned
        refine .inl ⟨?_, rfl, some, atPlace.afterT⟩
        rw [← atPlace.sawT]
        exact eq_false_of_ne_true notSaw
    · by_cases digit : c.isDigit = true
      · rw [turn_digit noFraction (show startsWithDigit (c :: text) = true from digit)] at turned
        exact .inr (readPart_eq_some atPlace (atPlace.fracSeen.symm.trans noFraction) digit turned)
      · simp [turn, noFraction, digit] at turned

theorem exists_of_loop {fuel : Nat} (atPlace : ScanAt s place) {total : Int64}
    (accepted : loop fuel s text = some total) : ∃ ps, Follows place ps ∧ text = textFrom place.inTime ps := by
  induction fuel generalizing s place text with
  | zero =>
    cases text with
    | nil => exact ⟨[], .nil place, rfl⟩
    | cons c text => cases accepted
  | succ fuel ih =>
    cases text with
    | nil => exact ⟨[], .nil place, rfl⟩
    | cons c text =>
      cases turned : turn s (c :: text) with
      | none => simp [loop, turned] at accepted
      | some pair =>
        obtain ⟨next, rest⟩ := pair
        rw [loop_of_turn turned] at accepted
        rcases turn_eq_some atPlace turned with ⟨date, read, some, atNext⟩ | ⟨p, allows, side, read, atNext⟩
        · rw [read]
          exact exists_of_T date some (ih atNext accepted)
        · rw [read]
          exact exists_of_part allows side (ih atNext accepted)

end Iso8601Duration
end WeftWarp
