import WeftWarp.DurationReader
import WeftWarp.Theorems.DurationScan

/-! # What the loop of the duration readers reads

Whatever a reader keeps, its loop takes the turns of `tw_parse_duration_ms`: it reads the parts of a duration for as
long as they may follow. -/

namespace WeftWarp
namespace Iso8601Duration
open TwDuration

/-! ## The loop of `tw_parse_duration_ms` -/

/-- The variables of the loop, from the flags and the total. -/
def withTotal (s : Flags) (totalMs : Int64) : Scan :=
  ⟨totalMs, s.inTime, s.sawT, s.fracSeen, s.sawW, s.sawAny, s.lastRank⟩

theorem add_withTotal (s : Flags) (total whole : Int64) (frac : Option Int64) (c : Char) :
    (withTotal s total).add whole frac c = (s.accept frac.isSome c).map fun next =>
      withTotal next.1 (match frac with
        | none => total + whole * next.2
        | some milli => total + whole * next.2 + milli * (next.2 / 1000)) := by
  unfold Scan.add Flags.accept
  have classified : classify (withTotal s total).inTime c = classify s.inTime c := rfl
  rw [classified]
  cases classify s.inTime c with
  | none => rfl
  | some found =>
    simp only [apply_ite (Option.map _), Option.map_none, Option.map_some]
    rfl

theorem readFraction_plain {after : List Char} (plain : ∀ rest, after ≠ '.' :: rest) :
    readFraction after = some (none, after) := by
  unfold readFraction
  split
  · rename_i rest
    exact absurd rfl (plain rest)
  · rfl

theorem readFraction_dot (rest : List Char) :
    readFraction ('.' :: rest) =
      if startsWithDigit rest = true then
        some (some (fracMilli (rest.takeWhile Char.isDigit)), rest.dropWhile Char.isDigit)
      else none := by
  cases digit : startsWithDigit rest <;> simp [readFraction, digit]

section
variable {σ : Type} (r : Reader σ) (s : Flags) (kept : σ) {text : List Char}

theorem readPart_dot {rest : List Char} (after : text.dropWhile Char.isDigit = '.' :: rest) :
    r.readPart s kept text =
      let whole := text.takeWhile Char.isDigit
      if startsWithDigit rest = true then
        r.readUnit s (r.fraction (r.whole kept whole) (rest.takeWhile Char.isDigit)) whole
          (some (rest.takeWhile Char.isDigit)) (rest.dropWhile Char.isDigit)
      else (none, r.whole kept whole) := by
  unfold Reader.readPart
  rw [after]
  cases digit : startsWithDigit rest <;> simp [digit]

theorem readPart_plain (plain : ∀ rest, text.dropWhile Char.isDigit ≠ '.' :: rest) :
    r.readPart s kept text =
      r.readUnit s (r.whole kept (text.takeWhile Char.isDigit)) (text.takeWhile Char.isDigit) none
        (text.dropWhile Char.isDigit) := by
  unfold Reader.readPart
  split
  · rename_i rest after
    exact absurd after (plain rest)
  · rfl

theorem readUnit_fixed (total : Int64) (whole : List Char) (frac : Option (List Char)) (text : List Char) :
    (match text with
      | [] => none
      | c :: rest => ((withTotal s total).add (readDigits whole) (frac.map fracMilli) c).map (·, rest)) =
      (fixed.readUnit s total whole frac text).1.map fun next =>
        (withTotal next.1 (fixed.readUnit s total whole frac text).2, next.2) := by
  cases text with
  | nil => rfl
  | cons c rest =>
    dsimp only [Reader.readUnit]
    rw [add_withTotal, Option.isSome_map]
    cases s.accept frac.isSome c with
    | none => rfl
    | some next => cases frac <;> rfl

theorem readPart_fixed (total : Int64) (text : List Char) :
    TwDuration.readPart (withTotal s total) text = (fixed.readPart s total text).1.map fun next =>
      (withTotal next.1 (fixed.readPart s total text).2, next.2) := by
  unfold TwDuration.readPart
  by_cases dot : ∃ rest, text.dropWhile Char.isDigit = '.' :: rest
  · obtain ⟨rest, after⟩ := dot
    rw [readPart_dot fixed s total after, after, readFraction_dot]
    dsimp only
    by_cases digit : startsWithDigit rest = true
    · rw [if_pos digit, if_pos digit, ← readUnit_fixed]
      cases rest.dropWhile Char.isDigit <;> rfl
    · rw [if_neg digit, if_neg digit]
      rfl
  · have plain : ∀ rest, text.dropWhile Char.isDigit ≠ '.' :: rest := fun rest after => dot ⟨rest, after⟩
    rw [readPart_plain fixed s total plain, readFraction_plain plain, ← readUnit_fixed]
    cases text.dropWhile Char.isDigit <;> rfl

variable {s}

theorem readerTurn_T (noFraction : s.fracSeen = false) (text : List Char) :
    r.turn s kept ('T' :: text) =
      (if s.sawT = true ∨ text = [] then none else some ({ s with sawT := true, inTime := true }, text), kept) := by
  cases saw : s.sawT <;> cases text <;> simp [Reader.turn, noFraction, saw]

theorem readerTurn_digit (noFraction : s.fracSeen = false) (digit : startsWithDigit text = true) :
    r.turn s kept text = r.readPart s kept text := by
  unfold Reader.turn
  rw [noFraction, if_neg Bool.false_ne_true]
  cases text with
  | nil => cases digit
  | cons c text =>
    have isDigit : c.isDigit = true := digit
    split
    · contradiction
    · rename_i head
      cases head
      exact absurd isDigit (by decide)
    · rename_i head
      cases head
      rw [isDigit]
      rfl

variable (s)

theorem turn_fixed (total : Int64) (text : List Char) :
    TwDuration.turn (withTotal s total) text = (fixed.turn s total text).1.map fun next =>
      (withTotal next.1 (fixed.turn s total text).2, next.2) := by
  rcases Bool.eq_false_or_eq_true s.fracSeen with closed | noFraction
  · simp [TwDuration.turn, Reader.turn, withTotal, closed]
  cases text with
  | nil => simp [TwDuration.turn, Reader.turn]
  | cons c text =>
    by_cases isT : c = 'T'
    · subst isT
      rw [turn_T noFraction, readerTurn_T fixed total noFraction]
      have sawT : (withTotal s total).sawT = s.sawT := rfl
      rw [sawT]
      split <;> rfl
    · have noFraction' : (withTotal s total).fracSeen = false := noFraction
      rcases Bool.eq_false_or_eq_true c.isDigit with digit | notDigit
      · have starts : startsWithDigit (c :: text) = true := digit
        rw [turn_digit noFraction' starts, readerTurn_digit fixed total noFraction starts, readPart_fixed]
      · simp [TwDuration.turn, Reader.turn, noFraction, noFraction', notDigit]

/-- The loop of `tw_parse_duration_ms` is the one of the reader that adds up fixed units. -/
theorem loop_fixed (fuel : Nat) (total : Int64) (text : List Char) :
    TwDuration.loop fuel (withTotal s total) text =
      if (fixed.loop fuel s total text).1 then some (fixed.loop fuel s total text).2 else none := by
  induction fuel generalizing s total text with
  | zero => cases text <;> rfl
  | succ fuel ih =>
    cases text with
    | nil => rfl
    | cons c text =>
      have turned := turn_fixed s total (c :: text)
      unfold TwDuration.loop Reader.loop
      rw [turned]
      rcases fixed.turn s total (c :: text) with ⟨_ | next, total⟩
      · rfl
      · exact ih next.1 total next.2

end

/-! ## One turn -/

/-- The flags say where the loop stands. -/
def FlagsAt (s : Flags) (place : Place) : Prop := ScanAt (withTotal s 0) place

variable {place last : Place} {ps : List Part} {rest text : List Char}

theorem flagsAt_of_total {s : Flags} {total : Int64} (atPlace : ScanAt (withTotal s total) place) : FlagsAt s place :=
  ⟨atPlace.inTime, atPlace.sawT, atPlace.fracSeen, atPlace.last, atPlace.first⟩

theorem flagsAt_start : FlagsAt {} {} := scanAt_start

section
variable {σ : Type} (r : Reader σ) {s : Flags}

/-- What the digits of a number leave. -/
def readNumber (kept : σ) (whole : List Char) : Option (List Char) → σ
  | none => r.whole kept whole
  | some digits => r.fraction (r.whole kept whole) digits

/-- What the digits and the letter of a part are read as. -/
def Part.reading (p : Part) : Reading :=
  ⟨p.number.whole, if p.number.frac.isEmpty then none else some p.number.frac, p.unit.isTime, p.unit.letter,
    Int64.ofNat (unitMilliseconds p.unit)⟩

variable {p : Part} {τ : Type}

theorem reading_plain (plain : p.number.frac = []) : p.reading.frac = none := by
  simp [Part.reading, plain]

theorem reading_fraction (fraction : p.number.frac ≠ []) : p.reading.frac = some p.number.frac := by
  simp [Part.reading, fraction]

/-- What a part leaves. -/
def readsPart (kept : σ) (p : Part) : σ :=
  r.part (readNumber r kept p.reading.whole p.reading.frac) p.reading

/-- What is left where the loop returns -1: the digits at hand may have been read. -/
inductive Stopped (kept : σ) (closed : Bool) (text : List Char) : σ → Prop
  | before : closed = true ∨ startsWithDigit text = false → Stopped kept closed text kept
  | number (frac : Option (List Char)) : closed = false → startsWithDigit text = true →
    (∀ digits ∈ frac, ∀ c ∈ digits, c.isDigit) →
    Stopped kept closed text (readNumber r kept (text.takeWhile Char.isDigit) frac)

theorem readUnit_fst (r' : Reader τ) (kept : σ) (kept' : τ) (whole : List Char) (frac : Option (List Char))
    (text : List Char) : (r.readUnit s kept whole frac text).1 = (r'.readUnit s kept' whole frac text).1 := by
  cases text with
  | nil => rfl
  | cons c rest =>
    dsimp only [Reader.readUnit]
    cases s.accept frac.isSome c <;> rfl

variable {kept : σ}

theorem readUnit_of_none {whole : List Char} {frac : Option (List Char)}
    (rejected : (r.readUnit s kept whole frac text).1 = none) : (r.readUnit s kept whole frac text).2 = kept := by
  cases text with
  | nil => rfl
  | cons c rest =>
    dsimp only [Reader.readUnit] at rejected ⊢
    cases accepted : s.accept frac.isSome c with
    | none => rfl
    | some next =>
      rw [accepted] at rejected
      cases rejected

theorem readPart_fst (r' : Reader τ) (kept : σ) (kept' : τ) (text : List Char) :
    (r.readPart s kept text).1 = (r'.readPart s kept' text).1 := by
  by_cases dot : ∃ rest, text.dropWhile Char.isDigit = '.' :: rest
  · obtain ⟨rest, after⟩ := dot
    rw [readPart_dot r s kept after, readPart_dot r' s kept' after]
    dsimp only
    split
    · exact readUnit_fst r r' _ _ _ _ _
    · rfl
  · have plain : ∀ rest, text.dropWhile Char.isDigit ≠ '.' :: rest := fun rest after => dot ⟨rest, after⟩
    rw [readPart_plain r s kept plain, readPart_plain r' s kept' plain]
    exact readUnit_fst r r' _ _ _ _ _

theorem readPart_of_none (rejected : (r.readPart s kept text).1 = none) :
    ∃ frac : Option (List Char), (∀ digits ∈ frac, ∀ c ∈ digits, c.isDigit) ∧
      (r.readPart s kept text).2 = readNumber r kept (text.takeWhile Char.isDigit) frac := by
  by_cases dot : ∃ rest, text.dropWhile Char.isDigit = '.' :: rest
  · obtain ⟨rest, after⟩ := dot
    rw [readPart_dot r s kept after] at rejected ⊢
    dsimp only at rejected ⊢
    split at rejected
    · rename_i digit
      rw [if_pos digit, readUnit_of_none r rejected]
      refine ⟨some (rest.takeWhile Char.isDigit), ?_, rfl⟩
      rintro digits ⟨⟩ c mem
      exact List.mem_takeWhile_imp mem
    · rename_i notDigit
      rw [if_neg notDigit]
      exact ⟨none, by simp, rfl⟩
  · have plain : ∀ rest, text.dropWhile Char.isDigit ≠ '.' :: rest := fun rest after => dot ⟨rest, after⟩
    rw [readPart_plain r s kept plain] at rejected ⊢
    rw [readUnit_of_none r rejected]
    exact ⟨none, by simp, rfl⟩

variable {c : Char} {next : Flags}

theorem turn_other (notT : c ≠ 'T') (notDigit : c.isDigit = false) : r.turn s kept (c :: text) = (none, kept) := by
  cases closed : s.fracSeen <;> simp [Reader.turn, closed, notDigit]

theorem turn_fst (r' : Reader τ) (kept : σ) (kept' : τ) (text : List Char) :
    (r.turn s kept text).1 = (r'.turn s kept' text).1 := by
  rcases Bool.eq_false_or_eq_true s.fracSeen with closed | noFraction
  · simp [Reader.turn, closed]
  cases text with
  | nil => simp [Reader.turn]
  | cons c text =>
    by_cases isT : c = 'T'
    · subst isT
      rw [readerTurn_T r kept noFraction, readerTurn_T r' kept' noFraction]
    · rcases Bool.eq_false_or_eq_true c.isDigit with digit | notDigit
      · have starts : startsWithDigit (c :: text) = true := digit
        rw [readerTurn_digit r kept noFraction starts, readerTurn_digit r' kept' noFraction starts]
        exact readPart_fst r r' kept kept' _
      · rw [turn_other r isT notDigit, turn_other r' isT notDigit]

theorem turn_of_none (rejected : (r.turn s kept text).1 = none) :
    Stopped r kept s.fracSeen text (r.turn s kept text).2 := by
  rcases Bool.eq_false_or_eq_true s.fracSeen with closed | noFraction
  · have same : (r.turn s kept text).2 = kept := by simp [Reader.turn, closed]
    rw [same]
    exact .before (.inl closed)
  cases text with
  | nil =>
    have same : (r.turn s kept []).2 = kept := by simp [Reader.turn]
    rw [same]
    exact .before (.inr rfl)
  | cons c text =>
    by_cases isT : c = 'T'
    · subst isT
      rw [readerTurn_T r kept noFraction]
      exact .before (.inr rfl)
    · rcases Bool.eq_false_or_eq_true c.isDigit with digit | notDigit
      · have starts : startsWithDigit (c :: text) = true := digit
        rw [readerTurn_digit r kept noFraction starts] at rejected ⊢
        obtain ⟨frac, isDigit, left⟩ := readPart_of_none r rejected
        rw [left]
        exact .number frac noFraction starts isDigit
      · rw [turn_other r isT notDigit]
        exact .before (.inr notDigit)

theorem accept_unitMs {hasFrac : Bool} {unitMs : Int64} (accepted : s.accept hasFrac c = some (next, unitMs)) :
    ∃ rank, classify s.inTime c = some (rank, unitMs) := by
  unfold Flags.accept at accepted
  cases classified : classify s.inTime c with
  | none =>
    rw [classified] at accepted
    cases accepted
  | some found =>
    rw [classified] at accepted
    dsimp only at accepted
    split at accepted
    · cases accepted
    split at accepted
    · cases accepted
    split at accepted
    · cases accepted
    · cases accepted
      exact ⟨_, rfl⟩

theorem accept_allowed (atPlace : FlagsAt s place) (allows : place.Allows p) (side : p.unit.isTime = place.inTime) :
    ∃ next, FlagsAt next (place.after p) ∧
      s.accept p.reading.frac.isSome p.unit.letter = some (next, p.reading.unitMs) := by
  have here : p.unit.isTime = (withTotal s 0).inTime := side.trans atPlace.inTime.symm
  let frac : Option Int64 := if p.number.frac.isEmpty then none else some 0
  have isSome : frac.isSome = p.reading.frac.isSome := by
    unfold frac Part.reading
    split <;> rfl
  have fraction : frac.isSome = !p.number.frac.isEmpty := by
    unfold frac
    cases p.number.frac.isEmpty <;> rfl
  have added := add_letter atPlace here 0 frac
  rw [if_pos ⟨allows.later, allows.weekFirst⟩, add_withTotal, isSome] at added
  obtain ⟨⟨next, unitMs⟩, accepted, same⟩ := Option.map_eq_some_iff.mp added
  have atNext := scanAt_added atPlace here 0 fraction
  rw [← same] at atNext
  obtain ⟨rank, classified⟩ := accept_unitMs accepted
  have known := classify_eq_some.mpr ⟨p.unit, rfl, here, rfl, rfl⟩
  cases classified.symm.trans known
  exact ⟨next, flagsAt_of_total atNext, accepted⟩

/-- A turn reads one part. -/
theorem turn_part (atPlace : FlagsAt s place) (allows : place.Allows p) (side : p.unit.isTime = place.inTime) :
    ∃ next, FlagsAt next (place.after p) ∧
      ∀ kept rest, r.turn s kept (p.text ++ rest) = (some (next, rest), readsPart r kept p) := by
  obtain ⟨next, atNext, accepted⟩ := accept_allowed atPlace allows side
  refine ⟨next, atNext, fun kept rest => ?_⟩
  have noFraction : s.fracSeen = false := atPlace.fracSeen.trans allows.isOpen
  have digits := p.number.whole_digits
  have inTime : s.inTime = p.unit.isTime := atPlace.inTime.trans side.symm
  have read : r.readUnit s (readNumber r kept p.reading.whole p.reading.frac) p.reading.whole p.reading.frac
      (p.unit.letter :: rest) = (some (next, rest), readsPart r kept p) := by
    dsimp only [Reader.readUnit]
    rw [accepted, inTime]
    rfl
  have stop : startsWithDigit (p.unit.letter :: rest) = false := letter_not_digit p.unit
  by_cases plain : p.number.frac = []
  · have text : p.text ++ rest = p.number.whole ++ p.unit.letter :: rest := by simp [Part.text, Numeral.text, plain]
    have notDot : ∀ tail, (p.number.whole ++ p.unit.letter :: rest).dropWhile Char.isDigit ≠ '.' :: tail := by
      intro tail
      rw [dropWhile_digits digits stop]
      intro same
      have dot := (List.cons.inj same).1
      cases unit : p.unit <;> rw [unit] at dot <;> exact absurd dot (by decide)
    rw [reading_plain plain] at read
    rw [text, readerTurn_digit r kept noFraction (startsWithDigit_append digits p.number.whole_ne),
      readPart_plain r s kept notDot, takeWhile_digits digits stop, dropWhile_digits digits stop]
    exact read
  · have text : p.text ++ rest = p.number.whole ++ '.' :: (p.number.frac ++ p.unit.letter :: rest) := by
      simp [Part.text, Numeral.text, plain]
    have dot : startsWithDigit ('.' :: (p.number.frac ++ p.unit.letter :: rest)) = false := rfl
    rw [reading_fraction plain] at read
    rw [text, readerTurn_digit r kept noFraction (startsWithDigit_append digits p.number.whole_ne),
      readPart_dot r s kept (dropWhile_digits digits dot), takeWhile_digits digits dot,
      takeWhile_digits p.number.frac_digits stop, dropWhile_digits p.number.frac_digits stop]
    rw [if_pos (startsWithDigit_append p.number.frac_digits plain)]
    exact read

theorem turn_time (atPlace : FlagsAt s place) (isOpen : place.closed = false) (date : place.inTime = false) :
    ∃ next, FlagsAt next { place with inTime := true } ∧
      ∀ kept text, text ≠ [] → r.turn s kept ('T' :: text) = (some (next, text), kept) := by
  refine ⟨{ s with sawT := true, inTime := true }, atPlace.afterT, fun kept text some => ?_⟩
  have notSaw : s.sawT = false := atPlace.sawT.trans date
  rw [readerTurn_T r kept (atPlace.fracSeen.trans isOpen), if_neg]
  rw [notSaw]
  rintro (saw | empty)
  · cases saw
  · exact some empty

theorem turn_of_some (atPlace : FlagsAt s place) (turned : (r.turn s kept text).1 = some (next, rest)) :
    place.closed = false ∧
      ((place.inTime = false ∧ text = 'T' :: rest ∧ rest ≠ []) ∨
        ∃ p : Part, place.Allows p ∧ p.unit.isTime = place.inTime ∧ text = p.text ++ rest) := by
  have isOpen : place.closed = false := by
    rw [← atPlace.fracSeen]
    by_contra seen
    have closed : s.fracSeen = true := eq_true_of_ne_false seen
    simp [Reader.turn, closed] at turned
  rw [turn_fst r fixed kept 0] at turned
  have scanned := turn_fixed s 0 text
  rw [turned] at scanned
  refine ⟨isOpen, ?_⟩
  rcases turn_eq_some atPlace scanned with ⟨date, read, some, -⟩ | ⟨p, allows, side, read, -⟩
  · exact .inl ⟨date, read, some⟩
  · exact .inr ⟨p, allows, side, read⟩

end

/-! ## The loop -/

/-- From `place` on, a reader can read the parts `ps` of a text, and is then at `last` with `rest` to come. -/
inductive Reads : Place → List Char → List Part → Place → List Char → Prop
  | done (place : Place) (rest : List Char) : Reads place rest [] place rest
  | part {place last : Place} {p : Part} {ps : List Part} {text rest : List Char} : place.Allows p →
    p.unit.isTime = place.inTime → Reads (place.after p) text ps last rest →
    Reads place (p.text ++ text) (p :: ps) last rest
  | time {place last : Place} {ps : List Part} {text rest : List Char} : place.closed = false →
    place.inTime = false → text ≠ [] → Reads { place with inTime := true } text ps last rest →
    Reads place ('T' :: text) ps last rest

section
variable {σ : Type} (r : Reader σ) {s : Flags}

theorem loop_of_turned {next : Flags} {kept left : σ} (turned : r.turn s kept text = (some (next, rest), left))
    (fuel : Nat) : r.loop (fuel + 1) s kept text = r.loop fuel next left rest := by
  cases text with
  | nil => simp [Reader.turn] at turned
  | cons c text => simp only [Reader.loop, turned]

variable {fuel : Nat}

/-- The loop reads whatever can be read. -/
theorem loop_of_reads (reads : Reads place text ps last rest) (atPlace : FlagsAt s place)
    (enough : text.length ≤ fuel) :
    ∃ next left, FlagsAt next last ∧ rest.length ≤ left ∧
      ∀ kept, r.loop fuel s kept text = r.loop left next (ps.foldl (readsPart r) kept) rest := by
  induction reads generalizing s fuel with
  | done place rest => exact ⟨s, fuel, atPlace, enough, fun _ => rfl⟩
  | @part place last p ps text rest allows side _ ih =>
    obtain ⟨next, atNext, turned⟩ := turn_part r atPlace allows side
    have written : 0 < p.text.length := List.length_pos_iff.mpr p.text_ne
    rw [List.length_append] at enough
    obtain ⟨fuel, rfl⟩ : ∃ f, fuel = f + 1 := ⟨fuel - 1, by omega⟩
    obtain ⟨final, left, atFinal, short, run⟩ := ih atNext (show text.length ≤ fuel by omega)
    refine ⟨final, left, atFinal, short, fun kept => ?_⟩
    rw [List.foldl_cons, ← run]
    exact loop_of_turned r (turned kept text) fuel
  | @time place last ps text rest isOpen date some _ ih =>
    obtain ⟨next, atNext, turned⟩ := turn_time r atPlace isOpen date
    rw [List.length_cons] at enough
    obtain ⟨fuel, rfl⟩ : ∃ f, fuel = f + 1 := ⟨fuel - 1, by omega⟩
    obtain ⟨final, left, atFinal, short, run⟩ := ih atNext (show text.length ≤ fuel by omega)
    refine ⟨final, left, atFinal, short, fun kept => ?_⟩
    rw [← run]
    exact loop_of_turned r (turned kept text some) fuel

/-- The loop reads parts until the text ends or the next turn returns -1. -/
theorem exists_reads (atPlace : FlagsAt s place) (kept : σ) (enough : text.length ≤ fuel) :
    ∃ ps last rest, Reads place text ps last rest ∧
      ((rest = [] ∧ r.loop fuel s kept text = (true, ps.foldl (readsPart r) kept)) ∨
        ((r.loop fuel s kept text).1 = false ∧
          Stopped r (ps.foldl (readsPart r) kept) last.closed rest (r.loop fuel s kept text).2)) := by
  induction fuel generalizing place s kept text with
  | zero =>
    obtain rfl := List.length_eq_zero_iff.mp (Nat.le_zero.mp enough)
    exact ⟨[], place, [], .done place [], .inl ⟨rfl, rfl⟩⟩
  | succ fuel ih =>
    cases text with
    | nil => exact ⟨[], place, [], .done place [], .inl ⟨rfl, rfl⟩⟩
    | cons c text =>
      cases turned : (r.turn s kept (c :: text)).1 with
      | none =>
        have stopped := turn_of_none r turned
        rw [show s.fracSeen = place.closed from atPlace.fracSeen] at stopped
        have ran : r.loop (fuel + 1) s kept (c :: text) = (false, (r.turn s kept (c :: text)).2) := by
          rw [Reader.loop]
          rcases pair : r.turn s kept (c :: text) with ⟨_ | next, left⟩
          · rfl
          · rw [pair] at turned
            cases turned
        rw [ran]
        exact ⟨[], place, c :: text, .done place _, .inr ⟨rfl, stopped⟩⟩
      | some found =>
        obtain ⟨next, rest⟩ := found
        obtain ⟨isOpen, ⟨date, read, some⟩ | ⟨p, allows, side, read⟩⟩ := turn_of_some r atPlace turned
        · obtain ⟨next, atNext, turned⟩ := turn_time r atPlace isOpen date
          rw [read, List.length_cons] at enough
          obtain ⟨ps, last, left, reads, outcome⟩ := ih atNext kept (Nat.le_of_succ_le_succ enough)
          rw [read, loop_of_turned r (turned kept rest some)]
          exact ⟨ps, last, left, .time isOpen date some reads, outcome⟩
        · obtain ⟨next, atNext, turned⟩ := turn_part r atPlace allows side
          have written : 0 < p.text.length := List.length_pos_iff.mpr p.text_ne
          rw [read, List.length_append] at enough
          obtain ⟨ps, last, left, reads, outcome⟩ :=
            ih atNext (readsPart r kept p) (show rest.length ≤ fuel by omega)
          rw [read, loop_of_turned r (turned kept rest)]
          exact ⟨p :: ps, last, left, .part allows side reads, outcome⟩

end

/-! ## Durations and their prefixes -/

theorem follows_of_T (follows : Follows { place with inTime := true } ps) : Follows place ps := by
  cases follows with
  | nil => exact .nil place
  | @cons _ p ps allows follows =>
    have time : p.unit.isTime = true := allows.side rfl
    rw [Place.after_T time] at follows
    exact .cons ⟨allows.isOpen, fun _ => time, allows.later, allows.weekFirst⟩ follows

theorem Reads.follows (reads : Reads place text ps last rest) : Follows place ps := by
  induction reads with
  | done place rest => exact .nil place
  | part allows _ _ ih => exact .cons allows ih
  | time _ _ _ _ ih => exact follows_of_T ih

theorem Reads.trans {middle : Place} {between : List Char} {qs : List Part}
    (first : Reads place text ps middle between) (second : Reads middle between qs last rest) :
    Reads place text (ps ++ qs) last rest := by
  induction first with
  | done => exact second
  | part allows side _ ih => exact .part allows side (ih second)
  | time isOpen date some _ ih => exact .time isOpen date some (ih second)

/-- Where a reader stands behind the parts. -/
def Place.behind (place : Place) (ps : List Part) : Place := ps.foldl Place.after place

theorem Place.behind_T {p : Part} (time : p.unit.isTime = true) :
    Place.behind { place with inTime := true } (p :: ps) = place.behind (p :: ps) := by
  rw [behind, List.foldl_cons, Place.after_T time]
  rfl

/-- What is read is the text of the parts, but a `T` may stand at its end. -/
theorem Reads.spelled (reads : Reads place text ps last rest) :
    (last = place.behind ps ∧ text = textFrom place.inTime ps ++ rest) ∨
      ((place.behind ps).inTime = false ∧ (place.behind ps).closed = false ∧ rest ≠ [] ∧
        last = { place.behind ps with inTime := true } ∧ text = textFrom place.inTime ps ++ 'T' :: rest) := by
  induction reads with
  | done place rest => exact .inl ⟨rfl, rfl⟩
  | @part place last p ps text rest allows side reads ih =>
    have here : textFrom place.inTime (p :: ps) = p.text ++ textFrom (place.after p).inTime ps := by
      simp [textFrom, Place.after, side]
    rw [here]
    rcases ih with ⟨atEnd, read⟩ | ⟨date, isOpen, some, atEnd, read⟩
    · exact .inl ⟨atEnd, by rw [read, List.append_assoc]⟩
    · exact .inr ⟨date, isOpen, some, atEnd, by rw [read, List.append_assoc]⟩
  | @time place last ps text rest isOpen date some reads ih =>
    cases ps with
    | nil =>
      rcases ih with ⟨atEnd, read⟩ | ⟨inTime, -⟩
      · have same : text = rest := read
        rw [same] at some ⊢
        exact .inr ⟨date, isOpen, some, atEnd, by rw [date]; rfl⟩
      · cases inTime
    | cons p ps =>
      cases reads.follows with
      | cons allows follows =>
        have time : p.unit.isTime = true := allows.side rfl
        have here : 'T' :: textFrom true (p :: ps) = textFrom place.inTime (p :: ps) := by
          simp [textFrom, date, time]
        rw [Place.behind_T time, ← here] at *
        rcases ih with ⟨atEnd, read⟩ | ⟨inTime, isOpen, some, atEnd, read⟩
        · exact .inl ⟨atEnd, by rw [read]; rfl⟩
        · exact .inr ⟨inTime, isOpen, some, atEnd, by rw [read]; rfl⟩

theorem reads_textFrom (follows : Follows place ps) (rest : List Char) :
    Reads place (textFrom place.inTime ps ++ rest) ps (place.behind ps) rest := by
  induction follows with
  | nil place => exact .done place rest
  | @cons place p ps allows follows ih =>
    rcases textFrom_cons allows ps with ⟨side, here⟩ | ⟨date, time, here⟩
    · rw [here, List.append_assoc]
      exact .part allows side ih
    · rw [here, List.cons_append, List.append_assoc]
      refine .time allows.isOpen date (by simp [p.text_ne]) (.part (allows.afterT time) time ?_)
      rw [Place.after_T time]
      exact ih

section
variable {σ : Type} (r : Reader σ) (kept : σ)

theorem run_ofList (rest : List Char) :
    r.run kept (String.ofList ('P' :: rest)) = r.loop rest.length {} kept rest := by
  unfold Reader.run
  rw [String.toList_ofList]
  cases rest <;> rfl

theorem run_text (d : Duration) : r.run kept d.text = (true, d.parts.foldl (readsPart r) kept) := by
  have reads := reads_textFrom d.follows []
  rw [List.append_nil] at reads
  obtain ⟨next, left, -, -, ran⟩ := loop_of_reads r reads flagsAt_start (Nat.le_refl _)
  rw [d.text_eq, run_ofList, ran]
  cases left <;> rfl

variable {s : String}

theorem run_of_rejected (rejected : ∀ d : Duration, d.text ≠ s) :
    (r.run kept s).1 = false ∧
      ((s.toList.head? ≠ some 'P' ∧ (r.run kept s).2 = kept) ∨
        ∃ text ps last rest, s = String.ofList ('P' :: text) ∧ Reads {} text ps last rest ∧
          Stopped r (ps.foldl (readsPart r) kept) last.closed rest (r.run kept s).2) := by
  cases split : s.toList with
  | nil =>
    have ran : r.run kept s = (false, kept) := by rw [Reader.run, split]
    rw [ran]
    exact ⟨rfl, .inl ⟨by simp, rfl⟩⟩
  | cons c text =>
    by_cases starts : c = 'P'
    · obtain rfl : s = String.ofList ('P' :: text) := by rw [← starts, ← split, String.ofList_toList]
      rw [run_ofList]
      obtain ⟨ps, last, rest, reads, ⟨rfl, ran⟩ | ⟨failed, stopped⟩⟩ :=
        exists_reads r flagsAt_start kept (Nat.le_refl text.length)
      · obtain ⟨d, rfl⟩ := exists_of_follows reads.follows
        rcases reads.spelled with ⟨-, read⟩ | ⟨-, -, some, -⟩
        · rw [List.append_nil] at read
          exact absurd (d.text_eq.trans (by rw [read])) (rejected d)
        · exact absurd rfl some
      · exact ⟨failed, .inr ⟨text, ps, last, rest, rfl, reads, stopped⟩⟩
    · have ran : r.run kept s = (false, kept) := by
        unfold Reader.run
        rw [split]
        split
        · rename_i head
          exact absurd (List.cons.inj head).1 starts
        · rename_i head
          exact absurd (List.cons.inj head).1 starts
        · rfl
      rw [ran]
      exact ⟨rfl, .inl ⟨by simpa using starts, rfl⟩⟩

theorem run_behind {between : List Char} {middle : Place} (reads : Reads {} text ps middle between) :
    ∃ qs last rest, Reads {} text (ps ++ qs) last rest ∧
      ((rest = [] ∧ r.run kept (String.ofList ('P' :: text)) = (true, (ps ++ qs).foldl (readsPart r) kept)) ∨
        ((r.run kept (String.ofList ('P' :: text))).1 = false ∧
          Stopped r ((ps ++ qs).foldl (readsPart r) kept) last.closed rest
            (r.run kept (String.ofList ('P' :: text))).2)) := by
  obtain ⟨next, left, atNext, enough, ran⟩ := loop_of_reads r reads flagsAt_start (Nat.le_refl _)
  obtain ⟨qs, last, rest, more, outcome⟩ := exists_reads r atNext (ps.foldl (readsPart r) kept) enough
  rw [← List.foldl_append] at outcome
  rw [run_ofList, ran]
  exact ⟨qs, last, rest, reads.trans more, outcome⟩

theorem run_eq_true : (r.run kept s).1 = true ↔ ∃ d : Duration, d.text = s := by
  constructor
  · intro accepted
    by_contra none
    have rejected := (run_of_rejected r kept fun d same => none ⟨d, same⟩).1
    rw [accepted] at rejected
    cases rejected
  · rintro ⟨d, rfl⟩
    rw [run_text]

end

end Iso8601Duration
end WeftWarp
