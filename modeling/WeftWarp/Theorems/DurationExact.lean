import Mathlib.Algebra.Group.Int.Defs
import Mathlib.Data.List.Induction
import WeftWarp.Theorems.DurationParsers
import WeftWarp.Theorems.DurationReader

/-! # Durations and overflow

Over unbounded integers `tw_parse_duration_ms` returns the milliseconds of the grammar. In 64 bits it does so as long
as the sums of the parts and the numbers in them fit. -/

namespace WeftWarp
namespace Iso8601Duration
open TwDuration

/-! ## Totals -/

theorem exactDigits_eq (digits : List Char) : exactDigits digits = digitsValue digits := by
  have read : ∀ (digits : List Char) (value : Nat),
      digits.foldl (fun whole c => whole * 10 + (digitValue c : Int)) (value : Int) =
        (digits.foldl (fun value c => value * 10 + digitValue c) value : Nat) := by
    intro digits
    induction digits with
    | nil => exact fun _ => rfl
    | cons c digits ih =>
      intro value
      rw [List.foldl_cons, List.foldl_cons, ← ih]
      push_cast
      rfl
  exact read digits 0

theorem repeat_mul_ten_exact (n value : Nat) :
    Nat.repeat (· * 10) n (value : Int) = (value * 10 ^ n : Nat) := by
  induction n with
  | zero => simp [Nat.repeat]
  | succ n ih =>
    rw [Nat.repeat, ih, Nat.pow_succ, ← Nat.mul_assoc]
    push_cast
    rfl

theorem exactMilli_eq (n : Numeral) : exactMilli n.frac = n.milli := by
  rw [exactMilli, exactDigits_eq, repeat_mul_ten_exact, Numeral.milli]

theorem unitMs_toInt (u : DurationUnit) : (Int64.ofNat (unitMilliseconds u)).toInt = unitMilliseconds u := by
  cases u <;> decide

/-- The milliseconds of the number before the point. -/
def Part.wholeMs (p : Part) : Nat := digitsValue p.number.whole * unitMilliseconds p.unit

/-- The milliseconds of the fraction. -/
def Part.fracMs (p : Part) : Nat := p.number.milli * (unitMilliseconds p.unit / 1000)

theorem product_eq (p : Part) : exactDigits p.reading.whole * p.reading.unitMs.toInt = p.wholeMs := by
  have unit : p.reading.unitMs.toInt = unitMilliseconds p.unit := unitMs_toInt p.unit
  rw [exactDigits_eq, unit, Part.wholeMs, Int.natCast_mul]
  rfl

theorem thousandths_eq (p : Part) : exactMilli p.number.frac * (p.reading.unitMs.toInt / 1000) = p.fracMs := by
  have unit : p.reading.unitMs.toInt = unitMilliseconds p.unit := unitMs_toInt p.unit
  rw [exactMilli_eq, unit, Part.fracMs, Int.natCast_mul, Int.natCast_ediv]
  rfl

theorem part_plain (l : Ledger) {p : Part} (plain : p.number.frac = []) :
    exact.part l p.reading = ⟨l.totalMs + p.milliseconds, l.results ++ [(p.wholeMs : Int), l.totalMs + p.milliseconds]⟩ := by
  have same : p.milliseconds = p.wholeMs := by
    rw [Part.milliseconds, Numeral.milli_eq_zero plain, Nat.zero_mul, Nat.add_zero, Part.wholeMs]
  dsimp only [exact]
  rw [reading_plain plain, product_eq, same]

theorem part_fraction (l : Ledger) {p : Part} (fraction : p.number.frac ≠ []) :
    exact.part l p.reading = ⟨l.totalMs + p.milliseconds, l.results ++
      [(p.wholeMs : Int), l.totalMs + p.wholeMs, p.fracMs, l.totalMs + p.milliseconds]⟩ := by
  have sum : l.totalMs + p.wholeMs + p.fracMs = l.totalMs + p.milliseconds := by
    rw [Int.add_assoc, ← Int.natCast_add]
    rfl
  dsimp only [exact]
  rw [reading_fraction fraction]
  dsimp only
  rw [product_eq, thousandths_eq, sum]

theorem totalMs_readNumber (l : Ledger) (whole : List Char) (frac : Option (List Char)) :
    (readNumber exact l whole frac).totalMs = l.totalMs := by
  cases frac <;> rfl

theorem totalMs_readsPart (l : Ledger) (p : Part) : (readsPart exact l p).totalMs = l.totalMs + p.milliseconds := by
  rw [readsPart]
  by_cases plain : p.number.frac = []
  · rw [part_plain _ plain, totalMs_readNumber]
  · rw [part_fraction _ plain, totalMs_readNumber]

theorem totalMs_foldl (ps : List Part) (l : Ledger) :
    (ps.foldl (readsPart exact) l).totalMs = l.totalMs + (ps.map Part.milliseconds).sum := by
  induction ps generalizing l with
  | nil => simp
  | cons p ps ih =>
    rw [List.foldl_cons, ih, totalMs_readsPart, List.map_cons, List.sum_cons, Int.natCast_add, Int.add_assoc]

/-- Over unbounded integers the function accepts the texts of the grammar, with their milliseconds. -/
theorem twParseDurationMsExact_grammar (s : String) :
    (0 ≤ twParseDurationMsExact s ↔ ∃ d : Duration, d.text = s) ∧
      (∀ d : Duration, d.text = s → twParseDurationMsExact s = d.milliseconds) ∧
      ((∀ d : Duration, d.text ≠ s) → twParseDurationMsExact s = -1) := by
  have read : ∀ d : Duration, twParseDurationMsExact d.text = d.milliseconds := by
    intro d
    have total := totalMs_foldl d.parts {}
    rw [twParseDurationMsExact, run_text]
    exact total.trans (Int.zero_add _)
  have failed : (∀ d : Duration, d.text ≠ s) → twParseDurationMsExact s = -1 := by
    intro rejected
    have rejects := (run_of_rejected exact {} rejected).1
    unfold twParseDurationMsExact
    split
    · rename_i ran
      rw [ran] at rejects
      cases rejects
    · rfl
  refine ⟨⟨fun nonneg => ?_, ?_⟩, ?_, failed⟩
  · by_contra none
    rw [failed fun d same => none ⟨d, same⟩] at nonneg
    exact absurd nonneg (by decide)
  · rintro ⟨d, rfl⟩
    rw [read]
    exact Int.natCast_nonneg _
  · rintro d rfl
    exact read d

/-! ## Intermediate results -/

theorem le_foldl_digits (digits : List Char) (acc : Nat) :
    acc ≤ digits.foldl (fun value c => value * 10 + digitValue c) acc := by
  induction digits generalizing acc with
  | nil => exact Nat.le_refl acc
  | cons c digits ih =>
    have more := ih (acc * 10 + digitValue c)
    rw [List.foldl_cons]
    omega

theorem accumulated_le (digits : List Char) (acc : Nat) : ∀ x ∈ accumulated acc digits,
    0 ≤ x ∧ x ≤ (digits.foldl (fun value c => value * 10 + digitValue c) acc : Nat) := by
  induction digits generalizing acc with
  | nil => simp [accumulated]
  | cons c digits ih =>
    have more := le_foldl_digits digits (acc * 10 + digitValue c)
    intro x mem
    rw [List.foldl_cons]
    rcases List.mem_cons.mp mem with rfl | mem
    · omega
    rcases List.mem_cons.mp mem with rfl | mem
    · omega
    · exact ih (acc * 10 + digitValue c) x mem

variable {digits text rest : List Char} {l : Ledger} {ps : List Part} {place last : Place} {d : Duration} {s : String}

theorem mem_accumulated (some : digits ≠ []) (acc : Nat) :
    ((digits.foldl (fun value c => value * 10 + digitValue c) acc : Nat) : Int) ∈ accumulated acc digits := by
  induction digits generalizing acc with
  | nil => exact absurd rfl some
  | cons c digits ih =>
    rw [List.foldl_cons, accumulated]
    cases digits with
    | nil => simp
    | cons d digits =>
      exact List.mem_cons_of_mem _ (List.mem_cons_of_mem _ (ih (List.cons_ne_nil d digits) (acc * 10 + digitValue c)))

theorem padded_le (n acc : Nat) : ∀ x ∈ padded acc n, 0 ≤ x ∧ x ≤ (acc * 10 ^ n : Nat) := by
  induction n generalizing acc with
  | zero => simp [padded]
  | succ n ih =>
    have grown : acc * 10 ≤ acc * 10 * 10 ^ n := Nat.le_mul_of_pos_right _ (Nat.pow_pos (by decide))
    have same : acc * 10 ^ (n + 1) = acc * 10 * 10 ^ n := by rw [Nat.pow_succ', ← Nat.mul_assoc]
    intro x mem
    rw [same]
    rcases List.mem_cons.mp mem with rfl | mem
    · omega
    · exact ih (acc * 10) x mem

/-- The thousandths in the digits of a fraction. -/
def milliValue (digits : List Char) : Nat := digitsValue (digits.take 3) * 10 ^ (3 - (digits.take 3).length)

/-- What the digits of a number compute stays within the number. -/
theorem readNumber_exact (l : Ledger) (whole : List Char) (frac : Option (List Char)) :
    ∃ new, readNumber exact l whole frac = ⟨l.totalMs, l.results ++ accumulated 0 whole ++ new⟩ ∧
      ∀ x ∈ new, ∃ digits ∈ frac, 0 ≤ x ∧ x ≤ milliValue digits := by
  cases frac with
  | none => exact ⟨[], by rw [List.append_nil]; rfl, by simp⟩
  | some digits =>
    refine ⟨accumulated 0 (digits.take 3) ++ padded (exactDigits (digits.take 3)) (3 - (digits.take 3).length), ?_, ?_⟩
    · rw [← List.append_assoc]
      rfl
    · intro x mem
      refine ⟨digits, rfl, ?_⟩
      rcases List.mem_append.mp mem with mem | mem
      · obtain ⟨lower, upper⟩ := accumulated_le (digits.take 3) 0 x mem
        have padding : digitsValue (digits.take 3) ≤ milliValue digits :=
          Nat.le_mul_of_pos_right _ (Nat.pow_pos (by decide))
        exact ⟨lower, Int.le_trans upper (Int.ofNat_le.mpr padding)⟩
      · rw [exactDigits_eq] at mem
        exact padded_le _ _ x mem

/-- No result exceeds the total. -/
structure Bounded (l : Ledger) : Prop where
  total : 0 ≤ l.totalMs
  results : ∀ x ∈ l.results, 0 ≤ x ∧ x ≤ l.totalMs

theorem unitMilliseconds_pos (u : DurationUnit) : 0 < unitMilliseconds u / 1000 := by
  cases u <;> decide

theorem bounded_readsPart (bounded : Bounded l) (p : Part) : Bounded (readsPart exact l p) := by
  have total := bounded.total
  have sum : p.milliseconds = p.wholeMs + p.fracMs := rfl
  have nextTotal := totalMs_readsPart l p
  have whole : digitsValue p.number.whole ≤ p.wholeMs :=
    Nat.le_mul_of_pos_right _ (by cases p.unit <;> decide)
  have fraction : p.number.milli ≤ p.fracMs := Nat.le_mul_of_pos_right _ (unitMilliseconds_pos p.unit)
  obtain ⟨new, read, within⟩ := readNumber_exact l p.reading.whole p.reading.frac
  refine ⟨by omega, fun x mem => ?_⟩
  rw [nextTotal, sum]
  -- the results of earlier parts, of the digits, and of the products and sums
  have cases : x ∈ l.results ∨ x ∈ accumulated 0 p.number.whole ∨ x ∈ new ∨ x = p.wholeMs ∨
      x = l.totalMs + p.wholeMs ∨ x = p.fracMs ∨ x = l.totalMs + p.milliseconds := by
    rw [readsPart, read] at mem
    by_cases plain : p.number.frac = []
    · rw [part_plain _ plain] at mem
      simp only [List.mem_append, List.mem_cons, List.not_mem_nil, or_false] at mem
      tauto
    · rw [part_fraction _ plain] at mem
      simp only [List.mem_append, List.mem_cons, List.not_mem_nil, or_false] at mem
      tauto
  rcases cases with old | digit | padding | rfl | rfl | rfl | rfl
  · have within := bounded.results x old
    omega
  · obtain ⟨lower, upper⟩ := accumulated_le p.number.whole 0 x digit
    have upper : x ≤ digitsValue p.number.whole := upper
    omega
  · obtain ⟨digits, isFrac, lower, upper⟩ := within x padding
    have same : milliValue digits = p.number.milli := by
      unfold Part.reading at isFrac
      split at isFrac
      · cases isFrac
      · cases isFrac
        rfl
    omega
  all_goals omega

theorem bounded_foldl (bounded : Bounded l) (ps : List Part) : Bounded (ps.foldl (readsPart exact) l) := by
  induction ps generalizing l with
  | nil => exact bounded
  | cons p ps ih => exact ih (bounded_readsPart bounded p)

theorem results_readNumber (l : Ledger) (whole : List Char) (frac : Option (List Char)) :
    l.results ++ accumulated 0 whole ⊆ (readNumber exact l whole frac).results := by
  obtain ⟨new, read, -⟩ := readNumber_exact l whole frac
  rw [read]
  exact List.subset_append_left _ new

theorem results_readsPart (l : Ledger) (p : Part) :
    l.results ++ accumulated 0 p.number.whole ++ [(readsPart exact l p).totalMs] ⊆ (readsPart exact l p).results := by
  have number := results_readNumber l p.reading.whole p.reading.frac
  have total := totalMs_readsPart l p
  rw [total, readsPart]
  intro x mem
  by_cases plain : p.number.frac = []
  · rw [part_plain _ plain, totalMs_readNumber]
    rcases List.mem_append.mp mem with old | new
    · exact List.mem_append_left _ (number old)
    · simp_all
  · rw [part_fraction _ plain, totalMs_readNumber]
    rcases List.mem_append.mp mem with old | new
    · exact List.mem_append_left _ (number old)
    · simp_all

theorem results_foldl (ps : List Part) (l : Ledger) : l.results ⊆ (ps.foldl (readsPart exact) l).results := by
  induction ps generalizing l with
  | nil => exact List.Subset.refl _
  | cons p ps ih =>
    refine List.Subset.trans (fun x mem => ?_) (ih (readsPart exact l p))
    exact results_readsPart l p (List.mem_append_left _ (List.mem_append_left _ mem))

/-- The sum of the parts is among the results. -/
theorem totalMs_mem_results (some : ps ≠ []) (l : Ledger) :
    (ps.foldl (readsPart exact) l).totalMs ∈ (ps.foldl (readsPart exact) l).results := by
  rw [← List.dropLast_append_getLast some, List.foldl_append]
  exact results_readsPart _ _ (List.mem_append_right _ (List.mem_singleton_self _))

theorem results_stopped {left : Ledger} {closed : Bool} (stopped : Stopped exact l closed text left) :
    l.results ⊆ left.results := by
  cases stopped with
  | before => exact List.Subset.refl _
  | number frac => exact List.Subset.trans (List.subset_append_left _ _) (results_readNumber _ _ frac)

theorem results_loop {s : Flags} (atPlace : FlagsAt s place) (l : Ledger) {fuel : Nat} (enough : text.length ≤ fuel) :
    l.results ⊆ (exact.loop fuel s l text).2.results := by
  obtain ⟨ps, last, rest, -, ⟨-, ran⟩ | ⟨-, stopped⟩⟩ := exists_reads exact atPlace l enough
  · rw [ran]
    exact results_foldl ps l
  · exact List.Subset.trans (results_foldl ps l) (results_stopped stopped)

theorem takeWhile_part (p : Part) (rest : List Char) :
    (p.text ++ rest).takeWhile Char.isDigit = p.number.whole := by
  have text : p.text ++ rest = p.number.whole ++
      ((if p.number.frac.isEmpty then [] else '.' :: p.number.frac) ++ p.unit.letter :: rest) := by
    simp [Part.text, Numeral.text]
  rw [text]
  refine takeWhile_digits p.number.whole_digits ?_
  split
  · exact letter_not_digit p.unit
  · rfl

theorem accumulated_loop {s : Flags} (atPlace : FlagsAt s place) (isOpen : place.closed = false) (l : Ledger)
    {fuel : Nat} (enough : text.length ≤ fuel) (digit : startsWithDigit text = true) :
    accumulated 0 (text.takeWhile Char.isDigit) ⊆ (exact.loop fuel s l text).2.results := by
  obtain ⟨ps, last, rest, reads, outcome⟩ := exists_reads exact atPlace l enough
  generalize exact.loop fuel s l text = left at outcome
  cases reads with
  | done =>
    rcases outcome with ⟨rfl, -⟩ | ⟨-, stopped⟩
    · cases digit
    · obtain ⟨accepted, left⟩ := left
      cases stopped with
      | before why =>
        rcases why with closed | notDigit
        · rw [isOpen] at closed
          cases closed
        · rw [digit] at notDigit
          cases notDigit
      | number frac => exact List.Subset.trans (List.subset_append_right _ _) (results_readNumber _ _ frac)
  | @part _ _ p ps text =>
    have read : accumulated 0 p.number.whole ⊆ ((p :: ps).foldl (readsPart exact) l).results := by
      refine List.Subset.trans (fun x mem => ?_) (results_foldl ps (readsPart exact l p))
      exact results_readsPart l p (List.mem_append_left _ (List.mem_append_right _ mem))
    rw [takeWhile_part]
    rcases outcome with ⟨-, rfl⟩ | ⟨-, stopped⟩
    · exact read
    · exact List.Subset.trans read (results_stopped stopped)
  | time => cases digit

/-! ## Overflow -/

theorem whole_of_behind (follows : Follows place ps) (isOpen : (place.behind ps).closed = false) :
    ∀ p ∈ ps, p.number.frac = [] := by
  induction follows with
  | nil => simp
  | @cons place p ps allows follows ih =>
    intro q mem
    rcases List.mem_cons.mp mem with rfl | mem
    · have next : (place.after q).closed = false := by
        cases follows with
        | nil => exact isOpen
        | cons allowsNext => exact allowsNext.isOpen
      simpa [Place.after] using next
    · exact ih isOpen q mem

theorem closed_behind (isOpen : place.closed = false) (whole : ∀ p ∈ ps, p.number.frac = []) :
    (place.behind ps).closed = false := by
  induction ps generalizing place with
  | nil => exact isOpen
  | cons p ps ih =>
    refine ih ?_ fun q mem => whole q (List.mem_cons_of_mem p mem)
    simp [Place.after, whole p List.mem_cons_self]

theorem inTime_behind :
    (place.behind ps).inTime = false ↔ place.inTime = false ∧ ∀ p ∈ ps, p.unit.isTime = false := by
  induction ps generalizing place with
  | nil => simp [Place.behind]
  | cons p ps ih =>
    have step : place.behind (p :: ps) = (place.after p).behind ps := rfl
    rw [step, ih]
    simp [Place.after, and_assoc]

theorem timePart_eq_nil : d.timePart = [] ↔ ∀ p ∈ d.parts, p.unit.isTime = false := by
  unfold Duration.timePart
  rw [List.flatMap_eq_nil_iff]
  constructor
  · intro none p mem
    by_contra time
    have found : p ∈ d.parts.filter fun p => p.unit.isTime :=
      List.mem_filter.mpr ⟨mem, by simpa using time⟩
    exact p.text_ne (none p found)
  · intro date p mem
    obtain ⟨mem, time⟩ := List.mem_filter.mp mem
    rw [date p mem] at time
    cases time

/-- The sums and the numbers that the function comes across fit in 64 bits: those of the durations at the head of the
    text, and the digits right behind one of them or behind its `T`. -/
structure Fits (s : String) : Prop where
  sums : ∀ d : Duration, d.text.toList <+: s.toList → d.milliseconds < 2 ^ 63
  numbers : ∀ (d : Duration) (digits : List Char), (∀ p ∈ d.parts, p.number.frac = []) → (∀ c ∈ digits, c.isDigit) →
    (d.text.toList ++ digits <+: s.toList ∨ d.timePart = [] ∧ d.text.toList ++ 'T' :: digits <+: s.toList) →
    digitsValue digits < 2 ^ 63

theorem digitValue_le {c : Char} (digit : c.isDigit = true) : digitValue c ≤ 9 := by
  have bounds : 48 ≤ c.toNat ∧ c.toNat ≤ 57 := by
    simpa [Char.isDigit, UInt32.le_iff_toNat_le] using digit
  have zero : '0'.toNat = 48 := rfl
  unfold digitValue
  omega

theorem digitsValue_append (digits more : List Char) :
    digitsValue (digits ++ more) = more.foldl (fun value c => value * 10 + digitValue c) (digitsValue digits) := by
  rw [digitsValue, List.foldl_append]
  rfl

theorem digitsValue_lt (isDigit : ∀ c ∈ digits, c.isDigit) : digitsValue digits < 10 ^ digits.length := by
  induction digits using List.reverseRecOn with
  | nil => decide
  | append_singleton digits c ih =>
    have before := ih fun d mem => isDigit d (List.mem_append_left _ mem)
    have last := digitValue_le (isDigit c (List.mem_append_right _ (List.mem_singleton_self c)))
    rw [digitsValue_append, List.length_append, List.length_singleton, Nat.pow_succ]
    change digitsValue digits * 10 + digitValue c < _
    omega

theorem milliValue_lt (isDigit : ∀ c ∈ digits, c.isDigit) : milliValue digits < 1000 := by
  have value : digitsValue (digits.take 3) < 10 ^ (digits.take 3).length :=
    digitsValue_lt fun c mem => isDigit c (List.mem_of_mem_take mem)
  have short : (digits.take 3).length ≤ 3 := by
    rw [List.length_take]
    exact Nat.min_le_left _ _
  calc milliValue digits < 10 ^ (digits.take 3).length * 10 ^ (3 - (digits.take 3).length) :=
        Nat.mul_lt_mul_of_pos_right value (Nat.pow_pos (by decide))
    _ = 10 ^ 3 := by rw [← Nat.pow_add, Nat.add_sub_cancel' short]

theorem toList_text (d : Duration) : d.text.toList = 'P' :: textFrom false d.parts := by
  rw [d.text_eq, String.toList_ofList]

theorem bounded_parts (d : Duration) : Bounded (d.parts.foldl (readsPart exact) {}) :=
  bounded_foldl ⟨Int.le_refl 0, by simp⟩ d.parts

theorem totalMs_parts (d : Duration) : (d.parts.foldl (readsPart exact) {}).totalMs = d.milliseconds :=
  (totalMs_foldl d.parts {}).trans (Int.zero_add _)

/-- The parts that were read stand at the head of the text. -/
theorem head_of_reads (reads : Reads {} text d.parts last rest) :
    d.text.toList <+: (String.ofList ('P' :: text)).toList := by
  rw [toList_text, String.toList_ofList]
  rcases reads.spelled with ⟨-, rfl⟩ | ⟨-, -, -, -, rfl⟩
  · exact ⟨_, rfl⟩
  · exact ⟨_, rfl⟩

theorem Fits.parts (fits : Fits s) (head : d.text.toList <+: s.toList) :
    ∀ x ∈ (d.parts.foldl (readsPart exact) {}).results, 0 ≤ x ∧ x < 2 ^ 63 := by
  intro x mem
  have within := (bounded_parts d).results x mem
  have sum := fits.sums d head
  rw [totalMs_parts] at within
  omega

theorem Fits.digitsValue_lt (fits : Fits (String.ofList ('P' :: text))) (reads : Reads {} text d.parts last rest)
    (isOpen : last.closed = false) : digitsValue (rest.takeWhile Char.isDigit) < 2 ^ 63 := by
  have taken : rest.takeWhile Char.isDigit <+: rest := List.takeWhile_prefix _
  refine fits.numbers d _ ?_ (fun c mem => List.mem_takeWhile_imp mem) ?_
  · rcases reads.spelled with ⟨rfl, -⟩ | ⟨-, isOpen, -⟩
    · exact whole_of_behind d.follows isOpen
    · exact whole_of_behind d.follows isOpen
  · rw [toList_text, String.toList_ofList]
    rcases reads.spelled with ⟨-, rfl⟩ | ⟨date, -, -, -, rfl⟩
    · refine .inl ?_
      rw [List.cons_append, List.cons_prefix_cons]
      exact ⟨rfl, (List.prefix_append_right_inj _).mpr taken⟩
    · refine .inr ⟨timePart_eq_nil.mpr (inTime_behind.mp date).2, ?_⟩
      rw [List.cons_append, List.cons_prefix_cons]
      exact ⟨rfl, (List.prefix_append_right_inj _).mpr (List.cons_prefix_cons.mpr ⟨rfl, taken⟩)⟩

theorem results_of_fits (fits : Fits s) : ∀ x ∈ twParseDurationMsResults s, 0 ≤ x ∧ x < 2 ^ 63 := by
  unfold twParseDurationMsResults
  by_cases isDuration : ∃ d : Duration, d.text = s
  · obtain ⟨d, rfl⟩ := isDuration
    rw [run_text]
    exact fits.parts (List.prefix_refl _)
  obtain ⟨-, ⟨-, same⟩ | ⟨text, ps, last, rest, rfl, reads, stopped⟩⟩ :=
    run_of_rejected exact {} fun d same => isDuration ⟨d, same⟩
  · rw [same]
    intro x mem
    cases mem
  obtain ⟨d, rfl⟩ := exists_of_follows reads.follows
  have parts := fits.parts (head_of_reads reads)
  generalize (exact.run {} (String.ofList ('P' :: text))).2 = left at stopped
  cases stopped with
  | before => exact parts
  | number frac isOpen starts isDigit =>
    have value := fits.digitsValue_lt reads isOpen
    obtain ⟨new, read, within⟩ :=
      readNumber_exact (d.parts.foldl (readsPart exact) {}) (rest.takeWhile Char.isDigit) frac
    rw [read]
    intro x mem
    rcases List.mem_append.mp mem with mem | mem
    · rcases List.mem_append.mp mem with mem | mem
      · exact parts x mem
      · obtain ⟨lower, upper⟩ := accumulated_le _ 0 x mem
        have upper : x ≤ digitsValue (rest.takeWhile Char.isDigit) := upper
        omega
    · obtain ⟨digits, isFrac, lower, upper⟩ := within x mem
      have small := milliValue_lt (isDigit digits isFrac)
      omega

theorem results_run (reads : Reads {} text ps last rest) :
    (ps.foldl (readsPart exact) {}).results ⊆ twParseDurationMsResults (String.ofList ('P' :: text)) ∧
      (last.closed = false → startsWithDigit rest = true →
        accumulated 0 (rest.takeWhile Char.isDigit) ⊆ twParseDurationMsResults (String.ofList ('P' :: text))) := by
  obtain ⟨next, left, atNext, enough, ran⟩ := loop_of_reads exact reads flagsAt_start (Nat.le_refl _)
  unfold twParseDurationMsResults
  rw [run_ofList, ran]
  exact ⟨results_loop atNext _ enough, fun isOpen digit => accumulated_loop atNext isOpen _ enough digit⟩

theorem digitsValue_lt_of_results (reads : Reads {} text ps last (digits ++ rest)) (isOpen : last.closed = false)
    (isDigit : ∀ c ∈ digits, c.isDigit)
    (within : ∀ x ∈ twParseDurationMsResults (String.ofList ('P' :: text)), x < 2 ^ 63) :
    digitsValue digits < 2 ^ 63 := by
  cases digits with
  | nil => decide
  | cons c digits =>
    have starts : startsWithDigit ((c :: digits) ++ rest) = true := isDigit c List.mem_cons_self
    have taken := (results_run reads).2 isOpen starts
    rw [List.takeWhile_append_of_pos isDigit] at taken
    have whole := within _ (taken (mem_accumulated (List.append_ne_nil_of_left_ne_nil (List.cons_ne_nil c digits) _) 0))
    have grown := le_foldl_digits (rest.takeWhile Char.isDigit) (digitsValue (c :: digits))
    rw [← digitsValue_append] at grown
    exact Nat.lt_of_le_of_lt grown (Int.ofNat_lt.mp whole)

theorem fits_of_results (within : ∀ x ∈ twParseDurationMsResults s, x < 2 ^ 63) : Fits s := by
  have named : s = String.ofList s.toList := String.ofList_toList.symm
  refine ⟨?_, ?_⟩
  · rintro d ⟨rest, whole⟩
    rw [toList_text, List.cons_append] at whole
    rw [named, ← whole] at within
    have reads := reads_textFrom d.follows rest
    by_cases some : d.parts = []
    · simp [Duration.milliseconds, some]
    · have sum := within _ ((results_run reads).1 (totalMs_mem_results some {}))
      rw [totalMs_parts] at sum
      omega
  · rintro d digits whole isDigit (⟨rest, read⟩ | ⟨date, rest, read⟩)
    · rw [toList_text, List.cons_append, List.cons_append, List.append_assoc] at read
      rw [named, ← read] at within
      exact digitsValue_lt_of_results (reads_textFrom d.follows _) (closed_behind rfl whole) isDigit within
    · rw [toList_text, List.cons_append, List.cons_append, List.append_assoc, List.cons_append] at read
      rw [named, ← read] at within
      cases digits with
      | nil => decide
      | cons c digits =>
        have isOpen : (Place.behind {} d.parts).closed = false := closed_behind rfl whole
        have dates : (Place.behind {} d.parts).inTime = false := inTime_behind.mpr ⟨rfl, timePart_eq_nil.mp date⟩
        have reads := (reads_textFrom d.follows ('T' :: (c :: digits ++ rest))).trans
          (.time isOpen dates (List.cons_ne_nil c _) (.done _ _))
        exact digitsValue_lt_of_results reads isOpen isDigit within

/-- The function is free of overflow, and returns the milliseconds of a duration or -1, exactly if the sums and the
    numbers it comes across fit in 64 bits. -/
theorem twParseDurationMs_exact_iff (s : String) :
    ((∀ x ∈ twParseDurationMsResults s, -2 ^ 63 ≤ x ∧ x < 2 ^ 63) ∧
      (twParseDurationMs s = -1 ∨ ∃ d : Duration, d.text = s ∧ (twParseDurationMs s).toInt = d.milliseconds)) ↔
      Fits s := by
  constructor
  · rintro ⟨within, -⟩
    exact fits_of_results fun x mem => (within x mem).2
  · intro fits
    refine ⟨fun x mem => ?_, ?_⟩
    · have within := results_of_fits fits x mem
      omega
    · by_cases rejected : twParseDurationMs s = -1
      · exact .inl rejected
      · obtain ⟨d, rfl⟩ := exists_of_twParseDurationMs rejected
        refine .inr ⟨d, rfl, ?_⟩
        rw [twParseDurationMs_text]
        exact (toInt_ofNat_eq_iff d.milliseconds).mpr (fits.sums d (List.prefix_refl _))

/-- The product passes `2 ^ 64`, so that 584 million years are read as less than half a second. -/
theorem twParseDurationMs_wraps :
    twParseDurationMs "PT18446744073709552S" = 384 ∧
      twParseDurationMsExact "PT18446744073709552S" = 18446744073709552000 ∧
      ¬∀ x ∈ twParseDurationMsResults "PT18446744073709552S", -2 ^ 63 ≤ x ∧ x < 2 ^ 63 := by
  decide +kernel

end Iso8601Duration
end WeftWarp
