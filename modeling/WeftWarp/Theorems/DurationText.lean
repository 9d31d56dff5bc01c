import WeftWarp.Temporal
import WeftWarp.Theorems.DurationParsers

/-! # Durations as they are printed

`tw_format_duration_ms` writes hours, minutes and seconds with up to three decimals, and leaves out what is zero. Its
text is one of the grammar, and it denotes the milliseconds it was made from. -/

namespace WeftWarp
namespace Iso8601Duration

/-! ## Digits -/

theorem digitsValue_eq_ofDigitChars (digits : List Char) : digitsValue digits = Nat.ofDigitChars 10 digits 0 := by
  unfold digitsValue
  rw [Nat.ofDigitChars_eq_foldl]
  congr 1
  funext value c
  rw [Nat.mul_comm]
  rfl

theorem digitsValue_decimal (n : Nat) : digitsValue n.repr.toList = n := by
  rw [digitsValue_eq_ofDigitChars, Nat.toList_repr]
  exact Nat.ofDigitChars_toDigits (by decide) (by decide)

theorem isDigit_decimal (n : Nat) : ∀ c ∈ n.repr.toList, c.isDigit := by
  intro c mem
  rw [Nat.toList_repr] at mem
  exact Nat.isDigit_of_mem_toDigits (by decide) (by decide) mem

/-- Three digits without the zeros at their end. -/
def milliDigits (milli : Nat) : List Char :=
  ((List.replicate (3 - milli.repr.toList.length) '0' ++ milli.repr.toList).reverse.dropWhile (· = '0')).reverse

/-- The zeros that were cut off. -/
theorem exists_zeros (digits : List Char) :
    ∃ k, digits = (digits.reverse.dropWhile (· = '0')).reverse ++ List.replicate k '0' := by
  refine ⟨(digits.reverse.takeWhile (· = '0')).length, ?_⟩
  have zeros : digits.reverse.takeWhile (· = '0') =
      List.replicate (digits.reverse.takeWhile (· = '0')).length '0' := by
    refine List.eq_replicate_of_mem fun c mem => ?_
    simpa using List.mem_takeWhile_imp mem
  have split := List.takeWhile_append_dropWhile (p := (· = '0')) (l := digits.reverse)
  calc digits = digits.reverse.reverse := (List.reverse_reverse digits).symm
    _ = (digits.reverse.dropWhile (· = '0')).reverse ++ (digits.reverse.takeWhile (· = '0')).reverse := by
      rw [← List.reverse_append, split]
    _ = _ := by rw [zeros, List.reverse_replicate, List.length_replicate]

variable {milli n : Nat}

theorem length_decimal (small : milli < 1000) : milli.repr.toList.length ≤ 3 := by
  rw [Nat.toList_repr]
  exact (Nat.length_toDigits_le_iff (by decide) (by decide)).mpr small

theorem milliDigits_spec (small : milli < 1000) :
    (milliDigits milli).length ≤ 3 ∧ digitsValue (milliDigits milli) * 10 ^ (3 - (milliDigits milli).length) = milli := by
  obtain ⟨k, padded⟩ := exists_zeros (List.replicate (3 - milli.repr.toList.length) '0' ++ milli.repr.toList)
  have length := congrArg List.length padded
  have short := length_decimal small
  simp only [List.length_append, List.length_replicate] at length
  have value : digitsValue (List.replicate (3 - milli.repr.toList.length) '0' ++ milli.repr.toList) = milli := by
    rw [digitsValue_eq_ofDigitChars, Nat.ofDigitChars_append, Nat.ofDigitChars_replicate_zero, Nat.mul_zero,
      ← digitsValue_eq_ofDigitChars, digitsValue_decimal]
  have trimmed : (milliDigits milli).length + k = 3 := by
    unfold milliDigits
    omega
  refine ⟨by omega, ?_⟩
  have zeros : 3 - (milliDigits milli).length = k := by omega
  rw [padded, digitsValue_eq_ofDigitChars, Nat.ofDigitChars_append, Nat.ofDigitChars_replicate_zero,
    ← digitsValue_eq_ofDigitChars] at value
  rw [zeros, Nat.mul_comm]
  exact value

theorem isDigit_milliDigits (milli : Nat) : ∀ c ∈ milliDigits milli, c.isDigit := by
  intro c mem
  have kept := (List.dropWhile_sublist _).subset (List.mem_reverse.mp mem)
  rcases List.mem_append.mp (List.mem_reverse.mp kept) with zero | digit
  · rw [List.eq_of_mem_replicate zero]
    decide
  · exact isDigit_decimal milli c digit

theorem milliDigits_eq_nil (small : milli < 1000) : milliDigits milli = [] ↔ milli = 0 := by
  constructor
  · intro none
    have value := (milliDigits_spec small).2
    rw [none] at value
    exact value.symm
  · rintro rfl
    decide

/-! ## The printed duration -/

/-- A number with its thousandths. -/
def numeral (n milli : Nat) : Numeral where
  whole := n.repr.toList
  frac := milliDigits milli
  whole_ne := by
    rw [Nat.toList_repr]
    exact Nat.toDigits_ne_nil
  whole_digits := isDigit_decimal n
  frac_digits := isDigit_milliDigits milli

theorem milliseconds_numeral (small : milli < 1000) (n : Nat) (u : DurationUnit) :
    Part.milliseconds ⟨numeral n milli, u⟩ = n * unitMilliseconds u + milli * (unitMilliseconds u / 1000) := by
  have spec := milliDigits_spec small
  have fraction : (numeral n milli).milli = milli := by
    rw [Numeral.milli, numeral, List.take_of_length_le spec.1]
    exact spec.2
  rw [Part.milliseconds, fraction]
  simp only [numeral, digitsValue_decimal]

/-- The parts that are printed: zeros are left out, but not the last of them. -/
def printedParts (h m s milli : Nat) : List Part :=
  (if 0 < h then [⟨numeral h 0, .h⟩] else []) ++ (if 0 < m then [⟨numeral m 0, .mi⟩] else []) ++
    (if 0 < s ∨ 0 < milli ∨ (h = 0 ∧ m = 0) then [⟨numeral s milli, .s⟩] else [])

/-- The duration that is printed. -/
def printed (h m s milli : Nat) : Duration where
  parts := printedParts h m s milli
  ordered := by
    unfold printedParts
    split <;> split <;> split <;> simp [unitRank]
  weekAlone := by
    unfold printedParts
    split <;> split <;> split <;> simp
  fractionLast := by
    have none : milliDigits 0 = [] := by decide
    unfold printedParts
    split <;> split <;> split <;> simp [numeral, none]

theorem sum_milliseconds_ite (c : Prop) [Decidable c] (p : Part) :
    ((if c then [p] else []).map Part.milliseconds).sum = if c then p.milliseconds else 0 := by
  split
  · rw [List.map_singleton, List.sum_singleton]
  · rfl

theorem milliseconds_printed (small : milli < 1000) (h m s : Nat) :
    (printed h m s milli).milliseconds = h * 3600000 + m * 60000 + s * 1000 + milli := by
  have hours : Part.milliseconds ⟨numeral h 0, .h⟩ = h * 3600000 + 0 * 3600 :=
    milliseconds_numeral (by decide) h .h
  have minutes : Part.milliseconds ⟨numeral m 0, .mi⟩ = m * 60000 + 0 * 60 := milliseconds_numeral (by decide) m .mi
  have seconds : Part.milliseconds ⟨numeral s milli, .s⟩ = s * 1000 + milli * 1 := milliseconds_numeral small s .s
  have parts : (printed h m s milli).parts = printedParts h m s milli := rfl
  rw [Duration.milliseconds, parts, printedParts, List.map_append, List.map_append, List.sum_append, List.sum_append,
    sum_milliseconds_ite, sum_milliseconds_ite, sum_milliseconds_ite, hours, minutes, seconds]
  split <;> split <;> split <;> omega

theorem text_numeral (small : milli < 1000) (n : Nat) (u : DurationUnit) :
    Part.text ⟨numeral n milli, u⟩ =
      n.repr.toList ++ (if 0 < milli then '.' :: milliDigits milli else []) ++ [u.letter] := by
  have cut : (milliDigits milli).isEmpty = true ↔ milli = 0 := by rw [List.isEmpty_iff, milliDigits_eq_nil small]
  rw [Part.text, Numeral.text, numeral]
  dsimp only
  by_cases zero : milli = 0
  · rw [if_pos (cut.mpr zero), if_neg (by omega)]
  · rw [if_neg fun empty => zero (cut.mp empty), if_pos (by omega)]

theorem text_printed (small : milli < 1000) (h m s : Nat) :
    (printed h m s milli).text.toList = 'P' :: 'T' ::
      ((if 0 < h then h.repr.toList ++ ['H'] else []) ++ (if 0 < m then m.repr.toList ++ ['M'] else []) ++
        (if 0 < s ∨ 0 < milli ∨ (h = 0 ∧ m = 0) then
          s.repr.toList ++ (if 0 < milli then '.' :: milliDigits milli else []) ++ ['S'] else [])) := by
  have hours := text_numeral (by decide : 0 < 1000) h .h
  have minutes := text_numeral (by decide : 0 < 1000) m .mi
  have seconds := text_numeral small s .s
  have time : ∀ p ∈ printedParts h m s milli, p.unit.isTime = true := by
    unfold printedParts
    split <;> split <;> split <;> simp [DurationUnit.isTime]
  have some : printedParts h m s milli ≠ [] := by
    unfold printedParts
    split <;> split <;> split <;> simp
    omega
  have head : textFrom false (printedParts h m s milli) = 'T' :: textFrom true (printedParts h m s milli) := by
    cases parts : printedParts h m s milli with
    | nil => exact absurd parts some
    | cons p ps =>
      have first := time p (by rw [parts]; exact List.mem_cons_self)
      simp [textFrom, first]
  rw [Duration.text_eq, String.toList_ofList]
  show 'P' :: textFrom false (printedParts h m s milli) = _
  rw [head, textFrom_time time]
  unfold printedParts
  simp only [Nat.lt_irrefl, if_false, List.append_nil] at hours minutes
  congr 2
  split <;> split <;> split <;> simp [hours, minutes, seconds, DurationUnit.letter]

/-! ## Printing and parsing -/

theorem int64Text_ofNat (fits : n < 2 ^ 63) : int64Text (Int64.ofNat n) = n.repr := by
  rw [int64Text, Int64.toInt_ofNat_of_lt fits]
  rfl

theorem milliText_ofNat (small : milli < 1000) :
    milliText (Int64.ofNat milli) = String.ofList ('.' :: milliDigits milli) := by
  rw [milliText, int64Text_ofNat (by omega)]
  rfl

/-- What is printed for a number of milliseconds. -/
theorem twFormatDurationMs_ofNat (fits : n < 2 ^ 63) :
    twFormatDurationMs (Int64.ofNat n) =
      (printed (n / 1000 / 3600) ((n / 1000 - n / 1000 / 3600 * 3600) / 60)
        ((n / 1000 - n / 1000 / 3600 * 3600) % 60) (n % 1000)).text := by
  have small : n % 1000 < 1000 := Nat.mod_lt _ (by decide)
  have nonneg : ¬Int64.ofNat n < 0 := by
    rw [show (0 : Int64) = Int64.ofNat 0 from rfl, Int64.ofNat_lt_iff_lt fits (by decide)]
    exact Nat.not_lt_zero n
  have seconds : Int64.ofNat n / 1000 = Int64.ofNat (n / 1000) := (Int64.ofNat_div fits (by decide)).symm
  have milli : Int64.ofNat n % 1000 = Int64.ofNat (n % 1000) := (Int64.ofNat_mod fits (by decide)).symm
  have hours : Int64.ofNat (n / 1000) / 3600 = Int64.ofNat (n / 1000 / 3600) :=
    (Int64.ofNat_div (by omega) (by decide)).symm
  have rest : Int64.ofNat (n / 1000) - Int64.ofNat (n / 1000 / 3600) * 3600 =
      Int64.ofNat (n / 1000 - n / 1000 / 3600 * 3600) := by
    rw [Int64.ofNat_sub _ _ (by omega), Int64.ofNat_mul]
    rfl
  have minutes : Int64.ofNat (n / 1000 - n / 1000 / 3600 * 3600) / 60 =
      Int64.ofNat ((n / 1000 - n / 1000 / 3600 * 3600) / 60) := (Int64.ofNat_div (by omega) (by decide)).symm
  have last : Int64.ofNat (n / 1000 - n / 1000 / 3600 * 3600) % 60 =
      Int64.ofNat ((n / 1000 - n / 1000 / 3600 * 3600) % 60) := (Int64.ofNat_mod (by omega) (by decide)).symm
  have positive : ∀ {k : Nat}, k < 2 ^ 63 → (0 < Int64.ofNat k ↔ 0 < k) := fun fits =>
    Int64.ofNat_lt_iff_lt (a := 0) (by decide) fits
  have zero : ∀ {k : Nat}, k < 2 ^ 63 → (Int64.ofNat k = 0 ↔ k = 0) := by
    intro k fits
    rw [← Int64.toInt_inj, Int64.toInt_ofNat_of_lt fits]
    exact Int.natCast_eq_zero
  rw [← String.toList_inj, text_printed small]
  unfold twFormatDurationMs
  simp only [if_neg nonneg, seconds, milli, hours, rest, minutes, last]
  generalize hn : n / 1000 / 3600 = h
  generalize hm : (n / 1000 - h * 3600) / 60 = m
  generalize hs : (n / 1000 - h * 3600) % 60 = s
  generalize n % 1000 = k at small
  have hfits : h < 2 ^ 63 := by omega
  have mfits : m < 2 ^ 63 := by omega
  have sfits : s < 2 ^ 63 := by omega
  rw [int64Text_ofNat hfits, int64Text_ofNat mfits, int64Text_ofNat sfits, milliText_ofNat small]
  simp only [positive hfits, positive mfits, positive sfits, positive (show k < 2 ^ 63 by omega), zero hfits, zero mfits,
    String.toList_append]
  split <;> split <;> split <;> (try split) <;> simp

theorem parse_format_ofNat (fits : n < 2 ^ 63) :
    twParseDurationMs (twFormatDurationMs (Int64.ofNat n)) = Int64.ofNat n := by
  have small : n % 1000 < 1000 := Nat.mod_lt _ (by decide)
  rw [twFormatDurationMs_ofNat fits, twParseDurationMs_text, milliseconds_printed small]
  congr 1
  omega

end Iso8601Duration

theorem exists_ofNat {ms : Int64} (nonneg : 0 ≤ ms) : ∃ n : Nat, n < 2 ^ 63 ∧ ms = Int64.ofNat n := by
  have lower : 0 ≤ ms.toInt := Int64.le_iff_toInt_le.mp nonneg
  have upper := ms.toInt_lt
  have fits : ms.toInt.toNat < 2 ^ 63 := by omega
  refine ⟨ms.toInt.toNat, fits, ?_⟩
  rw [← Int64.toInt_inj, Int64.toInt_ofNat_of_lt fits, Int.toNat_of_nonneg lower]

/-- What was printed for a number of milliseconds is parsed as that number. -/
theorem twParseDurationMs_twFormatDurationMs (ms : Int64) (nonneg : 0 ≤ ms) :
    twParseDurationMs (twFormatDurationMs ms) = ms := by
  obtain ⟨n, fits, rfl⟩ := exists_ofNat nonneg
  exact Iso8601Duration.parse_format_ofNat fits

theorem twParseDurationMs_largest :
    (0 : Int64) ≤ Int64.maxValue ∧ twFormatDurationMs Int64.maxValue = "PT2562047788015H12M55.807S" ∧
      twParseDurationMs "PT2562047788015H12M55.807S" = Int64.maxValue := by
  have nonneg : (0 : Int64) ≤ Int64.maxValue := by decide
  have text : twFormatDurationMs Int64.maxValue = "PT2562047788015H12M55.807S" := by decide +kernel
  have parsed := twParseDurationMs_twFormatDurationMs Int64.maxValue nonneg
  rw [text] at parsed
  exact ⟨nonneg, text, parsed⟩

end WeftWarp
