import Mathlib.Algebra.Group.Nat.Defs
import Mathlib.Data.Nat.Log

/-! Rounding to a number of significant bits: to the nearest, and to even in a tie. Doubles with an integral value are
rounded to 53 bits. -/

namespace WeftWarp

/-- `n / 2 ^ k`, rounded. -/
def divEven (n k : Nat) : Nat :=
  let q := n / 2 ^ k
  let r := n % 2 ^ k
  if 2 ^ k < 2 * r ∨ (2 * r = 2 ^ k ∧ q % 2 = 1) then q + 1 else q

/-- How many bits of `n` lie beyond the first `p`. -/
def extraBits (p n : Nat) : Nat := n.log2 + 1 - p

/-- The number with `p` significant bits that is nearest to `n`. -/
def roundEven (p n : Nat) : Nat := divEven n (extraBits p n) * 2 ^ extraBits p n

theorem div_le_divEven (n k : Nat) : n / 2 ^ k ≤ divEven n k := by
  rw [divEven]
  split
  · exact Nat.le_succ _
  · exact Nat.le_refl _

theorem divEven_zero (n : Nat) : divEven n 0 = n := by
  simp [divEven, Nat.mod_one]

variable {p n m : Nat}

/-- A number that fits stays as it is. -/
theorem roundEven_of_lt (positive : 0 < p) (fits : n < 2 ^ p) : roundEven p n = n := by
  have none : extraBits p n = 0 := by
    by_cases zero : n = 0
    · simp [extraBits, zero]
      omega
    · have short := (Nat.log2_lt zero).mpr fits
      rw [extraBits]
      omega
  rw [roundEven, none, divEven_zero, Nat.pow_zero, Nat.mul_one]

theorem le_roundEven (positive : 0 < p) (long : 2 ^ p ≤ n) : 2 ^ p ≤ roundEven p n := by
  have nonzero : n ≠ 0 := by
    rintro rfl
    exact absurd long (Nat.not_le.mpr (Nat.two_pow_pos p))
  have log : p ≤ n.log2 := (Nat.le_log2 nonzero).mpr long
  have split : p - 1 + extraBits p n = n.log2 := by
    rw [extraBits]
    omega
  have quotient : 2 ^ (p - 1) ≤ n / 2 ^ extraBits p n := by
    rw [Nat.le_div_iff_mul_le (Nat.two_pow_pos _), ← Nat.pow_add, split]
    exact Nat.log2_self_le nonzero
  calc 2 ^ p ≤ 2 ^ n.log2 := Nat.pow_le_pow_right (by omega) log
    _ = 2 ^ (p - 1) * 2 ^ extraBits p n := by rw [← Nat.pow_add, split]
    _ ≤ divEven n (extraBits p n) * 2 ^ extraBits p n :=
        Nat.mul_le_mul_right _ (Nat.le_trans quotient (div_le_divEven n _))

/-- A number that fits is rounded to by no other number. -/
theorem eq_of_roundEven (positive : 0 < p) (fits : n < 2 ^ p) (rounds : roundEven p m = n) : m = n := by
  by_cases short : m < 2 ^ p
  · rw [← rounds, roundEven_of_lt positive short]
  · have long := le_roundEven positive (Nat.not_lt.mp short)
    omega

/-! ### The doubles of integers -/

/-- A `double` with an integral value. -/
structure IntegralDouble where
  value : Int
  deriving DecidableEq

namespace IntegralDouble

/-- The `double` nearest to an integer, without an upper limit on the exponent. -/
def nearest (z : Int) : IntegralDouble := ⟨z.sign * roundEven 53 z.natAbs⟩

/-- The conversion from `int64_t`. -/
def ofInt64 (i : Int64) : IntegralDouble := nearest i.toInt

theorem eq_of_ofInt64 {i j : Int64} (small : i.toInt.natAbs < 2 ^ 53) (same : ofInt64 i = ofInt64 j) : j = i := by
  have values := congrArg IntegralDouble.value same
  have kept : roundEven 53 i.toInt.natAbs = i.toInt.natAbs := roundEven_of_lt (by decide) small
  simp only [ofInt64, nearest, kept, Int.sign_mul_natAbs] at values
  have magnitude : roundEven 53 j.toInt.natAbs = i.toInt.natAbs := by
    rw [values, Int.natAbs_mul, Int.natAbs_natCast]
    by_cases zero : j.toInt = 0
    · simp [zero, roundEven_of_lt]
    · rw [Int.natAbs_sign_of_ne_zero zero, Nat.one_mul]
  have length := eq_of_roundEven (by decide) small magnitude
  rw [length, kept, ← length, Int.sign_mul_natAbs] at values
  exact (Int64.toInt_inj.mp values).symm

end IntegralDouble
end WeftWarp
