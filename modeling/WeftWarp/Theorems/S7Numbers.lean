import WeftWarp.Lib.RoundEven
import WeftWarp.S7

/-! # Exact numbers of s7

As long as the exact results have 64 bits, the numbers of s7 are the exact ones. -/

namespace WeftWarp
namespace S7

/-! ### Exact integers -/

@[simp] theorem ofInteger_int (i : Int64) : (Arithmetic.ofInteger i : Int) = i.toInt := rfl

@[simp] theorem ofInteger_zero : (Arithmetic.ofInteger 0 : Int) = 0 := rfl

@[simp] theorem ofInteger_one : (Arithmetic.ofInteger 1 : Int) = 1 := rfl

@[simp] theorem add_int (a b : Int) : Arithmetic.add a b = a + b := rfl

@[simp] theorem sub_int (a b : Int) : Arithmetic.sub a b = a - b := rfl

@[simp] theorem eq_int (a b : Int) : (Arithmetic.eq a b = true) = (a = b) := propext beq_iff_eq

@[simp] theorem lt_int (a b : Int) : (Arithmetic.lt a b = true) = (a < b) := propext decide_eq_true_iff

/-! ### Integers of 64 bits -/

theorem toInt_ofInt {z : Int} (fits : Fits z) : (Int64.ofInt z).toInt = z :=
  Int64.toInt_ofInt_of_le fits.1 fits.2

theorem fits_toInt (i : Int64) : Fits i.toInt := ⟨i.le_toInt, i.toInt_lt⟩

namespace Number
variable {R : Type} [Double R] {a b : Int}

/-- The number of an integer that fits. -/
def ofInt (z : Int) : Number R := .integer (.ofInt z)

omit [Double R] in
theorem ofInt_toInt (i : Int64) : (ofInt i.toInt : Number R) = .integer i := congrArg integer (Int64.ofInt_toInt i)

theorem ofInteger_eq (i : Int64) : (Arithmetic.ofInteger i : Number R) = ofInt i.toInt := (ofInt_toInt i).symm

theorem lt_ofInt (left : Fits a) (right : Fits b) :
    Arithmetic.lt (ofInt a : Number R) (ofInt b) = Arithmetic.lt a b := by
  change decide ((Int64.ofInt a).toInt < (Int64.ofInt b).toInt) = decide (a < b)
  rw [toInt_ofInt left, toInt_ofInt right]

section Right
variable (i : Int64) (left : Fits a)
include left

theorem add_ofInteger (sum : Fits (a + i.toInt)) :
    Arithmetic.add (ofInt a : Number R) (Arithmetic.ofInteger i) = ofInt (a + i.toInt) := by
  change checked ((Int64.ofInt a).toInt + i.toInt) _ = _
  rw [toInt_ofInt left, checked, if_pos sum]
  rfl

theorem sub_ofInteger (difference : Fits (a - i.toInt)) :
    Arithmetic.sub (ofInt a : Number R) (Arithmetic.ofInteger i) = ofInt (a - i.toInt) := by
  change checked ((Int64.ofInt a).toInt - i.toInt) _ = _
  rw [toInt_ofInt left, checked, if_pos difference]
  rfl

theorem eq_ofInteger :
    Arithmetic.eq (ofInt a : Number R) (Arithmetic.ofInteger i) = Arithmetic.eq a (Arithmetic.ofInteger i) := by
  refine Bool.eq_iff_iff.mpr ?_
  change (Int64.ofInt a == i) = true ↔ (a == i.toInt) = true
  rw [beq_iff_eq, beq_iff_eq, ← Int64.toInt_inj, toInt_ofInt left]

theorem lt_ofInteger :
    Arithmetic.lt (ofInt a : Number R) (Arithmetic.ofInteger i) = Arithmetic.lt a (Arithmetic.ofInteger i) := by
  rw [ofInteger_eq, lt_ofInt left (fits_toInt i)]
  rfl

end Right

theorem modulo_ofInt (i : Int64) (right : Fits b) :
    Arithmetic.modulo i (ofInt b : Number R) = ofInt (Int.fmod i.toInt b) := by
  change integer (.ofInt (Int.fmod i.toInt (Int64.ofInt b).toInt)) = _
  rw [toInt_ofInt right]
  rfl

end Number

/-! ### Doubles with an integral value -/

/-- Sums and differences are rounded. -/
instance : Double IntegralDouble where
  ofInteger := .ofInt64
  add x y := .nearest (x.value + y.value)
  sub x y := .nearest (x.value - y.value)
  eq x y := x == y
  lt x y := x.value < y.value
  modulo i y := .nearest (Int.fmod i.toInt y.value)

end S7
end WeftWarp
