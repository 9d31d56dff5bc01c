import Mathlib.Algebra.Order.Field.Rat
import Mathlib.Data.Rat.Floor
import WeftWarp.Nodes

/-! # Exact arithmetic

Rational numbers with the infinities and NaN, in the place of doubles: every sum, difference, product and quotient is
exact, and the special values behave as in IEEE 754. -/

namespace WeftWarp

inductive ExtendedRational where
  | nan
  | negInf
  | finite (q : ℚ)
  | posInf
  deriving DecidableEq

namespace ExtendedRational

def add : ExtendedRational → ExtendedRational → ExtendedRational
  | .finite a, .finite b => .finite (a + b)
  | .nan, _ | _, .nan => .nan
  | .posInf, .negInf | .negInf, .posInf => .nan
  | .posInf, _ | _, .posInf => .posInf
  | .negInf, _ | _, .negInf => .negInf

def neg : ExtendedRational → ExtendedRational
  | .nan => .nan
  | .negInf => .posInf
  | .finite a => .finite (-a)
  | .posInf => .negInf

/-- An infinity with the sign of the number. -/
def infinite (sign : ℚ) : ExtendedRational :=
  if sign = 0 then .nan else if 0 < sign then .posInf else .negInf

def mul : ExtendedRational → ExtendedRational → ExtendedRational
  | .finite a, .finite b => .finite (a * b)
  | .nan, _ | _, .nan => .nan
  | .finite a, .posInf | .posInf, .finite a => infinite a
  | .finite a, .negInf | .negInf, .finite a => infinite (-a)
  | .posInf, .posInf | .negInf, .negInf => .posInf
  | .posInf, .negInf | .negInf, .posInf => .negInf

/-- The sign of a zero is not kept: a quotient by zero is infinite with the sign of the dividend. -/
def div : ExtendedRational → ExtendedRational → ExtendedRational
  | .finite a, .finite b => if b = 0 then infinite a else .finite (a / b)
  | .finite _, .posInf | .finite _, .negInf => .finite 0
  | .posInf, .finite b => if b < 0 then .negInf else .posInf
  | .negInf, .finite b => if b < 0 then .posInf else .negInf
  | _, _ => .nan

/-- `<`; false if a side is NaN -/
def lt : ExtendedRational → ExtendedRational → Bool
  | .finite a, .finite b => a < b
  | .negInf, .finite _ | .negInf, .posInf | .finite _, .posInf => true
  | _, _ => false

/-- A function on the finite numbers, with its values at the infinities. -/
def lift (f : ℚ → ℚ) (atNegInf atPosInf : ExtendedRational) : ExtendedRational → ExtendedRational
  | .nan => .nan
  | .negInf => atNegInf
  | .finite a => .finite (f a)
  | .posInf => atPosInf

/-- Rounding towards zero -/
def truncate (a : ℚ) : ℤ := if 0 ≤ a then ⌊a⌋ else ⌈a⌉

/-- Texts are those of the rationals, and none is read. -/
instance : Cxx ExtendedRational where
  ofInt64 i := .finite i.toInt
  eq a b := a != .nan && a == b
  lt := lt
  render
    | .nan => "nan"
    | .negInf => "-inf"
    | .finite a => toString a
    | .posInf => "inf"
  stod _ := none
  bits _ := 0
  isNaN a := a == .nan
  zero := .finite 0
  hashString := Cxx.hashString Int

/-- The functions whose values need not be rational are NaN. -/
instance : CxxMath ExtendedRational where
  add := add
  sub a b := add a (neg b)
  mul := mul
  div := div
  neg := neg
  ofScientific m s e := .finite (OfScientific.ofScientific m s e)
  toInt64
    | .finite a => Int64.ofInt (truncate a)
    | _ => Int64.minValue
  isInf a := a == .posInf || a == .negInf
  fabs := lift abs .posInf .posInf
  fmod
    | .finite a, .finite b => if b = 0 then .nan else .finite (a - b * truncate (a / b))
    | .finite a, .posInf | .finite a, .negInf => .finite a
    | _, _ => .nan
  pow _ _ := .nan
  floor := lift (fun a => ⌊a⌋) .negInf .posInf
  ceil := lift (fun a => ⌈a⌉) .negInf .posInf
  trunc := lift (fun a => truncate a) .negInf .posInf
  round := lift (fun a => if 0 ≤ a then ⌊a + 1 / 2⌋ else ⌈a - 1 / 2⌉) .negInf .posInf
  sqrt _ := .nan
  cbrt _ := .nan
  exp _ := .nan
  log _ := .nan
  log2 _ := .nan
  log10 _ := .nan
  sin _ := .nan
  cos _ := .nan
  tan _ := .nan
  asin _ := .nan
  acos _ := .nan
  atan _ := .nan
  atan2 _ _ := .nan
  sinh _ := .nan
  cosh _ := .nan
  tanh _ := .nan
  asinh _ := .nan
  acosh _ := .nan
  atanh _ := .nan
  e := .nan
  pi := .nan
  infinity := .posInf
  quietNaN := .nan
  random := .nan

/-! ### Finite numbers -/

variable (a b : ℚ)

@[simp] theorem finite_add : (.finite a + .finite b : ExtendedRational) = .finite (a + b) := rfl

@[simp] theorem finite_sub : (.finite a - .finite b : ExtendedRational) = .finite (a - b) :=
  congrArg finite (sub_eq_add_neg a b).symm

@[simp] theorem finite_mul : (.finite a * .finite b : ExtendedRational) = .finite (a * b) := rfl

@[simp] theorem finite_neg : (-.finite a : ExtendedRational) = .finite (-a) := rfl

variable {b} in
theorem finite_div (nonzero : b ≠ 0) : (.finite a / .finite b : ExtendedRational) = .finite (a / b) := if_neg nonzero

@[simp] theorem literal_zero : (0.0 : ExtendedRational) = .finite 0 := by
  have zero : (0.0 : ℚ) = 0 := by norm_num
  exact congrArg finite zero

@[simp] theorem literal_one : (1.0 : ExtendedRational) = .finite 1 := by
  have one : (1.0 : ℚ) = 1 := by norm_num
  exact congrArg finite one

@[simp] theorem literal_two : (2.0 : ExtendedRational) = .finite 2 := by
  have two : (2.0 : ℚ) = 2 := by norm_num
  exact congrArg finite two

end ExtendedRational

end WeftWarp
