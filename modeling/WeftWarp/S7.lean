import Mathlib.Algebra.Group.Int.Defs

/-! # Numbers of s7

The scripts of the guest run in the vendored `s7.c`, which is built without GMP: an integer has 64 bits, and a sum or a
difference that does not fit becomes a double. A script is stated for any arithmetic, so that it can be read with the
exact integers as well. -/

namespace WeftWarp
namespace S7

/-- `s7_double`, as far as the scripts come to use it. -/
class Double (R : Type) where
  /-- `(s7_double)s7_int` -/
  ofInteger : Int64 → R
  add : R → R → R
  sub : R → R → R
  eq : R → R → Bool
  lt : R → R → Bool
  /-- `modulo` of an integer and a double -/
  modulo : Int64 → R → R

/-- The operations of the scripts. -/
class Arithmetic (N : Type) where
  /-- An integer of the script or of its input. -/
  ofInteger : Int64 → N
  add : N → N → N
  sub : N → N → N
  eq : N → N → Bool
  lt : N → N → Bool
  modulo : Int64 → N → N

/-- A number is an integer or a double; the scripts make no ratio and no complex number. -/
inductive Number (R : Type) where
  | integer (i : Int64)
  | real (x : R)
  deriving DecidableEq

/-- The integer has 64 bits. -/
def Fits (z : Int) : Prop := -2 ^ 63 ≤ z ∧ z < 2 ^ 63

instance (z : Int) : Decidable (Fits z) := inferInstanceAs (Decidable (_ ∧ _))

namespace Number
variable {R : Type}

/-- The exact result of an operation on two integers, or its double on an overflow. -/
def checked (exact : Int) (rounded : R) : Number R := if Fits exact then .integer (.ofInt exact) else .real rounded

variable [Double R]

def toDouble : Number R → R
  | .integer i => Double.ofInteger i
  | .real x => x

/-- `g_add_2` -/
def add : Number R → Number R → Number R
  | .integer i, .integer j => checked (i.toInt + j.toInt) (Double.add (Double.ofInteger i) (Double.ofInteger j))
  | a, b => .real (Double.add a.toDouble b.toDouble)

/-- `g_subtract_2` -/
def sub : Number R → Number R → Number R
  | .integer i, .integer j => checked (i.toInt - j.toInt) (Double.sub (Double.ofInteger i) (Double.ofInteger j))
  | a, b => .real (Double.sub a.toDouble b.toDouble)

/-- `g_equal_2` -/
def eq : Number R → Number R → Bool
  | .integer i, .integer j => i == j
  | a, b => Double.eq a.toDouble b.toDouble

/-- `g_less_2` -/
def lt : Number R → Number R → Bool
  | .integer i, .integer j => i.toInt < j.toInt
  | a, b => Double.lt a.toDouble b.toDouble

/-- `g_modulo` of an integer. The result has the sign of the divisor, and a divisor 0 leaves the integer. -/
def modulo (i : Int64) : Number R → Number R
  | .integer j => .integer (.ofInt (Int.fmod i.toInt j.toInt))
  | .real y => .real (Double.modulo i y)

instance : Arithmetic (Number R) := ⟨.integer, add, sub, eq, lt, modulo⟩

end Number

/-- Exact integers. -/
instance : Arithmetic Int where
  ofInteger := Int64.toInt
  add := (· + ·)
  sub := (· - ·)
  eq a b := a == b
  lt a b := a < b
  modulo i b := Int.fmod i.toInt b

end S7
end WeftWarp
