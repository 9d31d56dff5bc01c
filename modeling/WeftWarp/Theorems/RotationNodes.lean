import Mathlib.Algebra.Quaternion
import Mathlib.Tactic.LinearCombination
import WeftWarp.Theorems.MatrixNodes

/-! # Rotations over exact numbers

A unit quaternion turns a vector by conjugation, and so do `rotate3D` and the matrix of `matCompose`. Rotations then
compose as quaternions multiply, and they keep lengths. -/

namespace WeftWarp
namespace TwLoader
open ExtendedRational Quaternion

/-! ## Vectors and quaternions of rationals -/

/-- The numbers of an array. -/
def HasNumbers (a : TwValue ExtendedRational) (qs : List ℚ) : Prop :=
  a.isArray = true ∧ a.asArray.map TwValue.asNumber = doubles qs

theorem hasNumbers_floats (qs : List ℚ) : HasNumbers (floats (doubles qs)) qs := by
  refine ⟨rfl, ?_⟩
  simp only [floats, TwValue.asArray, List.map_map]
  exact List.map_id'' (fun _ => rfl) _

theorem HasNumbers.isVec {a : TwValue ExtendedRational} {qs : List ℚ} (numbers : HasNumbers a qs) {n : Nat}
    (long : n ≤ qs.length) :
    isVec n a = true := by
  have length : a.asArray.length = qs.length := by simpa [doubles] using congrArg List.length numbers.2
  rw [TwLoader.isVec, numbers.1, length]
  simpa using long

theorem HasNumbers.comp {a : TwValue ExtendedRational} {qs : List ℚ} (numbers : HasNumbers a qs) {i : Nat} {q : ℚ}
    (here : qs[i]? = some q) : comp a i = .finite q := by
  have same := congrArg (·[i]?) numbers.2
  simp only [List.getElem?_map, doubles, here, Option.map_some, Option.map_eq_some_iff] at same
  obtain ⟨x, found, number⟩ := same
  rw [TwLoader.comp, found]
  exact number

/-- A vector as a quaternion without a real part. -/
def vec (x y z : ℚ) : ℍ[ℚ] := ⟨0, x, y, z⟩

@[simp] theorem re_vec (x y z : ℚ) : (vec x y z).re = 0 := rfl

@[simp] theorem imI_vec (x y z : ℚ) : (vec x y z).imI = x := rfl

@[simp] theorem imJ_vec (x y z : ℚ) : (vec x y z).imJ = y := rfl

@[simp] theorem imK_vec (x y z : ℚ) : (vec x y z).imK = z := rfl

/-- The vector of a pure quaternion. -/
def vecList (v : ℍ[ℚ]) : List ℚ := [v.imI, v.imJ, v.imK]

/-- The components of a quaternion, the real part last. -/
def quatList (q : ℍ[ℚ]) : List ℚ := [q.imI, q.imJ, q.imK, q.re]

/-- The rotation of a vector by a quaternion: conjugation, if it is a unit quaternion. -/
def turned (q v : ℍ[ℚ]) : ℍ[ℚ] := q * v * star q + (1 - normSq q) • v

theorem turned_of_unit {q : ℍ[ℚ]} (unit : normSq q = 1) (v : ℍ[ℚ]) : turned q v = q * v * star q := by
  rw [turned, unit, sub_self, zero_smul, add_zero]

/-- With the cross product of the imaginary part and the vector, taken twice. -/
theorem turned_vec (q : ℍ[ℚ]) (x y z : ℚ) : turned q (vec x y z) = vec
    (x + 2 * (q.imJ * (q.imI * y - q.imJ * x) - q.imK * (q.imK * x - q.imI * z) + q.re * (q.imJ * z - q.imK * y)))
    (y + 2 * (q.imK * (q.imJ * z - q.imK * y) - q.imI * (q.imI * y - q.imJ * x) + q.re * (q.imK * x - q.imI * z)))
    (z + 2 * (q.imI * (q.imK * x - q.imI * z) - q.imJ * (q.imJ * z - q.imK * y) + q.re * (q.imI * y - q.imJ * x))) := by
  ext <;>
    simp only [turned, re_vec, imI_vec, imJ_vec, imK_vec, Quaternion.re_add, Quaternion.imI_add, Quaternion.imJ_add,
      Quaternion.imK_add, Quaternion.re_mul, Quaternion.imI_mul, Quaternion.imJ_mul, Quaternion.imK_mul, Quaternion.re_star,
      Quaternion.imI_star, Quaternion.imJ_star, Quaternion.imK_star, Quaternion.re_smul, Quaternion.imI_smul,
      Quaternion.imJ_smul, Quaternion.imK_smul, smul_eq_mul, Quaternion.normSq_def'] <;>
    ring

theorem exists_turned_vec (q : ℍ[ℚ]) (x y z : ℚ) : ∃ x' y' z', turned q (vec x y z) = vec x' y' z' :=
  ⟨_, _, _, turned_vec q x y z⟩

/-- Rotations compose as the quaternions multiply. -/
theorem turned_mul {p q : ℍ[ℚ]} (unitP : normSq p = 1) (unitQ : normSq q = 1) (v : ℍ[ℚ]) :
    turned (p * q) v = turned p (turned q v) := by
  have unit : normSq (p * q) = 1 := by rw [map_mul, unitP, unitQ, one_mul]
  rw [turned_of_unit unit, turned_of_unit unitP, turned_of_unit unitQ, star_mul]
  simp only [mul_assoc]

theorem normSq_turned {q : ℍ[ℚ]} (unit : normSq q = 1) (v : ℍ[ℚ]) : normSq (turned q v) = normSq v := by
  rw [turned_of_unit unit, map_mul, map_mul, normSq_star, unit, one_mul, mul_one]

theorem normSq_vec (x y z : ℚ) : normSq (vec x y z) = x ^ 2 + y ^ 2 + z ^ 2 := by
  rw [Quaternion.normSq_def', re_vec, imI_vec, imJ_vec, imK_vec]
  ring

/-! ## Nodes -/

section Nodes
variable {a b t s : TwValue ExtendedRational} {p q : ℍ[ℚ]} {x y z : ℚ}

theorem quatMul_eq (isA : HasNumbers a (quatList p)) (isB : HasNumbers b (quatList q)) (c d : TwValue ExtendedRational) :
    quatMul a b c d = floats (doubles (quatList (p * q))) := by
  have vectors : (isVec 4 a && isVec 4 b) = true := by
    rw [isA.isVec (Nat.le_refl 4), isB.isVec (Nat.le_refl 4)]
    rfl
  rw [quatMul, if_pos vectors, isA.comp (i := 0) rfl, isA.comp (i := 1) rfl, isA.comp (i := 2) rfl, isA.comp (i := 3) rfl,
    isB.comp (i := 0) rfl, isB.comp (i := 1) rfl, isB.comp (i := 2) rfl, isB.comp (i := 3) rfl]
  simp only [hamilton, finite_mul, finite_add, finite_sub, quatList, doubles, List.map_cons, List.map_nil,
    Quaternion.re_mul, Quaternion.imI_mul, Quaternion.imJ_mul, Quaternion.imK_mul]
  refine congrArg floats ?_
  simp only [List.cons.injEq, finite.injEq, and_true]
  exact ⟨trivial, by ring, by ring⟩

theorem rotate3D_eq (isV : HasNumbers a [x, y, z]) (isQ : HasNumbers b (quatList q)) (c d : TwValue ExtendedRational) :
    rotate3D a b c d = floats (doubles (vecList (turned q (vec x y z)))) := by
  have vectors : (isVec 3 a && isVec 4 b) = true := by
    rw [isV.isVec (Nat.le_refl 3), isQ.isVec (Nat.le_refl 4)]
    rfl
  rw [rotate3D, if_pos vectors, isV.comp (i := 0) rfl, isV.comp (i := 1) rfl, isV.comp (i := 2) rfl,
    isQ.comp (i := 0) rfl, isQ.comp (i := 1) rfl, isQ.comp (i := 2) rfl, isQ.comp (i := 3) rfl, turned_vec]
  simp only [rotated, literal_two, finite_mul, finite_add, finite_sub, vecList, doubles, List.map_cons, List.map_nil,
    imI_vec, imJ_vec, imK_vec]

theorem matToDoubles_floats (vs : List ExtendedRational) : matToDoubles (floats vs) = vs := by
  simp only [matToDoubles, floats, TwValue.asArray, List.map_map]
  exact List.map_id'' (fun _ => rfl) vs

theorem transform_four {m : List ExtendedRational} (square : m.length = 16) {w : ℚ} (isA : HasNumbers a [x, y, z, w])
    (c d : TwValue ExtendedRational) : transform a (floats m) c d = floats ([0, 1, 2, 3].map fun i =>
      .finite 0 + entry m 4 i 0 * .finite x + entry m 4 i 1 * .finite y + entry m 4 i 2 * .finite z +
        entry m 4 i 3 * .finite w) := by
  have length : a.asArray.length = 4 := by simpa [doubles] using congrArg List.length isA.2
  have arrays : (a.isArray && (floats m).isArray) = true := by
    rw [isA.1]
    rfl
  have dimension : matDim m.length = 4 := by
    rw [square]
    rfl
  have range : List.range 4 = [0, 1, 2, 3] := by decide
  rw [transform, if_pos arrays, matToDoubles_floats]
  dsimp only
  rw [dimension, if_neg (by simp [length]), range]
  refine congrArg floats ?_
  simp only [sum, List.map_cons, List.map_nil, List.foldl_cons, List.foldl_nil, isA.comp (i := 0) rfl, isA.comp (i := 1) rfl,
    isA.comp (i := 2) rfl, isA.comp (i := 3) rfl, literal_zero]

/-- The matrix turns a point as `rotate3D` does, for any quaternion. -/
theorem transform_matCompose {tx ty tz sx sy sz : ℚ} (isT : HasNumbers t [tx, ty, tz]) (isQ : HasNumbers b (quatList q))
    (isS : HasNumbers s [sx, sy, sz]) (isA : HasNumbers a [x, y, z, 1]) {rx ry rz : ℚ}
    (rotation : turned q (vec (sx * x) (sy * y) (sz * z)) = vec rx ry rz) (c d e : TwValue ExtendedRational) :
    transform a (matCompose t b s c) d e = floats (doubles [tx + rx, ty + ry, tz + rz, 1]) := by
  have vectors : (isVec 3 t && isVec 4 b && isVec 3 s) = true := by
    rw [isT.isVec (Nat.le_refl 3), isQ.isVec (Nat.le_refl 4), isS.isVec (Nat.le_refl 3)]
    rfl
  rw [turned_vec] at rotation
  have first := congrArg QuaternionAlgebra.imI rotation
  have second := congrArg QuaternionAlgebra.imJ rotation
  have third := congrArg QuaternionAlgebra.imK rotation
  simp only [imI_vec, imJ_vec, imK_vec] at first second third
  rw [matCompose, if_pos vectors, isT.comp (i := 0) rfl, isT.comp (i := 1) rfl, isT.comp (i := 2) rfl,
    isQ.comp (i := 0) rfl, isQ.comp (i := 1) rfl, isQ.comp (i := 2) rfl, isQ.comp (i := 3) rfl,
    isS.comp (i := 0) rfl, isS.comp (i := 1) rfl, isS.comp (i := 2) rfl]
  simp only [literal_one, literal_two, literal_zero, finite_mul, finite_add, finite_sub]
  rw [transform_four rfl isA]
  refine congrArg floats ?_
  simp only [List.map_cons, List.map_nil, entry, doubles, ← first, ← second, ← third]
  simp
  exact ⟨by ring, by ring, by ring⟩

end Nodes

/-- Rotations by unit quaternions compose as these multiply and keep lengths. A composed matrix scales, turns and moves
    a point, for any quaternion. -/
theorem rotate3D_agrees (p q v : TwValue ExtendedRational) (P Q : ℍ[ℚ]) (x y z : ℚ) (isP : HasNumbers p (quatList P))
    (isQ : HasNumbers q (quatList Q)) (isV : HasNumbers v [x, y, z]) :
    (normSq P = 1 → normSq Q = 1 →
      rotate3D v (quatMul p q .nil .nil) .nil .nil = rotate3D (rotate3D v q .nil .nil) p .nil .nil) ∧
    (normSq Q = 1 → ∃ x' y' z', HasNumbers (rotate3D v q .nil .nil) [x', y', z'] ∧
      x' ^ 2 + y' ^ 2 + z' ^ 2 = x ^ 2 + y ^ 2 + z ^ 2) ∧
    ∀ (t s point : TwValue ExtendedRational) (tx ty tz sx sy sz : ℚ), HasNumbers t [tx, ty, tz] →
      HasNumbers s [sx, sy, sz] → HasNumbers point [x, y, z, 1] →
      ∃ rx ry rz, rotate3D (floats (doubles [sx * x, sy * y, sz * z])) q .nil .nil = floats (doubles [rx, ry, rz]) ∧
        transform point (matCompose t q s .nil) .nil .nil = floats (doubles [tx + rx, ty + ry, tz + rz, 1]) := by
  refine ⟨fun unitP unitQ => ?_, fun unitQ => ?_, fun t s point tx ty tz sx sy sz isT isS isPoint => ?_⟩
  · obtain ⟨x', y', z', same⟩ := exists_turned_vec Q x y z
    have once : rotate3D v q .nil .nil = floats (doubles [x', y', z']) := by
      rw [rotate3D_eq isV isQ, same]
      rfl
    rw [quatMul_eq isP isQ, once, rotate3D_eq isV (hasNumbers_floats _), rotate3D_eq (hasNumbers_floats _) isP,
      turned_mul unitP unitQ, same]
  · obtain ⟨x', y', z', same⟩ := exists_turned_vec Q x y z
    refine ⟨x', y', z', ?_, ?_⟩
    · rw [rotate3D_eq isV isQ, same]
      exact hasNumbers_floats _
    · rw [← normSq_vec, ← normSq_vec, ← same, normSq_turned unitQ]
  · obtain ⟨rx, ry, rz, rotation⟩ := exists_turned_vec Q (sx * x) (sy * y) (sz * z)
    refine ⟨rx, ry, rz, ?_, transform_matCompose isT isQ isS isPoint rotation .nil .nil .nil⟩
    rw [rotate3D_eq (hasNumbers_floats _) isQ, rotation]
    rfl

/-- Two unit quaternions, about the third and the first axis. -/
theorem rotate3D_agrees_axes :
    let p : TwValue ExtendedRational := floats (doubles [0, 0, 3 / 5, 4 / 5])
    let q : TwValue ExtendedRational := floats (doubles [4 / 5, 0, 0, 3 / 5])
    let v : TwValue ExtendedRational := floats (doubles [1, 2, 3])
    rotate3D v (quatMul p q .nil .nil) .nil .nil = rotate3D (rotate3D v q .nil .nil) p .nil .nil := by
  have unitP : normSq (⟨4 / 5, 0, 0, 3 / 5⟩ : ℍ[ℚ]) = 1 :=
    (Quaternion.normSq_def' _).trans (by norm_num)
  have unitQ : normSq (⟨3 / 5, 4 / 5, 0, 0⟩ : ℍ[ℚ]) = 1 :=
    (Quaternion.normSq_def' _).trans (by norm_num)
  exact (rotate3D_agrees _ _ _ ⟨4 / 5, 0, 0, 3 / 5⟩ ⟨3 / 5, 4 / 5, 0, 0⟩ 1 2 3 (hasNumbers_floats _) (hasNumbers_floats _)
    (hasNumbers_floats _)).1 unitP unitQ

end TwLoader
end WeftWarp
