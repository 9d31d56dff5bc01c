import Mathlib.LinearAlgebra.Matrix.Determinant.Basic
import Mathlib.LinearAlgebra.Matrix.Adjugate
import WeftWarp.Rational

/-! # Matrices over exact numbers

The functions on flat lists are those on matrices: expansion along the first row is the determinant, the transposed
cofactors are the adjugate. So what is returned with `true` is the inverse. -/

namespace WeftWarp
namespace TwLoader
open Matrix ExtendedRational

/-! ## Flat lists -/

section Flat
variable {F : Type} [CxxMath F] {n : Nat}

theorem getElem?_flatten {α : Type} {width : Nat} : ∀ {ls : List (List α)}, (∀ l ∈ ls, l.length = width) →
    ∀ (i : Nat) {j : Nat}, j < width → ls.flatten[i * width + j]? = ls[i]?.bind (·[j]?)
  | [], _, i, j, _ => by simp
  | l :: ls, widths, 0, j, within => by
    have here : l.length = width := widths l List.mem_cons_self
    rw [Nat.zero_mul, Nat.zero_add, List.flatten_cons, List.getElem?_append_left (by omega)]
    rfl
  | l :: ls, widths, i + 1, j, within => by
    have here : l.length = width := widths l List.mem_cons_self
    have index : (i + 1) * width + j - l.length = i * width + j := by
      rw [here, Nat.succ_mul]
      omega
    have behind : l.length ≤ (i + 1) * width + j := by
      rw [here, Nat.succ_mul]
      omega
    rw [List.flatten_cons, List.getElem?_append_right behind, index,
      getElem?_flatten (fun l mem => widths l (List.mem_cons_of_mem _ mem)) i within]
    rfl

omit [CxxMath F] in
theorem length_rows (f : Nat → Nat → F) : (rows n f).length = n * n := by
  simp [rows, List.length_flatMap]

theorem entry_rows (f : Nat → Nat → F) {i j : Nat} (row : i < n) (column : j < n) : entry (rows n f) n i j = f i j := by
  have widths : ∀ l ∈ (List.range n).map fun i => (List.range n).map (f i), l.length = n := by simp
  rw [entry, rows, List.flatMap_def, getElem?_flatten widths i column]
  simp [row, column]

omit [CxxMath F] in
theorem rows_congr {f g : Nat → Nat → F} (same : ∀ i < n, ∀ j < n, f i j = g i j) : rows n f = rows n g :=
  List.flatMap_congr fun i row => List.map_congr_left fun j column =>
    same i (List.mem_range.mp row) j (List.mem_range.mp column)

theorem rows_entry {m : List F} (square : m.length = n * n) : rows n (entry m n) = m := by
  apply List.ext_getElem?
  intro k
  by_cases within : k < n * n
  · have some : 0 < n := Nat.pos_of_ne_zero fun zero => by simp [zero] at within
    have row : k / n < n := Nat.div_lt_of_lt_mul within
    have column : k % n < n := Nat.mod_lt k some
    have index : k / n * n + k % n = k := Nat.div_add_mod' k n
    have widths : ∀ l ∈ (List.range n).map fun i => (List.range n).map (entry m n i), l.length = n := by simp
    have here := getElem?_flatten widths (k / n) column
    rw [index] at here
    rw [rows, List.flatMap_def, here]
    simp [row, column, entry, index, square, within]
  · rw [List.getElem?_eq_none (by rw [length_rows]; omega), List.getElem?_eq_none (by omega)]

end Flat

/-! ## Minors -/

/-- The index behind the one left out. -/
def skip (r i : Nat) : Nat := if i < r then i else i + 1

theorem filter_range {n r : Nat} (within : r ≤ n) :
    (List.range (n + 1)).filter (· ≠ r) = (List.range n).map (skip r) := by
  induction n with
  | zero =>
    obtain rfl := Nat.le_zero.mp within
    rfl
  | succ n ih =>
    rw [List.range_succ, List.filter_append]
    by_cases last : r = n + 1
    · subst last
      have before : ∀ i ∈ List.range (n + 1), i < n + 1 := fun i mem => List.mem_range.mp mem
      have none : [n + 1].filter (· ≠ n + 1) = [] := by simp
      rw [List.filter_eq_self.mpr fun i mem => decide_eq_true (before i mem).ne, none, List.append_nil]
      exact ((List.map_congr_left fun i mem => if_pos (before i mem)).trans (List.map_id _)).symm
    · have earlier : r ≤ n := by omega
      have behind : skip r n = n + 1 := if_neg (by omega)
      rw [ih earlier, List.range_succ, List.map_append, List.map_singleton, behind]
      simp [Ne.symm last]

theorem skip_eq_succAbove {n : Nat} (r : Fin (n + 1)) (i : Fin n) : skip r i = r.succAbove i := by
  by_cases before : (i : Nat) < r
  · rw [skip, if_pos before, Fin.succAbove_of_castSucc_lt r i before]
    rfl
  · rw [skip, if_neg before, Fin.succAbove_of_le_castSucc r i (Nat.le_of_not_lt before)]
    rfl

/-! ## Lists of matrices -/

section Exact
variable {n : Nat}

/-- The flat list of a matrix. -/
def ofMatrix (A : Matrix (Fin n) (Fin n) ℚ) : List ExtendedRational :=
  rows n fun i j => if within : i < n ∧ j < n then .finite (A ⟨i, within.1⟩ ⟨j, within.2⟩) else 0.0

theorem rows_eq_ofMatrix {f : Nat → Nat → ExtendedRational} {A : Matrix (Fin n) (Fin n) ℚ}
    (same : ∀ i j : Fin n, f i j = .finite (A i j)) : rows n f = ofMatrix A :=
  rows_congr fun i row j column => by
    rw [dif_pos ⟨row, column⟩]
    exact same ⟨i, row⟩ ⟨j, column⟩

theorem entry_ofMatrix (A : Matrix (Fin n) (Fin n) ℚ) (i j : Fin n) : entry (ofMatrix A) n i j = .finite (A i j) := by
  rw [ofMatrix, entry_rows _ i.isLt j.isLt, dif_pos ⟨i.isLt, j.isLt⟩]

theorem matMinor_ofMatrix (A : Matrix (Fin (n + 1)) (Fin (n + 1)) ℚ) (r c : Fin (n + 1)) :
    matMinor (ofMatrix A) (n + 1) r c = ofMatrix (A.submatrix r.succAbove c.succAbove) := by
  have minor : matMinor (ofMatrix A) (n + 1) r c =
      rows n fun i j => entry (ofMatrix A) (n + 1) (skip r i) (skip c j) := by
    rw [matMinor, filter_range (Nat.le_of_lt_succ r.isLt), filter_range (Nat.le_of_lt_succ c.isLt), List.flatMap_map]
    simp only [List.map_map]
    rfl
  rw [minor]
  refine rows_eq_ofMatrix fun i j => ?_
  rw [skip_eq_succAbove, skip_eq_succAbove, entry_ofMatrix]
  rfl

theorem sum_finite (qs : List ℚ) : sum (qs.map .finite : List ExtendedRational) = .finite qs.sum := by
  have from' : ∀ (qs : List ℚ) (start : ℚ),
      (qs.map ExtendedRational.finite).foldl (· + ·) (.finite start) = .finite (start + qs.sum) := by
    intro qs
    induction qs with
    | nil => simp
    | cons q qs ih =>
      intro start
      rw [List.map_cons, List.foldl_cons, finite_add, ih, List.sum_cons, add_assoc]
  rw [sum, literal_zero, from', zero_add]

theorem sum_range {f : Nat → ExtendedRational} {g : Fin n → ℚ} (same : ∀ i : Fin n, f i = .finite (g i)) :
    sum ((List.range n).map f) = .finite (∑ i, g i) := by
  have indices : (List.range n).map f = (List.ofFn g).map .finite := by
    rw [← List.map_coe_finRange_eq_range, List.ofFn_eq_map, List.map_map, List.map_map]
    exact List.map_congr_left fun i _ => same i
  rw [indices, sum_finite, List.sum_ofFn]

theorem alternating_eq (k : Nat) : (alternating k : ExtendedRational) = .finite ((-1) ^ k) := by
  unfold alternating
  split
  · rename_i even
    rw [literal_one, (Nat.even_iff.mpr even).neg_one_pow]
  · rename_i odd
    rw [literal_one, finite_neg, (Nat.odd_iff.mpr (by omega)).neg_one_pow]

/-- Expansion along the first row gives the determinant. -/
theorem matDet_ofMatrix : ∀ {n : Nat} (A : Matrix (Fin (n + 1)) (Fin (n + 1)) ℚ),
    matDet (n + 1) (ofMatrix A) = .finite A.det
  | 0, A => (entry_ofMatrix A 0 0).trans (congrArg ExtendedRational.finite (Matrix.det_fin_one A).symm)
  | 1, A => by
    have expanded : matDet 2 (ofMatrix A) =
        entry (ofMatrix A) 2 (0 : Fin 2) (0 : Fin 2) * entry (ofMatrix A) 2 (1 : Fin 2) (1 : Fin 2) -
          entry (ofMatrix A) 2 (0 : Fin 2) (1 : Fin 2) * entry (ofMatrix A) 2 (1 : Fin 2) (0 : Fin 2) := rfl
    rw [expanded, Matrix.det_fin_two]
    simp only [entry_ofMatrix, finite_mul, finite_sub]
  | n + 2, A => by
    rw [Matrix.det_succ_row_zero, matDet]
    refine sum_range fun j => ?_
    have first : (ofMatrix A)[(j : Nat)]?.getD 0.0 = .finite (A 0 j) := by
      have atRow := entry_ofMatrix A 0 j
      simp only [entry, Fin.val_zero, Nat.zero_mul, Nat.zero_add] at atRow
      exact atRow
    have minor := matMinor_ofMatrix A 0 j
    rw [first, alternating_eq, show matMinor (ofMatrix A) (n + 3) 0 j = _ from minor, matDet_ofMatrix, finite_mul, finite_mul]
    rfl

theorem matMulV_ofMatrix (A B : Matrix (Fin n) (Fin n) ℚ) : matMulV (ofMatrix A) (ofMatrix B) n = ofMatrix (A * B) := by
  refine rows_eq_ofMatrix fun i j => ?_
  rw [Matrix.mul_apply]
  refine sum_range fun k => ?_
  rw [entry_ofMatrix, entry_ofMatrix, finite_mul]

theorem matTransposeV_ofMatrix (A : Matrix (Fin n) (Fin n) ℚ) : matTransposeV (ofMatrix A) n = ofMatrix A.transpose :=
  rows_eq_ofMatrix fun i j => entry_ofMatrix A j i

theorem map_div_ofMatrix (A : Matrix (Fin n) (Fin n) ℚ) {d : ℚ} (nonzero : d ≠ 0) :
    (ofMatrix A).map (· / .finite d) = ofMatrix (d⁻¹ • A) := by
  rw [ofMatrix, rows, List.map_flatMap]
  simp only [List.map_map]
  refine rows_eq_ofMatrix fun i j => ?_
  rw [Function.comp_apply, dif_pos ⟨i.isLt, j.isLt⟩, finite_div _ nonzero, Matrix.smul_apply, smul_eq_mul, div_eq_inv_mul]

theorem singular_iff (d : ℚ) : (Cxx.eq (.finite d) (0.0 : ExtendedRational) || Cxx.isNaN (.finite d : ExtendedRational) ||
    CxxMath.isInf (.finite d : ExtendedRational)) = true ↔ d = 0 := by
  have equal : Cxx.eq (.finite d) (0.0 : ExtendedRational) = (ExtendedRational.finite d == .finite 0) := by
    rw [literal_zero]
    rfl
  have number : Cxx.isNaN (.finite d : ExtendedRational) = false := rfl
  have bounded : CxxMath.isInf (.finite d : ExtendedRational) = false := rfl
  rw [equal, number, bounded]
  simp

/-- The adjugate is that of the transposed cofactors. -/
theorem matInverseV_ofMatrix (A : Matrix (Fin (n + 2)) (Fin (n + 2)) ℚ) : matInverseV (ofMatrix A) (n + 2) =
    if A.det = 0 then (false, List.replicate ((n + 2) * (n + 2)) 0.0) else (true, ofMatrix (A.det⁻¹ • A.adjugate)) := by
  have det : matDet (n + 2) (ofMatrix A) = .finite A.det := matDet_ofMatrix A
  unfold matInverseV
  dsimp only
  by_cases zero : A.det = 0
  · rw [det, if_pos ((singular_iff A.det).mpr zero), if_pos zero]
  · have cofactors : rows (n + 2) (fun i j => (alternating (i + j) : ExtendedRational) *
        matDet (n + 1) (matMinor (ofMatrix A) (n + 2) i j)) = ofMatrix A.adjugate.transpose := by
      refine rows_eq_ofMatrix fun i j => ?_
      have minor : matMinor (ofMatrix A) (n + 2) i j = ofMatrix (A.submatrix i.succAbove j.succAbove) :=
        matMinor_ofMatrix A i j
      rw [minor, alternating_eq, matDet_ofMatrix, finite_mul, Matrix.transpose_apply,
        Matrix.adjugate_fin_succ_eq_det_submatrix]
    rw [det, if_neg fun isZero => zero ((singular_iff A.det).mp isZero), if_neg zero]
    refine congrArg (Prod.mk true) ?_
    show (matTransposeV (rows (n + 2) fun i j => alternating (i + j) *
      matDet (n + 1) (matMinor (ofMatrix A) (n + 2) i j)) (n + 2)).map (· / .finite A.det) = _
    rw [cofactors, matTransposeV_ofMatrix, Matrix.transpose_transpose, map_div_ofMatrix _ zero]

/-- The identity as a flat list. -/
def identity (n : Nat) : List ExtendedRational := rows n fun i j => if i = j then 1.0 else 0.0

theorem identity_eq (n : Nat) : identity n = ofMatrix (1 : Matrix (Fin n) (Fin n) ℚ) := by
  refine rows_eq_ofMatrix fun i j => ?_
  rw [Matrix.one_apply, literal_one, literal_zero]
  by_cases same : i = j
  · rw [if_pos (congrArg Fin.val same), if_pos same]
  · rw [if_neg fun equal => same (Fin.ext equal), if_neg same]

/-- A list of rationals as the doubles of a node. -/
def doubles (m : List ℚ) : List ExtendedRational := m.map .finite

/-- The matrix of a flat list. -/
def toMatrix (n : Nat) (m : List ℚ) : Matrix (Fin n) (Fin n) ℚ := fun i j => m[(i : Nat) * n + j]?.getD 0

theorem doubles_eq_ofMatrix {m : List ℚ} (square : m.length = n * n) : doubles m = ofMatrix (toMatrix n m) := by
  rw [← rows_entry (show (doubles m).length = n * n by rw [doubles, List.length_map, square])]
  refine rows_eq_ofMatrix fun i j => ?_
  rw [entry, doubles, List.getElem?_map, literal_zero]
  exact Option.getD_map ExtendedRational.finite 0 _

end Exact

/-- Over exact numbers the determinant is that of the matrix, there is an inverse exactly if it is not zero, and then it is
    one on both sides; the determinant of a product is the product of the determinants. The nodes have matrices of
    dimension 2, 3 and 4. -/
theorem matInverseV_inverse (n : Nat) (large : 2 ≤ n) (m : List ℚ) (square : m.length = n * n) :
    (matDet n (doubles m) = .finite (toMatrix n m).det ∧
        ((matInverseV (doubles m) n).1 = true ↔ (toMatrix n m).det ≠ 0)) ∧
      ((matInverseV (doubles m) n).1 = true →
        matMulV (doubles m) (matInverseV (doubles m) n).2 n = identity n ∧
          matMulV (matInverseV (doubles m) n).2 (doubles m) n = identity n) ∧
      ∀ other : List ℚ, other.length = n * n →
        matDet n (matMulV (doubles m) (doubles other) n) = matDet n (doubles m) * matDet n (doubles other) := by
  obtain ⟨k, rfl⟩ : ∃ k, n = k + 2 := ⟨n - 2, by omega⟩
  have isA := doubles_eq_ofMatrix square
  generalize toMatrix (k + 2) m = A at isA ⊢
  have det : matDet (k + 2) (ofMatrix A) = .finite A.det := matDet_ofMatrix A
  rw [isA, matInverseV_ofMatrix, identity_eq]
  refine ⟨⟨det, ?_⟩, fun found => ?_, fun other otherSquare => ?_⟩
  · by_cases zero : A.det = 0 <;> simp [zero]
  · have nonzero : A.det ≠ 0 := by
      intro zero
      rw [if_pos zero] at found
      cases found
    rw [if_neg nonzero]
    dsimp only
    rw [matMulV_ofMatrix, matMulV_ofMatrix, Matrix.mul_smul, Matrix.smul_mul, Matrix.mul_adjugate, Matrix.adjugate_mul,
      smul_smul, inv_mul_cancel₀ nonzero, one_smul]
    exact ⟨rfl, rfl⟩
  · have isB := doubles_eq_ofMatrix otherSquare
    generalize toMatrix (k + 2) other = B at isB
    have product : matDet (k + 2) (ofMatrix (A * B)) = .finite (A * B).det := matDet_ofMatrix (A * B)
    have detB : matDet (k + 2) (ofMatrix B) = .finite B.det := matDet_ofMatrix B
    rw [isB, matMulV_ofMatrix, product, det, detB, Matrix.det_mul, finite_mul]

theorem matInverseV_inverse_two :
    (matInverseV (doubles [1, 2, 3, 5]) 2).1 = true ∧
      matMulV (doubles [1, 2, 3, 5]) (matInverseV (doubles [1, 2, 3, 5]) 2).2 2 = identity 2 := by
  have found : (matInverseV (doubles [1, 2, 3, 5]) 2).1 = true := by decide +kernel
  exact ⟨found, ((matInverseV_inverse 2 (Nat.le_refl 2) [1, 2, 3, 5] rfl).2.1 found).1⟩

end TwLoader
end WeftWarp
