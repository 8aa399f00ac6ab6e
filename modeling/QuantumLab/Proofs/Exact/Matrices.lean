import Mathlib.LinearAlgebra.Matrix.Hermitian
import Mathlib.LinearAlgebra.Matrix.Trace
import QuantumLab.Proofs.Exact.Reals

/-
  This file reads the vectors and matrices of exact
  arithmetic as those of linear algebra over the complex
  numbers.

  Key definitions include:
    * `Vec.toVector`
    * `Mat.toMatrix`
    * `Mat.HasExtents`

  Main statements:
    * `Mat.ext_toMatrix` says that a matrix is determined by
      its extents and its reading.
    * `Mat.toMatrix_mul`, `Mat.toVector_mulVec` and
      `Mat.toMatrix_outer` say that products are those of
      linear algebra.
    * `Mat.toComplex_trace` says the same of traces.
    * `Mat.squaredNorm_eq_dotProduct` says that the squared
      norm is the product of a vector with itself.
    * `Mat.largestModulus_le_zero_iff` says that a matrix
      without a positive modulus is zero.
-/

namespace QuantumLab

open Matrix

/- The entries of a vector as complex numbers. -/
noncomputable def Vec.toVector (v : Vec ℝ) (n : Nat) : Fin n → ℂ :=
  fun i => (v.entry i).toComplex

namespace Mat

/- The entries of a matrix as complex numbers. -/
noncomputable def toMatrix
    (a : Mat ℝ)
    (n m : Nat) : Matrix (Fin n) (Fin m) ℂ :=
  fun i j => (a.entry i j).toComplex

/- The extents of a matrix. -/
structure HasExtents (a : Mat ℝ) (n m : Nat) : Prop where
  rows : a.rows = n
  cols : a.cols = m

variable
  {a b : Mat ℝ}
  {v : Vec ℝ}
  {n m l : Nat}

theorem HasExtents.add
    (hExtents : a.HasExtents n m) :
    (a + b).HasExtents n m :=
  ⟨hExtents.rows, hExtents.cols⟩

theorem HasExtents.sub
    (hExtents : a.HasExtents n m) :
    (a - b).HasExtents n m :=
  ⟨hExtents.rows, hExtents.cols⟩

theorem HasExtents.mul
    (hLeft : a.HasExtents n m)
    (hRight : b.HasExtents m l) :
    (a * b).HasExtents n l :=
  ⟨hLeft.rows, hRight.cols⟩

theorem HasExtents.scaleReal
    (hExtents : a.HasExtents n m)
    (r : ℝ) :
    (a.scaleReal r).HasExtents n m :=
  ⟨hExtents.rows, hExtents.cols⟩

theorem HasExtents.scale
    (hExtents : a.HasExtents n m)
    (z : Scalar ℝ) :
    (a.scale z).HasExtents n m :=
  ⟨hExtents.rows, hExtents.cols⟩

theorem HasExtents.dagger
    (hExtents : a.HasExtents n m) :
    a.dagger.HasExtents m n :=
  ⟨hExtents.cols, hExtents.rows⟩

theorem hasExtents_zero : (zero n m : Mat ℝ).HasExtents n m :=
  ⟨rfl, rfl⟩

theorem hasExtents_outer
    (hSize : v.size = n) :
    (outer v v).HasExtents n n :=
  ⟨hSize, hSize⟩

/- Matrices of the same extents are the same if they read the same. -/
theorem ext_toMatrix
    (hLeft : a.HasExtents n m)
    (hRight : b.HasExtents n m)
    (hSame : a.toMatrix n m = b.toMatrix n m) :
    a = b := by
  apply ext_entry (hLeft.rows.trans hRight.rows.symm)
    (hLeft.cols.trans hRight.cols.symm)
  intro i hRow j hCol
  apply Scalar.toComplex_injective
  exact congrFun (congrFun hSame ⟨i, hLeft.rows ▸ hRow⟩)
    ⟨j, hLeft.cols ▸ hCol⟩

------------------------------------------------------------
-- Entrywise operations
------------------------------------------------------------

theorem toMatrix_add
    (hExtents : a.HasExtents n m) :
    (a + b).toMatrix n m = a.toMatrix n m + b.toMatrix n m := by
  ext i j
  rw [toMatrix, entry_add a b (hExtents.rows ▸ i.isLt)
    (hExtents.cols ▸ j.isLt), Scalar.toComplex_add]
  rfl

theorem toMatrix_sub
    (hExtents : a.HasExtents n m) :
    (a - b).toMatrix n m = a.toMatrix n m - b.toMatrix n m := by
  ext i j
  rw [toMatrix, entry_sub a b (hExtents.rows ▸ i.isLt)
    (hExtents.cols ▸ j.isLt), Scalar.toComplex_sub]
  rfl

theorem toMatrix_scaleReal
    (hExtents : a.HasExtents n m)
    (r : ℝ) :
    (a.scaleReal r).toMatrix n m = (r : ℂ) • a.toMatrix n m := by
  ext i j
  rw [toMatrix, entry_scaleReal r a (hExtents.rows ▸ i.isLt)
    (hExtents.cols ▸ j.isLt), Scalar.toComplex_scaleReal]
  rfl

theorem toMatrix_scale
    (hExtents : a.HasExtents n m)
    (z : Scalar ℝ) :
    (a.scale z).toMatrix n m = z.toComplex • a.toMatrix n m := by
  ext i j
  rw [toMatrix, entry_scale z a (hExtents.rows ▸ i.isLt)
    (hExtents.cols ▸ j.isLt), Scalar.toComplex_mul]
  rfl

theorem toMatrix_zero :
    (zero n m : Mat ℝ).toMatrix n m = 0 := by
  ext i j
  rw [toMatrix, entry_zero, Scalar.toComplex_zero]
  rfl

theorem toMatrix_identity :
    (identity n : Mat ℝ).toMatrix n n = 1 := by
  ext i j
  rw [toMatrix, entry_identity i.isLt j.isLt, Matrix.one_apply]
  by_cases hSame : i = j
  · rw [if_pos (congrArg Fin.val hSame), if_pos hSame,
      Scalar.toComplex_one]
  · rw [if_neg (fun hEqual => hSame (Fin.ext hEqual)), if_neg hSame,
      Scalar.toComplex_zero]

theorem toMatrix_dagger
    (hExtents : a.HasExtents n m) :
    a.dagger.toMatrix m n = (a.toMatrix n m)ᴴ := by
  ext i j
  rw [toMatrix, entry_dagger a (hExtents.cols ▸ i.isLt)
    (hExtents.rows ▸ j.isLt), Scalar.toComplex_conj]
  rfl

------------------------------------------------------------
-- Products
------------------------------------------------------------

theorem toMatrix_mul
    (hLeft : a.HasExtents n m)
    (hRight : b.HasExtents m l) :
    (a * b).toMatrix n l = a.toMatrix n m * b.toMatrix m l := by
  ext i j
  rw [toMatrix, entry_mul a b (hLeft.rows ▸ i.isLt) (hRight.cols ▸ j.isLt),
    toComplex_sumOver, hLeft.cols, Matrix.mul_apply,
    Finset.sum_range]
  exact Finset.sum_congr rfl fun k _ => Scalar.toComplex_mul _ _

theorem toVector_mulVec
    (hExtents : a.HasExtents n m) :
    (a.mulVec v).toVector n = a.toMatrix n m *ᵥ v.toVector m := by
  ext i
  rw [Vec.toVector, entry_mulVec a v (hExtents.rows ▸ i.isLt),
    toComplex_sumOver, hExtents.cols, Finset.sum_range]
  exact Finset.sum_congr rfl fun k _ => Scalar.toComplex_mul _ _

theorem toMatrix_outer
    (hSize : v.size = n) :
    (outer v v).toMatrix n n =
      vecMulVec (v.toVector n) (star (v.toVector n)) := by
  ext i j
  rw [toMatrix, entry_outer v v (hSize ▸ i.isLt) (hSize ▸ j.isLt),
    Scalar.toComplex_mul, Scalar.toComplex_conj]
  rfl

theorem toComplex_trace
    (hRows : a.rows = n) :
    a.trace.toComplex = (a.toMatrix n n).trace := by
  rw [trace, toComplex_sumOver, hRows, Finset.sum_range]
  rfl

------------------------------------------------------------
-- Norms
------------------------------------------------------------

/- A squared norm is the product of a vector with itself. -/
theorem squaredNorm_eq_dotProduct
    (hSize : v.size = n) :
    (v.squaredNorm : ℂ) = star (v.toVector n) ⬝ᵥ v.toVector n := by
  rw [Vec.squaredNorm_eq_sum, hSize, Finset.sum_range, dotProduct]
  push_cast
  exact Finset.sum_congr rfl fun k _ => Complex.normSq_eq_conj_mul_self

/- A matrix is zero if and only if it has no positive modulus. -/
theorem largestModulus_le_zero_iff
    (hExtents : a.HasExtents n m) :
    a.largestModulus ≤ 0 ↔ a.toMatrix n m = 0 := by
  constructor
  · intro hModulus
    ext i j
    have hEntry : (a.entry i j).modulus ≤ 0 :=
      (modulus_le_largestModulus (hExtents.rows ▸ i.isLt)
        (hExtents.cols ▸ j.isLt)).trans hModulus
    rw [Scalar.modulus_eq] at hEntry
    exact norm_le_zero_iff.1 hEntry
  · intro hZero
    refine largestModulus_le le_rfl fun i hRow j hCol => ?_
    have hEntry : (a.entry i j).toComplex = 0 :=
      congrFun (congrFun hZero ⟨i, hExtents.rows ▸ hRow⟩)
        ⟨j, hExtents.cols ▸ hCol⟩
    rw [Scalar.modulus_eq, hEntry, norm_zero]

/-
  Exactly the Hermitian matrices have no gap to their
  conjugate transpose.
-/
theorem hermiticityGap_le_zero_iff
    (hExtents : a.HasExtents n n) :
    a.hermiticityGap ≤ 0 ↔ (a.toMatrix n n).IsHermitian := by
  rw [hermiticityGap, largestModulus_le_zero_iff hExtents.sub,
    toMatrix_sub hExtents, toMatrix_dagger hExtents, sub_eq_zero,
    Matrix.IsHermitian]
  exact eq_comm

/- Exactly the idempotent matrices do not differ from their square. -/
theorem largestModulus_square_le_zero_iff
    (hExtents : a.HasExtents n n) :
    (a * a - a).largestModulus ≤ 0 ↔
      a.toMatrix n n * a.toMatrix n n = a.toMatrix n n := by
  have hSquare := hExtents.mul hExtents
  rw [largestModulus_le_zero_iff hSquare.sub, toMatrix_sub hSquare,
    toMatrix_mul hExtents hExtents, sub_eq_zero]

end Mat

end QuantumLab
