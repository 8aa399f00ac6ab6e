import Mathlib.LinearAlgebra.Matrix.Kronecker
import QuantumLab.Program.Predefined
import QuantumLab.Proofs.Dense.Extents
import QuantumLab.Proofs.Exact.Matrices

/-
  This file proves how Kronecker products go together with
  the other dense operations in exact arithmetic.  Of a
  Kronecker product nothing is used but its extents and that
  a copy of the second factor stands for each entry of the
  first.

  Key definitions include:
    * `Vec.Interleaves`, `Mat.Interleaves`

  Main statements:
    * `Vec.Interleaves.eq_kronecker` and
      `Mat.Interleaves.eq_kronecker` say that this determines
      the Kronecker product.
    * `Vec.toVector_kronecker` and `Mat.toMatrix_kronecker`
      say that it is the one of linear algebra, with pairs of
      indices numbered row after row.
    * `tensors_factor` says that products, conjugate
      transposes, traces and density matrices of Kronecker
      products are taken factor by factor.
-/

------------------------------------------------------------
-- Interleaved entries
------------------------------------------------------------

namespace QuantumLab

variable {R : Type} [Arithmetic R]

/- What is asked of a Kronecker product of vectors. -/
structure Vec.Interleaves
    (tensor : Vec R → Vec R → Vec R) : Prop where
  size : ∀ v w, (tensor v w).size = v.size * w.size
  entry : ∀ v w, ∀ i < v.size, ∀ k < w.size,
    (tensor v w).entry (i * w.size + k) = v.entry i * w.entry k

/- What is asked of a Kronecker product of matrices. -/
structure Mat.Interleaves
    (tensor : Mat R → Mat R → Mat R) : Prop where
  rows : ∀ a b, (tensor a b).rows = a.rows * b.rows
  cols : ∀ a b, (tensor a b).cols = a.cols * b.cols
  entry : ∀ a b, ∀ i < a.rows, ∀ j < a.cols,
    ∀ k < b.rows, ∀ l < b.cols,
    (tensor a b).entry (i * b.rows + k) (j * b.cols + l) =
      a.entry i j * b.entry k l

/- The positions of a product of three factors do not depend on grouping. -/
theorem Mat.position_assoc
    (i k l n m : Nat) :
    (i * n + k) * m + l = i * (n * m) + (k * m + l) := by
  ring

namespace Vec

theorem interleaves_kronecker :
    Interleaves (kronecker (R := R)) where
  size := size_kronecker
  entry v w _ hi _ hk := entry_kronecker v w hi hk

/- No other product has the same extent and entries. -/
theorem Interleaves.eq_kronecker
    {tensor : Vec R → Vec R → Vec R}
    (hInterleaves : Interleaves tensor) :
    tensor = kronecker := by
  funext v w
  have hSize := hInterleaves.size v w
  refine ext_entry (hSize.trans (size_kronecker v w).symm)
    fun _ hInside => ?_
  rw [hSize] at hInside
  rcases Mat.exists_position hInside with ⟨i, hi, k, hk, rfl⟩
  rw [hInterleaves.entry v w i hi k hk, entry_kronecker v w hi hk]

end Vec

namespace Mat

theorem interleaves_kronecker :
    Interleaves (kronecker (R := R)) where
  rows := rows_kronecker
  cols := cols_kronecker
  entry a b _ hi _ hj _ hk _ hl := entry_kronecker a b hi hj hk hl

/- No other product has the same extents and entries. -/
theorem Interleaves.eq_kronecker
    {tensor : Mat R → Mat R → Mat R}
    (hInterleaves : Interleaves tensor) :
    tensor = kronecker := by
  funext a b
  have hRows := hInterleaves.rows a b
  have hCols := hInterleaves.cols a b
  refine ext_entry hRows hCols fun _ hRow _ hCol => ?_
  rw [hRows] at hRow
  rw [hCols] at hCol
  rcases exists_position hRow with ⟨i, hi, k, hk, rfl⟩
  rcases exists_position hCol with ⟨j, hj, l, hl, rfl⟩
  rw [hInterleaves.entry a b i hi j hj k hk l hl,
    entry_kronecker a b hi hj hk hl]

end Mat

end QuantumLab

------------------------------------------------------------
-- Readings in linear algebra
------------------------------------------------------------

namespace QuantumLab

open Matrix Kronecker

variable {n m p q : Nat}

/- A Kronecker product acts on products of entries factor by factor. -/
theorem kronecker_mulVec_mul
    (x : Fin m → ℂ)
    (y : Fin q → ℂ)
    (A : Matrix (Fin n) (Fin m) ℂ)
    (B : Matrix (Fin p) (Fin q) ℂ) :
    (A ⊗ₖ B) *ᵥ (fun pair => x pair.1 * y pair.2) =
      fun pair => (A *ᵥ x) pair.1 * (B *ᵥ y) pair.2 := by
  ext ⟨i, k⟩
  calc ∑ pair : Fin m × Fin q,
        A i pair.1 * B k pair.2 * (x pair.1 * y pair.2)
      = ∑ pair : Fin m × Fin q,
          A i pair.1 * x pair.1 * (B k pair.2 * y pair.2) :=
        Finset.sum_congr rfl fun _ _ => mul_mul_mul_comm _ _ _ _
    _ = ∑ j, ∑ l, A i j * x j * (B k l * y l) := Fintype.sum_prod_type _
    _ = (∑ j, A i j * x j) * ∑ l, B k l * y l :=
        (Fintype.sum_mul_sum _ _).symm

/- No rounding and no recovery depends on the order of the factors. -/
theorem Scalar.product_assoc
    (x y z : Scalar ℝ) :
    x * y * z = x * (y * z) := by
  apply toComplex_injective
  simp only [toComplex_mul, mul_assoc]

namespace Vec

variable {v w : Vec ℝ}

/- Vectors of the same extent are the same if they read the same. -/
theorem ext_toVector
    (hLeft : v.size = n)
    (hRight : w.size = n)
    (hSame : v.toVector n = w.toVector n) :
    v = w := by
  refine ext_entry (hLeft.trans hRight.symm) fun k hk => ?_
  apply Scalar.toComplex_injective
  exact congrFun hSame ⟨k, hLeft ▸ hk⟩

/- The Kronecker product by pairs of indices, numbered in order. -/
theorem toVector_kronecker
    (hLeft : v.size = n)
    (hRight : w.size = p) :
    (v.kronecker w).toVector (n * p) =
      (fun pair => v.toVector n pair.1 * w.toVector p pair.2) ∘
        finProdFinEquiv.symm := by
  subst hLeft hRight
  ext i
  rw [toVector, kronecker, entry_ofFn _ i.isLt, Scalar.toComplex_mul]
  rfl

theorem kronecker_assoc
    (u v w : Vec ℝ) :
    (u.kronecker v).kronecker w = u.kronecker (v.kronecker w) := by
  have hLeft := size_kronecker u v
  have hRight := size_kronecker v w
  have hSize : ((u.kronecker v).kronecker w).size =
      (u.kronecker (v.kronecker w)).size := by
    rw [size_kronecker, hLeft, size_kronecker, hRight, Nat.mul_assoc]
  refine ext_entry hSize fun _ hInside => ?_
  rw [size_kronecker] at hInside
  rcases Mat.exists_position hInside with ⟨_, hPair, l, hl, rfl⟩
  rcases Mat.exists_position (hLeft ▸ hPair) with ⟨i, hi, k, hk, rfl⟩
  have hInner : k * w.size + l < (v.kronecker w).size :=
    hRight ▸ Mat.position_lt hk hl
  calc ((u.kronecker v).kronecker w).entry ((i * v.size + k) * w.size + l)
      = u.entry i * v.entry k * w.entry l := by
        rw [entry_kronecker _ w hPair hl, entry_kronecker u v hi hk]
    _ = u.entry i * (v.entry k * w.entry l) :=
        Scalar.product_assoc _ _ _
    _ = (u.kronecker (v.kronecker w)).entry
          ((i * v.size + k) * w.size + l) := by
        rw [Mat.position_assoc, ← hRight, entry_kronecker u _ hi hInner,
          entry_kronecker v w hk hl]

end Vec

namespace Mat

variable {a b c d : Mat ℝ} {v w : Vec ℝ}

theorem HasExtents.kronecker
    (hLeft : a.HasExtents n m)
    (hRight : b.HasExtents p q) :
    (a.kronecker b).HasExtents (n * p) (m * q) :=
  ⟨congrArg₂ (· * ·) hLeft.rows hRight.rows,
    congrArg₂ (· * ·) hLeft.cols hRight.cols⟩

/- The Kronecker product by pairs of indices, numbered in order. -/
theorem toMatrix_kronecker
    (hLeft : a.HasExtents n m)
    (hRight : b.HasExtents p q) :
    (a.kronecker b).toMatrix (n * p) (m * q) =
      (a.toMatrix n m ⊗ₖ b.toMatrix p q).submatrix
        finProdFinEquiv.symm finProdFinEquiv.symm := by
  obtain ⟨rfl, rfl⟩ := hLeft
  obtain ⟨rfl, rfl⟩ := hRight
  ext i j
  rw [toMatrix, Mat.kronecker, entry_ofFn _ i.isLt j.isLt,
    Scalar.toComplex_mul]
  rfl

------------------------------------------------------------
-- Factor by factor
------------------------------------------------------------

/- Products of Kronecker products are Kronecker products of products. -/
theorem kronecker_mul_kronecker
    (hLeft : a.cols = c.rows)
    (hRight : b.cols = d.rows) :
    a.kronecker b * c.kronecker d = (a * c).kronecker (b * d) := by
  have hA : a.HasExtents a.rows c.rows := ⟨rfl, hLeft⟩
  have hB : b.HasExtents b.rows d.rows := ⟨rfl, hRight⟩
  have hC : c.HasExtents c.rows c.cols := ⟨rfl, rfl⟩
  have hD : d.HasExtents d.rows d.cols := ⟨rfl, rfl⟩
  refine ext_toMatrix ((hA.kronecker hB).mul (hC.kronecker hD))
    ((hA.mul hC).kronecker (hB.mul hD)) ?_
  rw [toMatrix_mul (hA.kronecker hB) (hC.kronecker hD),
    toMatrix_kronecker hA hB, toMatrix_kronecker hC hD,
    submatrix_mul_equiv, ← mul_kronecker_mul, ← toMatrix_mul hA hC,
    ← toMatrix_mul hB hD, ← toMatrix_kronecker (hA.mul hC) (hB.mul hD)]

theorem mulVec_kronecker
    (hLeft : a.cols = v.size)
    (hRight : b.cols = w.size) :
    (a.kronecker b).mulVec (v.kronecker w) =
      (a.mulVec v).kronecker (b.mulVec w) := by
  have hA : a.HasExtents a.rows v.size := ⟨rfl, hLeft⟩
  have hB : b.HasExtents b.rows w.size := ⟨rfl, hRight⟩
  refine Vec.ext_toVector (n := a.rows * b.rows) (size_mulVec _ _) ?_ ?_
  · rw [Vec.size_kronecker, size_mulVec, size_mulVec]
  rw [toVector_mulVec (hA.kronecker hB), toMatrix_kronecker hA hB,
    Vec.toVector_kronecker rfl rfl, submatrix_mulVec_equiv,
    Vec.toVector_kronecker (size_mulVec a v) (size_mulVec b w),
    toVector_mulVec hA, toVector_mulVec hB, ← kronecker_mulVec_mul,
    Function.comp_assoc, Equiv.symm_symm, Equiv.symm_comp_self,
    Function.comp_id]

theorem dagger_kronecker
    (a b : Mat ℝ) :
    (a.kronecker b).dagger = a.dagger.kronecker b.dagger := by
  have hA : a.HasExtents a.rows a.cols := ⟨rfl, rfl⟩
  have hB : b.HasExtents b.rows b.cols := ⟨rfl, rfl⟩
  refine ext_toMatrix (hA.kronecker hB).dagger
    (hA.dagger.kronecker hB.dagger) ?_
  rw [toMatrix_dagger (hA.kronecker hB), toMatrix_kronecker hA hB,
    conjTranspose_submatrix, conjTranspose_kronecker,
    ← toMatrix_dagger hA, ← toMatrix_dagger hB,
    ← toMatrix_kronecker hA.dagger hB.dagger]

theorem trace_kronecker
    (hLeft : a.rows = a.cols)
    (hRight : b.rows = b.cols) :
    (a.kronecker b).trace = a.trace * b.trace := by
  have hA : a.HasExtents a.rows a.rows := ⟨rfl, hLeft.symm⟩
  have hB : b.HasExtents b.rows b.rows := ⟨rfl, hRight.symm⟩
  apply Scalar.toComplex_injective
  rw [Scalar.toComplex_mul, toComplex_trace (hA.kronecker hB).rows,
    toMatrix_kronecker hA hB, toComplex_trace hA.rows,
    toComplex_trace hB.rows, ← Matrix.trace_kronecker]
  exact Equiv.sum_comp finProdFinEquiv.symm
    (a.toMatrix a.rows a.rows ⊗ₖ b.toMatrix b.rows b.rows).diag

theorem kronecker_assoc
    (a b c : Mat ℝ) :
    (a.kronecker b).kronecker c = a.kronecker (b.kronecker c) := by
  refine ext_entry (Nat.mul_assoc _ _ _) (Nat.mul_assoc _ _ _) ?_
  intro _ hRow _ hCol
  rcases exists_position hRow with ⟨_, hRowPair, s, hs, rfl⟩
  rcases exists_position hRowPair with ⟨i, hi, k, hk, rfl⟩
  rcases exists_position hCol with ⟨_, hColPair, t, ht, rfl⟩
  rcases exists_position hColPair with ⟨j, hj, l, hl, rfl⟩
  calc ((a.kronecker b).kronecker c).entry
        ((i * b.rows + k) * c.rows + s) ((j * b.cols + l) * c.cols + t)
      = a.entry i j * b.entry k l * c.entry s t := by
        rw [entry_kronecker _ c hRowPair hColPair hs ht,
          entry_kronecker a b hi hj hk hl]
    _ = a.entry i j * (b.entry k l * c.entry s t) :=
        Scalar.product_assoc _ _ _
    _ = (a.kronecker (b.kronecker c)).entry
          ((i * b.rows + k) * c.rows + s)
          ((j * b.cols + l) * c.cols + t) := by
        rw [position_assoc, position_assoc, ← rows_kronecker,
          ← cols_kronecker,
          entry_kronecker a _ hi hj (position_lt hk hs) (position_lt hl ht),
          entry_kronecker b c hk hl hs ht]

theorem outer_kronecker
    (v w : Vec ℝ) :
    outer (v.kronecker w) (v.kronecker w) =
      (outer v v).kronecker (outer w w) := by
  have hV : (outer v v).HasExtents v.size v.size := hasExtents_outer rfl
  have hW : (outer w w).HasExtents w.size w.size := hasExtents_outer rfl
  have hSize : (v.kronecker w).size = v.size * w.size :=
    Vec.size_kronecker v w
  refine ext_toMatrix (hasExtents_outer hSize) (hV.kronecker hW) ?_
  rw [toMatrix_outer hSize, toMatrix_kronecker hV hW,
    toMatrix_outer rfl, toMatrix_outer rfl,
    Vec.toVector_kronecker rfl rfl]
  ext i j
  simp only [vecMulVec_apply, submatrix_apply, kroneckerMap_apply,
    Function.comp_apply, Pi.star_apply, star_mul']
  exact mul_mul_mul_comm _ _ _ _

end Mat

------------------------------------------------------------
-- Laws of Kronecker products
------------------------------------------------------------

/-
  Kronecker products in exact arithmetic.  There is one pair
  of products whose entries interleave, that of the engine.
  Products of compatible factors, conjugate transposes,
  traces of square factors and density matrices of kets are
  taken factor by factor, whatever the extents, and the
  grouping of factors does not matter.
-/
theorem tensors_factor
    {tensor : Mat ℝ → Mat ℝ → Mat ℝ}
    {tensorVec : Vec ℝ → Vec ℝ → Vec ℝ}
    (hMatrices : Mat.Interleaves tensor)
    (hVectors : Vec.Interleaves tensorVec) :
    (tensor = Mat.kronecker ∧ tensorVec = Vec.kronecker) ∧
    (∀ a b c d, a.cols = c.rows → b.cols = d.rows →
      ∃ x y, Guarded.product a c = .ok x ∧ Guarded.product b d = .ok y ∧
        Guarded.product (tensor a b) (tensor c d) = .ok (tensor x y)) ∧
    (∀ a b v w, a.cols = v.size → b.cols = w.size →
      ∃ x y, Guarded.vectorProduct a v = .ok x ∧
        Guarded.vectorProduct b w = .ok y ∧
        Guarded.vectorProduct (tensor a b) (tensorVec v w) =
          .ok (tensorVec x y)) ∧
    (∀ a b, (tensor a b).dagger = tensor a.dagger b.dagger) ∧
    (∀ a b, a.rows = a.cols → b.rows = b.cols →
      ∃ x y, Guarded.trace a = .ok x ∧ Guarded.trace b = .ok y ∧
        Guarded.trace (tensor a b) = .ok (x * y)) ∧
    (∀ v w, Mat.outer (tensorVec v w) (tensorVec v w) =
      tensor (Mat.outer v v) (Mat.outer w w)) ∧
    (∀ a b c, tensor (tensor a b) c = tensor a (tensor b c)) ∧
    ∀ u v w, tensorVec (tensorVec u v) w = tensorVec u (tensorVec v w) := by
  obtain rfl := hMatrices.eq_kronecker
  obtain rfl := hVectors.eq_kronecker
  refine ⟨⟨rfl, rfl⟩, ?_, ?_, Mat.dagger_kronecker, ?_,
    Mat.outer_kronecker, Mat.kronecker_assoc, Vec.kronecker_assoc⟩
  · intro a b c d hLeft hRight
    refine ⟨a * c, b * d, Guarded.product_eq_ok_iff.2 ⟨hLeft, rfl⟩,
      Guarded.product_eq_ok_iff.2 ⟨hRight, rfl⟩,
      Guarded.product_eq_ok_iff.2
        ⟨congrArg₂ (· * ·) hLeft hRight, ?_⟩⟩
    exact Mat.kronecker_mul_kronecker hLeft hRight
  · intro a b v w hLeft hRight
    have hFit : (a.kronecker b).cols = (v.kronecker w).size := by
      rw [Mat.cols_kronecker, Vec.size_kronecker, hLeft, hRight]
    refine ⟨a.mulVec v, b.mulVec w,
      Guarded.vectorProduct_eq_ok_iff.2 ⟨hLeft, rfl⟩,
      Guarded.vectorProduct_eq_ok_iff.2 ⟨hRight, rfl⟩,
      Guarded.vectorProduct_eq_ok_iff.2 ⟨hFit, ?_⟩⟩
    exact Mat.mulVec_kronecker hLeft hRight
  · intro a b hLeft hRight
    refine ⟨a.trace, b.trace, Guarded.trace_eq_ok_iff.2 ⟨hLeft, rfl⟩,
      Guarded.trace_eq_ok_iff.2 ⟨hRight, rfl⟩,
      Guarded.trace_eq_ok_iff.2 ⟨congrArg₂ (· * ·) hLeft hRight, ?_⟩⟩
    exact Mat.trace_kronecker hLeft hRight

theorem trace_pauliZ :
    (Predefined.pauliZ : Mat ℝ).trace = .zero := by
  have hUp : (Predefined.pauliZ : Mat ℝ).entry 0 0 = .one :=
    Mat.entry_ofEntries _ Nat.zero_lt_two Nat.zero_lt_two
  have hDown : (Predefined.pauliZ : Mat ℝ).entry 1 1 = -.one :=
    Mat.entry_ofEntries _ Nat.one_lt_two Nat.one_lt_two
  apply Scalar.toComplex_injective
  rw [Mat.trace, toComplex_sumOver]
  change ∑ k ∈ Finset.range 2, _ = _
  rw [Finset.sum_range_succ, Finset.sum_range_one, hUp, hDown,
    Scalar.toComplex_zero]
  exact add_neg_cancel _

/-
  A spin next to a system of three levels, and a spin next to
  a system without any level.
-/
theorem tensors_factor_unequalFactors :
    Mat.Interleaves (Mat.kronecker (R := ℝ)) ∧
    Vec.Interleaves (Vec.kronecker (R := ℝ)) ∧
    Guarded.trace (Predefined.pauliZ.kronecker (Mat.identity 3)) =
      .ok (Scalar.zero : Scalar ℝ) ∧
    ∃ x y : Mat ℝ,
      Guarded.product Predefined.pauliX Predefined.pauliZ = .ok x ∧
      Guarded.product (Mat.zero 3 0) (Mat.zero 0 5) = .ok y ∧
      Guarded.product (Predefined.pauliX.kronecker (Mat.zero 3 0))
          (Predefined.pauliZ.kronecker (Mat.zero 0 5)) =
        .ok (x.kronecker y) := by
  have hMatrices := Mat.interleaves_kronecker (R := ℝ)
  have hVectors := Vec.interleaves_kronecker (R := ℝ)
  rcases tensors_factor hMatrices hVectors with
    ⟨_, hProducts, _, _, hTraces, _⟩
  refine ⟨hMatrices, hVectors, ?_, hProducts _ _ _ _ rfl rfl⟩
  rcases hTraces Predefined.pauliZ (Mat.identity 3) rfl rfl with
    ⟨x, y, hSpin, _, hBoth⟩
  have hZero : x = .zero := by
    rw [← (Guarded.trace_eq_ok_iff.1 hSpin).2, trace_pauliZ]
  rw [hBoth, hZero]
  refine congrArg Except.ok (Scalar.toComplex_injective ?_)
  rw [Scalar.toComplex_mul, Scalar.toComplex_zero, zero_mul]

end QuantumLab
