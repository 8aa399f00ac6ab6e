import Mathlib.Analysis.Matrix.PosDef
import QuantumLab.Proofs.Exact.Matrices
import QuantumLab.Proofs.Validation.Hermiticity

/-
  This file says what eigenvalues are in exact arithmetic: a
  Hermitian matrix is put together again from its spectrum,
  and the check of eigenvalues accepts the matrices that are
  positive semi-definite.

  Main statements:
    * `Mat.exists_spectrum` says what the spectrum of a matrix
      is.
    * `Mat.spectrum_decomposes` says that a Hermitian matrix is
      diagonal in the basis of its eigenvectors.
    * `requirePositive_eq_ok_iff` and
      `requirePositive_zero_eq_ok_iff` say which matrices are
      accepted as positive.
-/

------------------------------------------------------------
-- Spectra
------------------------------------------------------------

namespace QuantumLab

open Matrix Exact

variable
  {a : Mat ℝ}
  {n : Nat}

namespace Mat

/- The solver reads the whole of a Hermitian matrix. -/
theorem mirrored_parts
    (hHermitian : (a.toMatrix n n).IsHermitian) :
    mirrored n a.parts = a.toMatrix n n := by
  ext i j
  rcases lt_trichotomy i j with hLess | rfl | hLess
  · rw [mirrored, Matrix.of_apply, if_neg hLess.ne,
      if_neg hLess.not_gt, ← hHermitian.apply i j]
    rfl
  · rw [mirrored, Matrix.of_apply, if_pos rfl]
    exact hHermitian.coe_re_apply_self i
  · rw [mirrored, Matrix.of_apply, if_neg hLess.ne', if_pos hLess]
    rfl

/- The spectrum holds the eigenvalues and eigenvectors of what is read. -/
theorem exists_spectrum
    (hRows : a.rows = n) :
    ∃ s, a.spectrum? = some s ∧
      s.values = List.ofFn (isHermitian_mirrored n a.parts).eigenvalues ∧
      s.vectors.HasExtents n n ∧
      s.vectors.toMatrix n n =
        (isHermitian_mirrored n a.parts).eigenvectorUnitary.1 := by
  subst hRows
  refine ⟨_, rfl, ?_, ⟨rfl, rfl⟩, ?_⟩
  · refine List.ext_getElem (by simp) fun k hk _ => ?_
    have hInside : k < a.rows := by simpa using hk
    simp [eigensystem, hInside]
  · ext i j
    rw [toMatrix, entry_ofFn _ i.isLt j.isLt]
    simp [eigensystem, Scalar.toComplex]

theorem toMatrix_diagonal
    {v : Vec ℝ}
    (hSize : v.size = n) :
    (diagonal v).toMatrix n n = Matrix.diagonal (v.toVector n) := by
  ext i j
  rw [toMatrix, diagonal, entry_ofFn _ (hSize ▸ i.isLt) (hSize ▸ j.isLt),
    Matrix.diagonal_apply]
  by_cases hSame : i = j
  · rw [if_pos (congrArg Fin.val hSame), if_pos hSame]
    rfl
  · rw [if_neg (fun hEqual => hSame (Fin.ext hEqual)), if_neg hSame,
      Scalar.toComplex_zero]

/-
  A Hermitian matrix is diagonal in the basis of its
  eigenvectors, with its eigenvalues on the diagonal.
-/
theorem spectrum_decomposes
    (hExtents : a.HasExtents n n)
    (hHermitian : (a.toMatrix n n).IsHermitian) :
    ∃ s, a.spectrum? = some s ∧
      s.vectors *
          diagonal ⟨(s.values.map Scalar.ofReal).toArray⟩ *
          s.vectors.dagger =
        a := by
  rcases exists_spectrum hExtents.rows with
    ⟨s, hSpectrum, hValues, hVectors, hUnitary⟩
  refine ⟨s, hSpectrum, ?_⟩
  have hSize :
      (⟨(s.values.map Scalar.ofReal).toArray⟩ : Vec ℝ).size = n := by
    simp [Vec.size, hValues]
  have hDiagonal :
      (diagonal ⟨(s.values.map Scalar.ofReal).toArray⟩ : Mat ℝ).HasExtents
        n n := ⟨hSize, hSize⟩
  have hEigenvalues :
      (⟨(s.values.map Scalar.ofReal).toArray⟩ : Vec ℝ).toVector n =
        RCLike.ofReal ∘ (isHermitian_mirrored n a.parts).eigenvalues := by
    ext i
    simp [Vec.toVector, Vec.entry, hValues, Scalar.ofReal,
      Scalar.toComplex, Complex.ext_iff]
  have hTheorem := (isHermitian_mirrored n a.parts).spectral_theorem
  apply ext_toMatrix ((hVectors.mul hDiagonal).mul hVectors.dagger) hExtents
  rw [toMatrix_mul (hVectors.mul hDiagonal) hVectors.dagger,
    toMatrix_mul hVectors hDiagonal, toMatrix_dagger hVectors,
    toMatrix_diagonal hSize, hEigenvalues, hUnitary,
    ← mirrored_parts hHermitian]
  exact hTheorem.symm

end Mat

end QuantumLab

------------------------------------------------------------
-- Positive matrices
------------------------------------------------------------

namespace QuantumLab

open Matrix Exact
open scoped ComplexOrder

variable
  {a : Mat ℝ}
  {name : String}
  {tolerance : ℝ}

/- A running minimum is no less than a bound of all it has seen. -/
theorem le_foldl_least_iff
    {bound first : ℝ}
    {xs : List ℝ} :
    bound ≤ xs.foldl
        (fun low x => if Arithmetic.less x low then x else low) first ↔
      ∀ x ∈ first :: xs, bound ≤ x := by
  induction xs generalizing first with
  | nil => simp
  | cons y xs ih =>
      rw [List.foldl_cons, ih]
      simp only [Arithmetic.less_real, decide_eq_true_eq,
        List.forall_mem_cons, ← and_assoc]
      refine and_congr_left fun _ => ?_
      split_ifs with hLess
      · exact ⟨fun hBound => ⟨hBound.trans hLess.le, hBound⟩,
          And.right⟩
      · exact ⟨fun hBound => ⟨hBound, hBound.trans (not_lt.1 hLess)⟩,
          And.left⟩

/- No eigenvalue is less than the least one. -/
theorem Spectrum.le_least_iff
    {s : Spectrum ℝ}
    {bound : ℝ}
    (hBound : bound ≤ 0) :
    bound ≤ s.least ↔ ∀ x ∈ s.values, bound ≤ x := by
  rw [least]
  cases s.values with
  | nil => simpa using hBound
  | cons first rest => exact le_foldl_least_iff

/-
  A matrix is accepted as positive if it is Hermitian and none
  of its eigenvalues is negative, both up to the tolerance.
-/
theorem requirePositive_eq_ok_iff
    (hTolerance : 0 ≤ tolerance) :
    requirePositive tolerance name a = .ok () ↔
      (a.rows = a.cols ∧ a.hermiticityGap ≤ tolerance) ∧
        ∀ k, -tolerance ≤
          (isHermitian_mirrored a.rows a.parts).eigenvalues k := by
  rcases Mat.exists_spectrum (a := a) rfl with ⟨s, hSpectrum, hValues, _⟩
  have hLeast := Spectrum.le_least_iff (s := s)
    (neg_nonpos.2 hTolerance)
  rw [hValues, List.forall_mem_ofFn_iff] at hLeast
  rw [requirePositive, unit_bind_eq_ok_iff, requireHermitian_eq_ok_iff,
    hSpectrum, ← hLeast]
  simp [not_lt]

/-
  Without a tolerance exactly the matrices that are positive
  semi-definite are accepted.
-/
theorem requirePositive_zero_eq_ok_iff :
    requirePositive 0 name a = .ok () ↔
      a.rows = a.cols ∧ (a.toMatrix a.rows a.rows).PosSemidef := by
  rw [requirePositive_eq_ok_iff le_rfl, and_assoc, neg_zero]
  refine and_congr_right fun hSquare => ?_
  rw [Mat.hermiticityGap_le_zero_iff ⟨rfl, hSquare.symm⟩]
  constructor
  · rintro ⟨hHermitian, hValues⟩
    rw [← Mat.mirrored_parts hHermitian]
    exact (isHermitian_mirrored _ _).posSemidef_iff_eigenvalues_nonneg.2
      hValues
  · intro hPositive
    refine ⟨hPositive.isHermitian, ?_⟩
    rw [← Mat.mirrored_parts hPositive.isHermitian] at hPositive
    exact (isHermitian_mirrored _ _).posSemidef_iff_eigenvalues_nonneg.1
      hPositive

end QuantumLab
