import QuantumLab.Dense.Guarded
import QuantumLab.Dense.Lemmas
import QuantumLab.Proofs.Outcome

/-
  This file says which shapes the dense operations accept
  and which shapes their results have.

  Main statements:
    * `Guarded.sum_eq_ok_iff`, `Guarded.product_eq_ok_iff`
      and the like say when a guarded operation succeeds.
    * `Guarded.shape_exponential` says that an exponential
      has the shape of its generator.
-/

------------------------------------------------------------
-- Shapes of results
------------------------------------------------------------

namespace QuantumLab

variable {R : Type}

namespace Shape

@[simp] theorem isSquareMatrix_eq_true_iff
    {s : Shape} :
    s.isSquareMatrix = true ↔ s = s.square := by
  cases s with
  | scalar => simp [isSquareMatrix, square]
  | vector n => simp [isSquareMatrix, square]
  | matrix r c =>
      simp only [isSquareMatrix, beq_iff_eq, square, rows, matrix.injEq,
        true_and]
      exact eq_comm

@[simp] theorem isVector_eq_true_iff
    {s : Shape} :
    s.isVector = true ↔ s = s.column := by
  cases s with
  | scalar => simp [isVector, column]
  | vector n => simp [isVector, column, rows]
  | matrix r c => simp [isVector, column]

@[simp] theorem isScalar_eq_true_iff
    {s : Shape} :
    s.isScalar = true ↔ s = .scalar := by
  cases s with
  | scalar => simp [isScalar]
  | vector n => simp [isScalar]
  | matrix r c => simp [isScalar]

end Shape

namespace Mat

@[simp] theorem shape_ofFn
    (rows cols : Nat)
    (f : Nat → Nat → Scalar R) :
    (ofFn rows cols f).shape = .matrix rows cols :=
  rfl

/- Two matrices of the same extents are of one shape. -/
theorem sameExtents_eq_true_iff
    {a b : Mat R} :
    a.sameExtents b = true ↔ a.shape = b.shape := by
  simp [sameExtents, shape]

theorem isSquare_eq_true_iff
    {a : Mat R} :
    a.isSquare = true ↔ a.rows = a.cols := by
  simp [isSquare]

variable [Arithmetic R]

@[simp] theorem shape_add (a b : Mat R) : (a + b).shape = a.shape :=
  rfl

@[simp] theorem shape_sub (a b : Mat R) : (a - b).shape = a.shape :=
  rfl

@[simp] theorem shape_mul (a b : Mat R) :
    (a * b).shape = .matrix a.rows b.cols :=
  rfl

@[simp] theorem shape_scale (z : Scalar R) (a : Mat R) :
    (a.scale z).shape = a.shape :=
  rfl

@[simp] theorem shape_scaleReal (r : R) (a : Mat R) :
    (a.scaleReal r).shape = a.shape :=
  rfl

@[simp] theorem shape_dagger (a : Mat R) :
    a.dagger.shape = a.shape.dagger :=
  rfl

@[simp] theorem shape_outer (v w : Vec R) :
    (outer v w).shape = .matrix v.size w.size :=
  rfl

@[simp] theorem shape_kronecker (a b : Mat R) :
    (a.kronecker b).shape =
      .matrix (a.rows * b.rows) (a.cols * b.cols) :=
  rfl

/- A commutator has as many rows as its first factor. -/
@[simp] theorem shape_commutator (a b : Mat R) :
    (a.commutator b).shape = .matrix a.rows b.cols :=
  rfl

@[simp] theorem shape_anticommutator (a b : Mat R) :
    (a.anticommutator b).shape = .matrix a.rows b.cols :=
  rfl

end Mat

namespace Vec

variable [Arithmetic R]

@[simp] theorem shape_add (v w : Vec R) : (v + w).shape = v.shape := by
  rw [shape, shape, size_add]

@[simp] theorem shape_scale (z : Scalar R) (v : Vec R) :
    (v.scale z).shape = v.shape := by
  rw [shape, shape, size_scale]

@[simp] theorem shape_conj (v : Vec R) : v.conj.shape = v.shape := by
  rw [shape, shape, size_conj]

@[simp] theorem shape_kronecker (v w : Vec R) :
    (v.kronecker w).shape = .vector (v.size * w.size) := by
  rw [shape, size_kronecker]

@[simp] theorem shape_mulVec (a : Mat R) (v : Vec R) :
    (a.mulVec v).shape = .vector a.rows := by
  rw [shape, Mat.size_mulVec]

end Vec

namespace Value

/- The matrix in a value. -/
def matrix? : Value R → Option (Mat R)
  | .matrix a => some a
  | _ => none

theorem matrix?_eq_some_iff
    {value : Value R}
    {a : Mat R} :
    value.matrix? = some a ↔ value = .matrix a := by
  cases value <;> simp [matrix?]

/- A value of the shape of a scalar is a scalar. -/
theorem exists_scalar
    {v : Value R}
    (hShape : v.shape = .scalar) :
    ∃ z, v = .scalar z := by
  cases v with
  | scalar z => exact ⟨z, rfl⟩
  | vector w => cases hShape
  | matrix a => cases hShape

theorem exists_vector
    {v : Value R}
    {n : Nat}
    (hShape : v.shape = .vector n) :
    ∃ w, v = .vector w ∧ w.size = n := by
  cases v with
  | scalar z => cases hShape
  | vector w => exact ⟨w, rfl, Shape.vector.inj hShape⟩
  | matrix a => cases hShape

theorem exists_matrix
    {v : Value R}
    {r c : Nat}
    (hShape : v.shape = .matrix r c) :
    ∃ a, v = .matrix a ∧ a.rows = r ∧ a.cols = c := by
  cases v with
  | scalar z => cases hShape
  | vector w => cases hShape
  | matrix a => exact ⟨a, rfl, Shape.matrix.inj hShape⟩

/- The scalar in a value. -/
def scalar? : Value R → Option (Scalar R)
  | .scalar z => some z
  | _ => none

variable [Arithmetic R]

@[simp] theorem shape_scale (z : Scalar R) (v : Value R) :
    (v.scale z).shape = v.shape := by
  cases v with
  | scalar w => rfl
  | vector v => exact Vec.shape_scale z v
  | matrix a => rfl

@[simp] theorem shape_adjoint (v : Value R) :
    v.adjoint.shape = v.shape.dagger := by
  cases v with
  | scalar z => rfl
  | vector v => exact Vec.shape_conj v
  | matrix a => rfl

end Value

end QuantumLab

------------------------------------------------------------
-- Spectra
------------------------------------------------------------

namespace QuantumLab

variable {R : Type} [Arithmetic R]

/- The eigenvectors of a matrix have as many rows as the matrix. -/
theorem Mat.rows_spectrum?
    {a : Mat R}
    {spectrum : Spectrum R}
    (hSpectrum : a.spectrum? = some spectrum) :
    spectrum.vectors.rows = a.rows := by
  rcases Option.map_eq_some_iff.1 hSpectrum with ⟨_, _, rfl⟩
  rfl

end QuantumLab

------------------------------------------------------------
-- Guarded operations
------------------------------------------------------------

namespace QuantumLab

variable {R : Type} [Arithmetic R]

namespace Guarded

omit [Arithmetic R] in
theorem requireSquare_eq_ok_iff
    {a : Mat R}
    {subject : String} :
    requireSquare a subject = .ok () ↔ a.rows = a.cols := by
  rw [requireSquare, ← Mat.isSquare_eq_true_iff]
  by_cases hSquare : a.isSquare = true
  · simp [hSquare]
  · simp [hSquare]

omit [Arithmetic R] in
theorem requireSameSquare_eq_ok_iff
    {a b : Mat R}
    {subject : String} :
    requireSameSquare a b subject = .ok () ↔
      a.rows = a.cols ∧ a.shape = b.shape := by
  rw [requireSameSquare, unit_bind_eq_ok_iff, requireSquare_eq_ok_iff,
    ← Mat.sameExtents_eq_true_iff]
  by_cases hSame : a.sameExtents b = true
  · simp [hSame]
  · simp [hSame]

theorem trace_eq_ok_iff
    {a : Mat R}
    {z : Scalar R} :
    trace a = .ok z ↔ a.rows = a.cols ∧ a.trace = z := by
  rw [trace, unit_bind_eq_ok_iff, requireSquare_eq_ok_iff,
    pure_eq_ok_iff]

theorem sum_eq_ok_iff
    {a b c : Mat R} :
    sum a b = .ok c ↔ a.shape = b.shape ∧ a + b = c := by
  rw [sum, ← Mat.sameExtents_eq_true_iff]
  by_cases hSame : a.sameExtents b = true
  · simp [hSame]
  · simp [hSame]

theorem vectorSum_eq_ok_iff
    {u v w : Vec R} :
    vectorSum v w = .ok u ↔ v.size = w.size ∧ v + w = u := by
  unfold vectorSum
  by_cases hSame : v.size = w.size
  · simp [hSame]
  · simp [hSame]

theorem product_eq_ok_iff
    {a b c : Mat R} :
    product a b = .ok c ↔ a.cols = b.rows ∧ a * b = c := by
  unfold product
  by_cases hFit : a.cols = b.rows
  · simp [hFit]
  · simp [hFit]

theorem vectorProduct_eq_ok_iff
    {a : Mat R}
    {v w : Vec R} :
    vectorProduct a v = .ok w ↔ a.cols = v.size ∧ a.mulVec v = w := by
  unfold vectorProduct
  by_cases hFit : a.cols = v.size
  · simp [hFit]
  · simp [hFit]

theorem commutator_eq_ok_iff
    {a b c : Mat R} :
    commutator a b = .ok c ↔
      (a.rows = a.cols ∧ a.shape = b.shape) ∧ a.commutator b = c := by
  rw [commutator, unit_bind_eq_ok_iff, requireSameSquare_eq_ok_iff,
    pure_eq_ok_iff]

theorem anticommutator_eq_ok_iff
    {a b c : Mat R} :
    anticommutator a b = .ok c ↔
      (a.rows = a.cols ∧ a.shape = b.shape) ∧
        a.anticommutator b = c := by
  rw [anticommutator, unit_bind_eq_ok_iff, requireSameSquare_eq_ok_iff,
    pure_eq_ok_iff]

/- The exponential of a Hermitian matrix is square. -/
theorem shape_exponentialOfHermitian
    {z : Scalar R}
    {a b : Mat R}
    (hExponential : exponentialOfHermitian z a = .ok b) :
    b.shape = .matrix a.rows a.rows := by
  unfold exponentialOfHermitian at hExponential
  cases hSpectrum : a.hermitianPart.spectrum? with
  | none => simp [hSpectrum] at hExponential
  | some spectrum =>
      rw [hSpectrum] at hExponential
      have hRows : spectrum.vectors.rows = a.hermitianPart.rows :=
        Mat.rows_spectrum? hSpectrum
      have hShape : (spectrum.exponential z).shape =
          .matrix spectrum.vectors.rows spectrum.vectors.rows := rfl
      rw [← Except.ok.inj hExponential, hShape, hRows]
      rfl

/- An exponential has the shape of its generator, which is square. -/
theorem shape_exponential
    {a b : Mat R}
    (hExponential : exponential a = .ok b) :
    a.rows = a.cols ∧ b.shape = a.shape := by
  rcases unit_bind_eq_ok_iff.1 hExponential with ⟨hSquare, hRest⟩
  rw [requireSquare_eq_ok_iff] at hSquare
  refine ⟨hSquare, ?_⟩
  have hShape : a.shape = .matrix a.rows a.rows := by
    rw [Mat.shape, ← hSquare]
  rw [hShape]
  by_cases hEmpty : a.isEmpty = true
  · rw [if_pos hEmpty] at hRest
    rw [← pure_eq_ok_iff.1 hRest, hShape]
  · rw [if_neg hEmpty] at hRest
    by_cases hHermitian :
        Arithmetic.atMost a.hermiticityGap (generatorTolerance a) = true
    · rw [if_pos hHermitian] at hRest
      exact shape_exponentialOfHermitian hRest
    · rw [if_neg hHermitian] at hRest
      by_cases hSkew : Arithmetic.atMost a.skewHermiticityGap
          (generatorTolerance a) = true
      · rw [if_pos hSkew] at hRest
        have hScaled : (a.scale Scalar.i).rows = a.rows := rfl
        rw [shape_exponentialOfHermitian hRest, hScaled]
      · rw [if_neg hSkew] at hRest
        exact absurd hRest refuse_ne_ok

end Guarded

end QuantumLab
