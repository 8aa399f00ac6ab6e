import Mathlib.Analysis.Complex.Trigonometric
import Mathlib.Analysis.Matrix.Spectrum
import Mathlib.Analysis.SpecialFunctions.Complex.Log
import QuantumLab.Dense.Lemmas

/-
  This file interprets the arithmetic of the engine in the
  field of real numbers.  Nothing is rounded there, no number
  is undefined or infinite, and the scalars of the engine are
  the complex numbers.

  Key definitions include:
    * `Exact.eigensystem`
    * the instance of `Arithmetic` for `ℝ`
    * `Scalar.toComplex`

  Main statements:
    * `Scalar.toComplex_add` and `Scalar.toComplex_mul` say
      that scalars are added and multiplied as complex
      numbers, and `toComplex_sumOver` says the same of sums.
    * `Vec.squaredNorm_eq_sum` says what a squared norm is.
    * `Mat.modulus_le_largestModulus` and
      `Mat.largestModulus_le` say that the largest modulus is
      the least bound of the moduli.
-/

------------------------------------------------------------
-- Exact arithmetic
------------------------------------------------------------

namespace QuantumLab

namespace Exact

variable (n : Nat) (parts : Nat → Nat → ℝ × ℝ)

/-
  The Hermitian matrix with given real and imaginary parts on
  and below the diagonal.
-/
def mirrored : Matrix (Fin n) (Fin n) ℂ :=
  .of fun i j =>
    if i = j then ((parts i i).1 : ℂ)
    else if j < i then ⟨(parts i j).1, (parts i j).2⟩
    else ⟨(parts j i).1, -(parts j i).2⟩

theorem isHermitian_mirrored :
    (mirrored n parts).IsHermitian := by
  refine Matrix.IsHermitian.ext fun i j => ?_
  rcases lt_trichotomy i j with hLess | rfl | hLess
  · simp only [mirrored, Matrix.of_apply, if_neg hLess.ne,
      if_neg hLess.ne', if_neg hLess.not_gt, if_pos hLess]
    rfl
  · simp [mirrored]
  · simp only [mirrored, Matrix.of_apply, if_neg hLess.ne,
      if_neg hLess.ne', if_neg hLess.not_gt, if_pos hLess]
    exact Complex.ext rfl (neg_neg _)

/- The eigenvalues and eigenvectors of that matrix. -/
noncomputable def eigensystem :
    (Nat → ℝ) × (Nat → Nat → ℝ × ℝ) :=
  let hHermitian := isHermitian_mirrored n parts
  (fun k =>
    if hInside : k < n then hHermitian.eigenvalues ⟨k, hInside⟩ else 0,
    fun i j =>
      if hInside : i < n ∧ j < n then
        let z := hHermitian.eigenvectorUnitary.1 ⟨i, hInside.1⟩
          ⟨j, hInside.2⟩
        (z.re, z.im)
      else
        (0, 0))

end Exact

/-
  Exact arithmetic.  Every Hermitian matrix has eigenvalues.
  The texts of numbers are left blank: an exact real number
  has no finite text, and texts are only quoted in messages.
-/
noncomputable instance : Arithmetic ℝ where
  less x y := decide (x < y)
  ofNat n := n
  sqrt := Real.sqrt
  exp := Real.exp
  log := Real.log
  logOnePlus x := Real.log (1 + x)
  sin := Real.sin
  cos := Real.cos
  sinh := Real.sinh
  cosh := Real.cosh
  angle y x := Complex.arg ⟨x, y⟩
  hypot x y := Real.sqrt (x * x + y * y)
  eigensystem? n parts := some (Exact.eigensystem n parts)
  fixedText _ := ""
  generalText _ := ""

namespace Arithmetic

@[simp] theorem less_real
    (x y : ℝ) :
    less x y = decide (x < y) :=
  rfl

@[simp] theorem isNaN_real
    (x : ℝ) :
    isNaN x = false := by
  simp [isNaN]

@[simp] theorem isInfinite_real
    (x : ℝ) :
    isInfinite x = false := by
  simp [isInfinite]

/- The literals that the definitions start their sums and bounds from. -/
@[simp] theorem zero_literal : (0.0 : ℝ) = 0 := by
  norm_num

@[simp] theorem one_literal : (1.0 : ℝ) = 1 := by
  norm_num

/- The sign of an exact number is that of its comparison with zero. -/
theorem signBit_real
    (x : ℝ) :
    signBit x = decide (x < 0) := by
  by_cases hZero : x = 0 <;> simp [signBit, hZero]

theorem abs_real
    (x : ℝ) :
    Arithmetic.abs x = |x| := by
  rw [Arithmetic.abs, signBit_real]
  by_cases hNegative : x < 0
  · rw [if_pos (decide_eq_true hNegative), abs_of_neg hNegative]
  · rw [if_neg (by simpa using hNegative),
      abs_of_nonneg (not_lt.1 hNegative)]

theorem atLeast_real
    (bound x : ℝ) :
    atLeast bound x = max bound x := by
  rw [atLeast, less_real]
  by_cases hLess : bound < x
  · rw [if_pos (decide_eq_true hLess), max_eq_right hLess.le]
  · rw [if_neg (by simpa using hLess), max_eq_left (not_lt.1 hLess)]

end Arithmetic

------------------------------------------------------------
-- Scalars
------------------------------------------------------------

namespace Scalar

/- A scalar of exact arithmetic as a complex number. -/
def toComplex (z : Scalar ℝ) : ℂ :=
  ⟨z.re, z.im⟩

@[simp] theorem re_toComplex
    (z : Scalar ℝ) :
    z.toComplex.re = z.re :=
  rfl

@[simp] theorem im_toComplex
    (z : Scalar ℝ) :
    z.toComplex.im = z.im :=
  rfl

theorem toComplex_add
    (z w : Scalar ℝ) :
    (z + w).toComplex = z.toComplex + w.toComplex :=
  rfl

theorem toComplex_sub
    (z w : Scalar ℝ) :
    (z - w).toComplex = z.toComplex - w.toComplex :=
  rfl

theorem toComplex_conj
    (z : Scalar ℝ) :
    z.conj.toComplex = star z.toComplex :=
  rfl

@[simp] theorem toComplex_zero :
    (zero : Scalar ℝ).toComplex = 0 := by
  apply Complex.ext <;> simp [zero, ofReal]

@[simp] theorem toComplex_one :
    (one : Scalar ℝ).toComplex = 1 := by
  apply Complex.ext <;> simp [one, ofReal]

/- No product is recovered, as none is undefined. -/
theorem toComplex_mul
    (z w : Scalar ℝ) :
    (z * w).toComplex = z.toComplex * w.toComplex := by
  have hPlain : z * w = plainMul z w := by
    change mul z w = _
    simp [mul, isNaN]
  rw [hPlain]
  apply Complex.ext <;> simp [plainMul]

theorem toComplex_scaleReal
    (r : ℝ)
    (z : Scalar ℝ) :
    (z.scaleReal r).toComplex = (r : ℂ) * z.toComplex := by
  apply Complex.ext <;> simp [scaleReal]

theorem toComplex_neg_i :
    (-i : Scalar ℝ).toComplex = -Complex.I := by
  change (⟨-(0.0 : ℝ), -(1.0 : ℝ)⟩ : ℂ) = -Complex.I
  apply Complex.ext <;> simp

/- A scalar is determined by its complex number. -/
theorem toComplex_injective :
    Function.Injective toComplex := by
  intro z w hSame
  have hReal : z.re = w.re := congrArg Complex.re hSame
  have hImaginary : z.im = w.im := congrArg Complex.im hSame
  exact congrArg₂ Scalar.mk hReal hImaginary

theorem squaredModulus_eq
    (z : Scalar ℝ) :
    z.squaredModulus = Complex.normSq z.toComplex := by
  rw [Complex.normSq_apply]
  rfl

theorem modulus_eq
    (z : Scalar ℝ) :
    z.modulus = ‖z.toComplex‖ := by
  rw [Complex.norm_def, Complex.normSq_apply]
  rfl

end Scalar

/- A sum is the sum of the complex numbers. -/
theorem toComplex_sumOver
    (n : Nat)
    (f : Nat → Scalar ℝ) :
    (sumOver n f).toComplex = ∑ k ∈ Finset.range n, (f k).toComplex := by
  rw [sumOver]
  induction n with
  | zero => simp
  | succ n ih =>
      rw [List.range_succ, List.foldl_append, Finset.sum_range_succ, ← ih]
      rfl

/- A squared norm is the sum of the squared moduli. -/
theorem Vec.squaredNorm_eq_sum
    (v : Vec ℝ) :
    v.squaredNorm =
      ∑ k ∈ Finset.range v.size, Complex.normSq (v.entry k).toComplex := by
  rw [squaredNorm]
  generalize v.size = n
  induction n with
  | zero => simp
  | succ n ih =>
      rw [List.range_succ, List.foldl_append, Finset.sum_range_succ, ← ih,
        ← Scalar.squaredModulus_eq]
      rfl

------------------------------------------------------------
-- Largest moduli
------------------------------------------------------------

/- A running maximum is no less than what it started from and has seen. -/
theorem le_foldl_atLeast
    (xs : List ℝ)
    (first : ℝ) :
    ∀ x ∈ first :: xs, x ≤ xs.foldl Arithmetic.atLeast first := by
  induction xs generalizing first with
  | nil => simp
  | cons y xs ih =>
      intro x hMember
      rw [List.foldl_cons, Arithmetic.atLeast_real]
      have hLater := ih (max first y)
      have hMax : max first y ≤ xs.foldl Arithmetic.atLeast (max first y) :=
        hLater _ List.mem_cons_self
      rcases List.mem_cons.1 hMember with rfl | hMember
      · exact (le_max_left _ _).trans hMax
      · rcases List.mem_cons.1 hMember with rfl | hMember
        · exact (le_max_right _ _).trans hMax
        · exact hLater x (List.mem_cons_of_mem _ hMember)

/- A running maximum stays within a bound of all it has seen. -/
theorem foldl_atLeast_le
    {bound first : ℝ}
    {xs : List ℝ}
    (hBound : ∀ x ∈ first :: xs, x ≤ bound) :
    xs.foldl Arithmetic.atLeast first ≤ bound := by
  induction xs generalizing first with
  | nil => exact hBound first List.mem_cons_self
  | cons y xs ih =>
      rw [List.foldl_cons, Arithmetic.atLeast_real]
      refine ih fun x hMember => ?_
      rcases List.mem_cons.1 hMember with rfl | hLater
      · exact max_le (hBound first (by simp)) (hBound y (by simp))
      · exact hBound x (by simp [hLater])

namespace Mat

/- No entry exceeds the largest modulus. -/
theorem modulus_le_largestModulus
    {a : Mat ℝ}
    {i j : Nat}
    (hRow : i < a.rows)
    (hCol : j < a.cols) :
    (a.entry i j).modulus ≤ a.largestModulus := by
  have hMember : (a.entry i j).modulus ∈
      a.entries.toList.map Scalar.modulus :=
    List.mem_map_of_mem (mem_entries_iff.2 ⟨i, hRow, j, hCol, rfl⟩)
  rw [largestModulus]
  cases hModuli : a.entries.toList.map Scalar.modulus with
  | nil => rw [hModuli] at hMember; cases hMember
  | cons first rest =>
      rw [hModuli] at hMember
      exact le_foldl_atLeast rest first _ hMember

/- The largest modulus stays within a bound of all entries. -/
theorem largestModulus_le
    {a : Mat ℝ}
    {bound : ℝ}
    (hBound : 0 ≤ bound)
    (hEntries : ∀ i < a.rows, ∀ j < a.cols,
      (a.entry i j).modulus ≤ bound) :
    a.largestModulus ≤ bound := by
  have hModuli : ∀ x ∈ a.entries.toList.map Scalar.modulus,
      x ≤ bound := by
    intro x hx
    rcases List.mem_map.1 hx with ⟨z, hz, rfl⟩
    rcases mem_entries_iff.1 hz with ⟨i, hRow, j, hCol, rfl⟩
    exact hEntries i hRow j hCol
  rw [largestModulus]
  cases hList : a.entries.toList.map Scalar.modulus with
  | nil => simpa using hBound
  | cons first rest => exact foldl_atLeast_le (hList ▸ hModuli)

end Mat

end QuantumLab
