import QuantumLab.Dense.Spectrum
import QuantumLab.Fault

/-
  This file defines the operations on vectors and matrices
  that refuse operands whose extents do not fit.

  Key definitions include:
    * `Guarded.trace`, `Guarded.sum`, `Guarded.vectorSum`
    * `Guarded.product`, `Guarded.vectorProduct`
    * `Guarded.commutator`, `Guarded.anticommutator`
    * `Guarded.exponential`, `Guarded.propagator`
    * `Guarded.evolveState`
    * `Guarded.expectation`
    * `Guarded.probabilities`
    * `Guarded.hermiticityGap`
-/

namespace QuantumLab

open Arithmetic

namespace Guarded

variable {R : Type} [Arithmetic R]

------------------------------------------------------------
-- Refusals
------------------------------------------------------------

/- Refuses a matrix that is not square. -/
def requireSquare
    (a : Mat R)
    (subject : String) : Except (Fault R) Unit :=
  if a.isSquare then .ok ()
  else refuse (.mismatch a.shape.square a.shape subject)

/- Refuses a matrix of other extents than a square one. -/
def requireSameSquare
    (a b : Mat R)
    (subject : String) : Except (Fault R) Unit := do
  requireSquare a subject
  if a.sameExtents b then .ok ()
  else refuse (.mismatch a.shape b.shape subject)

------------------------------------------------------------
-- Algebra
------------------------------------------------------------

/- The trace of a square matrix. -/
def trace (a : Mat R) : Except (Fault R) (Scalar R) := do
  requireSquare a "trace"
  return a.trace

/- The sum of two matrices. -/
def sum (a b : Mat R) : Except (Fault R) (Mat R) :=
  if a.sameExtents b then .ok (a + b)
  else refuse (.mismatch a.shape b.shape "matrix addition")

/- The sum of two vectors. -/
def vectorSum (v w : Vec R) : Except (Fault R) (Vec R) :=
  if v.size == w.size then .ok (v + w)
  else refuse (.mismatch v.shape w.shape "vector addition")

/- The product of two matrices. -/
def product (a b : Mat R) : Except (Fault R) (Mat R) :=
  if a.cols == b.rows then .ok (a * b)
  else refuse (.mismatch a.shape b.shape "matrix multiplication")

/- The product of a matrix and a vector. -/
def vectorProduct (a : Mat R) (v : Vec R) : Except (Fault R) (Vec R) :=
  if a.cols == v.size then .ok (a.mulVec v)
  else refuse (.mismatch a.shape v.shape "matrix-vector multiplication")

/- The commutator of two square matrices. -/
def commutator (a b : Mat R) : Except (Fault R) (Mat R) := do
  requireSameSquare a b "commutator"
  return a.commutator b

/- The anticommutator of two square matrices. -/
def anticommutator (a b : Mat R) : Except (Fault R) (Mat R) := do
  requireSameSquare a b "anti-commutator"
  return a.anticommutator b

------------------------------------------------------------
-- Exponentials
------------------------------------------------------------

/- The exponential of `z` times the Hermitian part of a matrix. -/
def exponentialOfHermitian
    (z : Scalar R)
    (a : Mat R) : Except (Fault R) (Mat R) :=
  match a.hermitianPart.spectrum? with
  | some spectrum => .ok (spectrum.exponential z)
  | none => refuse .unsettledExponential

/-
  The deviation up to which a generator counts as Hermitian
  or skew-Hermitian, relative to its largest entry.
-/
def generatorTolerance (a : Mat R) : R :=
  1e-8 * atLeast 1.0 a.largestModulus

/-
  The exponential of a matrix that is Hermitian or
  skew-Hermitian.  In the second case the generator is minus
  the imaginary unit times a Hermitian matrix.
-/
def exponential (a : Mat R) : Except (Fault R) (Mat R) := do
  requireSquare a "matrix exponential"
  if a.isEmpty then
    return a
  if atMost a.hermiticityGap (generatorTolerance a) then
    exponentialOfHermitian Scalar.one a
  else if atMost a.skewHermiticityGap (generatorTolerance a) then
    exponentialOfHermitian ⟨0.0, -1.0⟩ (a.scale Scalar.i)
  else
    refuse (.exponentialOf a.hermiticityGap a.skewHermiticityGap)

/- The propagator of a Hamiltonian over a time. -/
def propagator (h : Mat R) (time : R) : Except (Fault R) (Mat R) := do
  requireSquare h "unitary propagator"
  if h.isEmpty then
    return h
  exponentialOfHermitian ⟨0.0, -time⟩ h

/- A density matrix after a unitary. -/
def evolveState (u rho : Mat R) : Except (Fault R) (Mat R) :=
  if u.isSquare && u.cols == rho.rows && rho.cols == u.cols then
    .ok (u * rho * u.dagger)
  else
    refuse (.mismatch u.shape rho.shape
      "unitary application to density matrix")

------------------------------------------------------------
-- Measurement
------------------------------------------------------------

/- The expectation of an observable in a state. -/
def expectation (a rho : Mat R) : Except (Fault R) (Scalar R) := do
  requireSameSquare a rho "expectation value"
  return (a * rho).trace

/-
  The weight of an outcome: the real trace of its operator
  in a state, at least zero.
-/
def weight (rho p : Mat R) : Except (Fault R) R := do
  requireSameSquare p rho "projective measurement"
  return atLeast 0.0 (p * rho).trace.re

/- Weights divided by their sum, if the sum is positive. -/
def normalized (weights : List R) : List R :=
  let total := weights.foldl (· + ·) 0.0
  if less 0.0 total then weights.map (· / total) else weights

/- The probabilities of the outcomes of a measurement. -/
def probabilities
    (operators : List (Mat R))
    (rho : Mat R) : Except (Fault R) (List R) := do
  let weights ← operators.mapM (weight rho)
  return normalized weights

/- How far a square matrix is from its conjugate transpose. -/
def hermiticityGap (a : Mat R) : Except (Fault R) R := do
  requireSquare a "hermiticity check"
  return a.hermiticityGap

end Guarded

end QuantumLab
