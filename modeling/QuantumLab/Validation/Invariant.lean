import QuantumLab.Dense.Guarded
import QuantumLab.Program.Statement

/-
  This file checks the physical invariants of operators,
  states and measurements up to a tolerance.  A check turns
  its subject down if the measured deviation exceeds the
  tolerance.

  Key definitions include:
    * `requireHermitian`
    * `requirePositive`
    * `requireUnitTrace`
    * `requireNormalized`
    * `requireProjective`
    * `requirePovm`
    * `requireComplete`
-/

namespace QuantumLab

open Arithmetic

variable {R : Type} [Arithmetic R]

------------------------------------------------------------
-- Operators and states
------------------------------------------------------------

/- Refuses a deviation that exceeds the tolerance. -/
def requireWithin
    (tolerance deviation : R)
    (invariant : Invariant)
    (name detail : String) : Except (Fault R) Unit :=
  if less tolerance deviation then
    refuse (.violation invariant name deviation detail)
  else
    .ok ()

/- Refuses a matrix that is not Hermitian. -/
def requireHermitian
    (tolerance : R)
    (name : String)
    (a : Mat R) : Except (Fault R) Unit := do
  let gap ← Guarded.hermiticityGap a
  requireWithin tolerance gap .hermiticity name
    "matrix is not Hermitian"

/- Refuses a matrix that is not Hermitian or has a negative eigenvalue. -/
def requirePositive
    (tolerance : R)
    (name : String)
    (a : Mat R) : Except (Fault R) Unit := do
  requireHermitian tolerance name a
  match a.spectrum? with
  | none => refuse (.unsettledSpectrum name)
  | some spectrum =>
      if less spectrum.least (-tolerance) then
        refuse (.violation .positiveSemiDefiniteness name
          spectrum.least "matrix has a negative eigenvalue")
      else
        .ok ()

/- The trace of a matrix whose real part has to be one. -/
def requireUnitTrace
    (tolerance : R)
    (name : String)
    (a : Mat R) : Except (Fault R) (Scalar R) := do
  let trace ← Guarded.trace a
  requireWithin tolerance (abs (trace.re - 1.0)) .trace name
    ("trace must be 1 but was " ++ fixedText trace.re)
  return trace

/- Refuses a ket whose squared norm is not one. -/
def requireNormalized
    (tolerance : R)
    (name : String)
    (ket : Vec R) : Except (Fault R) Unit :=
  requireWithin tolerance (abs (ket.squaredNorm - 1.0))
    .normalization name
    ("squared norm of ket is " ++ fixedText ket.squaredNorm)

------------------------------------------------------------
-- Measurements
------------------------------------------------------------

/- The sum of operators of one shape and a matrix to start from. -/
def sumOperators
    (name : String)
    (total : Mat R) : List (Mat R) → Except (Fault R) (Mat R)
  | [] => .ok total
  | operator :: rest =>
      if operator.sameExtents total then
        sumOperators name (total + operator) rest
      else
        refuse (.mismatch total.shape operator.shape
          ("measurement " ++ Cause.quote name))

/- Refuses operators that do not sum to the identity. -/
def requireComplete
    (tolerance : R)
    (name : String)
    (operators : List (Mat R)) : Except (Fault R) Unit :=
  match operators with
  | [] => refuse (.measurementWithoutOperators name)
  | first :: _ => do
      let total ←
        sumOperators name (Mat.zero first.rows first.cols) operators
      requireWithin tolerance
        (total - Mat.identity total.rows).largestModulus
        .completeness name "operators do not sum to the identity"

/- Refuses a matrix that is not a projector. -/
def requireProjector
    (tolerance : R)
    (name : String)
    (p : Mat R) : Except (Fault R) Unit := do
  requireHermitian tolerance name p
  requireWithin tolerance (p * p - p).largestModulus
    .idempotence name "projector is not idempotent"

/-
  Refuses operators, numbered from `k` on, that fail a
  check of their own.
-/
def requireEach
    (check : String → Mat R → Except (Fault R) Unit)
    (name : String)
    (k : Nat) : List (Mat R) → Except (Fault R) Unit
  | [] => .ok ()
  | operator :: rest => do
      check (operatorName name k) operator
      requireEach check name (k + 1) rest

/- Refuses operators that are not projectors with the identity as sum. -/
def requireProjective
    (tolerance : R)
    (name : String)
    (operators : List (Mat R)) : Except (Fault R) Unit := do
  requireEach (requireProjector tolerance) name 0 operators
  requireComplete tolerance name operators

/- Refuses operators that are not positive with the identity as sum. -/
def requirePovm
    (tolerance : R)
    (name : String)
    (operators : List (Mat R)) : Except (Fault R) Unit := do
  requireEach (requirePositive tolerance) name 0 operators
  requireComplete tolerance name operators

end QuantumLab
