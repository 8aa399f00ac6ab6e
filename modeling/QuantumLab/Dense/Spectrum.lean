import QuantumLab.Dense.Basic
import QuantumLab.Scalar.Functions

/-
  This file defines the spectra of Hermitian matrices, and
  what is computed from them.  The eigenvalues and the
  eigenvectors are those of the solver.

  Key definitions include:
    * `Spectrum`
    * `Mat.parts`
    * `Mat.spectrum?`
    * `Spectrum.least`
    * `Spectrum.exponential`
-/

namespace QuantumLab

open Arithmetic

/-
  The eigenvalues of a matrix, and its eigenvectors in the
  columns of another one.
-/
structure Spectrum (R : Type) where
  values : List R
  vectors : Mat R

variable {R : Type} [Arithmetic R]

/- The real and imaginary parts of the entries. -/
def Mat.parts (a : Mat R) (i j : Nat) : R × R :=
  ((a.entry i j).re, (a.entry i j).im)

/-
  The spectrum of a Hermitian matrix, unless the solver does
  not converge.
-/
def Mat.spectrum? (a : Mat R) : Option (Spectrum R) :=
  (eigensystem? a.rows a.parts).map fun (values, vectors) =>
    { values := (List.range a.rows).map values
      vectors := Mat.ofFn a.rows a.rows fun i j =>
        ⟨(vectors i j).1, (vectors i j).2⟩ }

namespace Spectrum

/- The least eigenvalue, zero if there is none. -/
def least (s : Spectrum R) : R :=
  match s.values with
  | [] => 0.0
  | first :: rest =>
      rest.foldl (fun low x => if less x low then x else low) first

/- The exponential of `z` times the matrix. -/
def exponential (z : Scalar R) (s : Spectrum R) : Mat R :=
  let factors := s.values.map fun x => (z * Scalar.ofReal x).exp
  s.vectors * Mat.diagonal ⟨factors.toArray⟩ * s.vectors.dagger

end Spectrum

end QuantumLab
