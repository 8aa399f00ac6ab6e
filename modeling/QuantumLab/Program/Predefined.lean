import QuantumLab.Dense.Basic
import QuantumLab.Table

/-
  This file defines the operators that every program knows
  without declaring them.

  Key definitions include:
    * `Predefined.pauliX`, `Predefined.pauliY`,
      `Predefined.pauliZ`
    * `Predefined.operators`
    * `Predefined.find?`
-/

namespace QuantumLab

namespace Predefined

variable {R : Type} [Arithmetic R]

/- A matrix of two rows and two columns. -/
def twoByTwo (a b c d : Scalar R) : Mat R :=
  Mat.ofEntries 2 2 #[a, b, c, d]

/- The Pauli matrix that swaps the basis states. -/
def pauliX : Mat R :=
  twoByTwo .zero .one .one .zero

/- The Pauli matrix that swaps the basis states with opposite phases. -/
def pauliY : Mat R :=
  twoByTwo .zero (-Scalar.i) Scalar.i .zero

/- The Pauli matrix that flips the phase of the second basis state. -/
def pauliZ : Mat R :=
  twoByTwo .one .zero .zero (-Scalar.one)

/- The predefined operators by name, in ascending order. -/
def operators : List (String × Mat R) :=
  [("identity", Mat.identity 2),
    ("sigma_x", pauliX),
    ("sigma_y", pauliY),
    ("sigma_z", pauliZ)]

/- The predefined operator of a name. -/
def find? (name : String) : Option (Mat R) :=
  Rows.find? name operators

/- The names of the predefined operators. -/
def names : List String :=
  ["identity", "sigma_x", "sigma_y", "sigma_z"]

end Predefined

end QuantumLab
