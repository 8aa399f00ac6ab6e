import QuantumLab.Dense.Basic
import QuantumLab.Shape

/-
  This file defines the values that expressions and plan
  nodes have: a scalar, a vector or a matrix.

  Key definitions include:
    * `Value`
    * `Value.shape`
    * `ValueKind`, `Value.kind`
    * `Value.scale`
    * `Value.adjoint`
-/

namespace QuantumLab

/-
  A numeric value.
-/
inductive Value (R : Type) where
  | scalar (z : Scalar R)
  | vector (v : Vec R)
  | matrix (a : Mat R)
deriving DecidableEq, Repr

/-
  The three kinds of values.
-/
inductive ValueKind where
  | scalar
  | vector
  | matrix
deriving DecidableEq, Repr

/- The word for a kind in messages. -/
def ValueKind.word : ValueKind → String
  | scalar => "scalar"
  | vector => "vector"
  | matrix => "matrix"

/- The shape of a vector. -/
def Vec.shape {R : Type} (v : Vec R) : Shape :=
  .vector v.size

/- The shape of a matrix. -/
def Mat.shape {R : Type} (a : Mat R) : Shape :=
  .matrix a.rows a.cols

namespace Value

variable {R : Type}

/- The shape of a value. -/
def shape : Value R → Shape
  | scalar _ => .scalar
  | vector v => v.shape
  | matrix a => a.shape

/- The kind of a value. -/
def kind : Value R → ValueKind
  | scalar _ => .scalar
  | vector _ => .vector
  | matrix _ => .matrix

/- A value multiplied by a scalar. -/
def scale [Arithmetic R] (z : Scalar R) : Value R → Value R
  | scalar w => scalar (z * w)
  | vector v => vector (v.scale z)
  | matrix a => matrix (a.scale z)

/- The adjoint: conjugate entries, and matrices transposed. -/
def adjoint [Arithmetic R] : Value R → Value R
  | scalar z => scalar z.conj
  | vector v => vector v.conj
  | matrix a => matrix a.dagger

end Value

end QuantumLab
