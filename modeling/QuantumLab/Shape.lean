/-
  This file defines the shapes of quantities: a scalar, a
  vector of some length, or a matrix of some extents.

  Key definitions include:
    * `Shape`
    * `Shape.rows`, `Shape.cols`
    * `Shape.isScalar`, `Shape.isVector`
    * `Shape.isSquareMatrix`
    * `Shape.square`
    * `Shape.text`
    * `Shape.wrap`
-/

namespace QuantumLab

/-
  The shape of a quantity.
-/
inductive Shape where
  | scalar
  | vector (length : Nat)
  | matrix (rows cols : Nat)
deriving DecidableEq, Repr, Inhabited

namespace Shape

/- The number of rows; one for a scalar. -/
def rows : Shape → Nat
  | scalar => 1
  | vector n => n
  | matrix r _ => r

/- The number of columns; one for a scalar or a vector. -/
def cols : Shape → Nat
  | scalar => 1
  | vector _ => 1
  | matrix _ c => c

/- Whether the shape is that of a scalar. -/
def isScalar : Shape → Bool
  | scalar => true
  | _ => false

/- Whether the shape is that of a vector. -/
def isVector : Shape → Bool
  | vector _ => true
  | _ => false

/- Whether the shape is that of a matrix with as many rows as columns. -/
def isSquareMatrix : Shape → Bool
  | matrix r c => r == c
  | _ => false

/- The square matrix shape with as many rows. -/
def square (s : Shape) : Shape :=
  matrix s.rows s.rows

/- The column vector shape with as many rows. -/
def column (s : Shape) : Shape :=
  vector s.rows

/- The shape of the conjugate transpose. -/
def dagger : Shape → Shape
  | matrix r c => matrix c r
  | s => s

/- Extents are counted in machine words of 64 bits. -/
def wrap (n : Nat) : Nat :=
  n % UInt64.size

/- The text of a shape in messages. -/
def text : Shape → String
  | scalar => "scalar"
  | vector n => "vector(" ++ Nat.repr n ++ ")"
  | matrix r c => "matrix(" ++ Nat.repr r ++ "x" ++ Nat.repr c ++ ")"

end Shape

end QuantumLab
