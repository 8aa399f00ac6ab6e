/-
  This file fixes the real arithmetic that the rest of the
  library is written over.  Nothing else in the library
  looks inside a real number, so every definition can be
  read over floating point numbers, over the field of real
  numbers, or over any other interpretation of these
  operations.

  Key definitions include:
    * `Arithmetic`
    * `Arithmetic.isNaN`
    * `Arithmetic.isInfinite`
    * `Arithmetic.signBit`
    * `Arithmetic.abs`
    * `Arithmetic.copySign`
-/

namespace QuantumLab

------------------------------------------------------------
-- The operations
------------------------------------------------------------

/-
  Real numbers as the engine computes with them: the field
  operations, comparisons with a Boolean answer, the
  elementary functions, a solver for eigenvalues, and the two
  texts in which messages quote a number.
-/
class Arithmetic (R : Type) extends
    Add R, Sub R, Mul R, Div R, Neg R, BEq R,
    OfScientific R where
  /-- Strictly less; false as soon as one side is no number. -/
  less : R → R → Bool
  /-- The real number nearest to a natural number. -/
  ofNat : Nat → R
  /-- The nonnegative square root. -/
  sqrt : R → R
  /-- The exponential function. -/
  exp : R → R
  /-- The natural logarithm. -/
  log : R → R
  /-- The logarithm of one plus the argument. -/
  logOnePlus : R → R
  /-- The sine. -/
  sin : R → R
  /-- The cosine. -/
  cos : R → R
  /-- The hyperbolic sine. -/
  sinh : R → R
  /-- The hyperbolic cosine. -/
  cosh : R → R
  /-- The angle of the point with ordinate `y` and abscissa `x`. -/
  angle : (y : R) → (x : R) → R
  /-- The length of the hypotenuse over two legs. -/
  hypot : R → R → R
  /--
    The eigenvalues of a Hermitian matrix of `n` rows, and its
    eigenvectors in the columns of a second matrix, unless the
    solver does not converge.  Entries are pairs of a real and
    an imaginary part, and only those on and below the diagonal
    are read.
  -/
  eigensystem? : (n : Nat) → (Nat → Nat → R × R) →
    Option ((Nat → R) × (Nat → Nat → R × R))
  /-- The text with six digits after the point. -/
  fixedText : R → String
  /-- The text with six significant digits. -/
  generalText : R → String

namespace Arithmetic

variable {R : Type} [Arithmetic R]

------------------------------------------------------------
-- Derived comparisons
------------------------------------------------------------

/- Less or equal; false as soon as one side is no number. -/
def atMost (x y : R) : Bool :=
  less x y || x == y

/- A value that differs from itself is no number. -/
def isNaN (x : R) : Bool :=
  !(x == x)

/- A number whose distance to itself is no number is infinite. -/
def isInfinite (x : R) : Bool :=
  !isNaN x && isNaN (x - x)

/- Neither infinite nor undefined. -/
def isFinite (x : R) : Bool :=
  !isNaN (x - x)

/-
  Whether the sign is negative.  A negative zero is told
  from a positive one by its reciprocal.
-/
def signBit (x : R) : Bool :=
  if x == (0.0 : R) then
    less ((1.0 : R) / x) 0.0
  else
    less x 0.0

/- The absolute value. -/
def abs (x : R) : R :=
  if signBit x then -x else x

/- The magnitude of `x` with the sign of `s`. -/
def copySign (x s : R) : R :=
  if signBit x == signBit s then x else -x

/- The larger of a bound and a number; the bound unless it is exceeded. -/
def atLeast (bound x : R) : R :=
  if less bound x then x else bound

/- The value of an undefined operation. -/
def nan : R :=
  (0.0 : R) / 0.0

/- The value of an overflowing operation. -/
def infinity : R :=
  (1.0 : R) / 0.0

/- The ratio of a circle's circumference to its diameter. -/
def pi : R :=
  3.141592653589793

end Arithmetic

end QuantumLab
