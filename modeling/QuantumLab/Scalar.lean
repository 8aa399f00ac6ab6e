import QuantumLab.Arithmetic

/-
  This file defines the complex scalars of the engine and
  their field operations.  Products and quotients that come
  out undefined in both parts are recovered when a factor
  is infinite, as the arithmetic annex of the floating
  point standard for complex numbers asks.

  Key definitions include:
    * `Scalar`
    * `Scalar.mul`
    * `Scalar.div`
    * `Scalar.conj`
    * `Scalar.modulus`
    * `Scalar.squaredModulus`
    * `Scalar.scaleReal`
-/

namespace QuantumLab

open Arithmetic

/-
  A complex number by its real and imaginary part.
-/
structure Scalar (R : Type) where
  re : R
  im : R
deriving DecidableEq, Repr

namespace Scalar

variable {R : Type} [Arithmetic R]

------------------------------------------------------------
-- Constants and linear operations
------------------------------------------------------------

/- A real number as a scalar. -/
def ofReal (x : R) : Scalar R :=
  ⟨x, 0.0⟩

/- The scalar zero. -/
def zero : Scalar R :=
  ofReal 0.0

/- The scalar one. -/
def one : Scalar R :=
  ofReal 1.0

/- The imaginary unit. -/
def i : Scalar R :=
  ⟨0.0, 1.0⟩

instance : Inhabited (Scalar R) :=
  ⟨zero⟩

instance : Add (Scalar R) :=
  ⟨fun z w => ⟨z.re + w.re, z.im + w.im⟩⟩

instance : Sub (Scalar R) :=
  ⟨fun z w => ⟨z.re - w.re, z.im - w.im⟩⟩

instance : Neg (Scalar R) :=
  ⟨fun z => ⟨-z.re, -z.im⟩⟩

/- The complex conjugate. -/
def conj (z : Scalar R) : Scalar R :=
  ⟨z.re, -z.im⟩

/- The product with a real factor. -/
def scaleReal (r : R) (z : Scalar R) : Scalar R :=
  ⟨r * z.re, r * z.im⟩

/- Whether both parts are zero. -/
def isZero (z : Scalar R) : Bool :=
  z.re == 0.0 && z.im == 0.0

/- The modulus. -/
def modulus (z : Scalar R) : R :=
  hypot z.re z.im

/- The square of the modulus. -/
def squaredModulus (z : Scalar R) : R :=
  z.re * z.re + z.im * z.im

/- Whether both parts are undefined. -/
def isNaN (z : Scalar R) : Bool :=
  Arithmetic.isNaN z.re && Arithmetic.isNaN z.im

------------------------------------------------------------
-- Product
------------------------------------------------------------

/- A unit with the sign of an infinite part, a zero otherwise. -/
def boxed (x : R) : R :=
  copySign (if isInfinite x then 1.0 else 0.0) x

/- A zero in place of an undefined part. -/
def settled (x : R) : R :=
  if Arithmetic.isNaN x then copySign 0.0 x else x

/- The textbook product. -/
def plainMul (z w : Scalar R) : Scalar R :=
  ⟨z.re * w.re - z.im * w.im, z.re * w.im + z.im * w.re⟩

/- Whether a part is infinite. -/
def isInfinite (z : Scalar R) : Bool :=
  Arithmetic.isInfinite z.re || Arithmetic.isInfinite z.im

/-
  The direction of an infinite scalar; of any other, the
  scalar with its undefined parts settled.
-/
def directed (z : Scalar R) : Scalar R :=
  if z.isInfinite then ⟨boxed z.re, boxed z.im⟩
  else ⟨settled z.re, settled z.im⟩

/- Whether one of the four partial products is infinite. -/
def overflows (z w : Scalar R) : Bool :=
  Arithmetic.isInfinite (z.re * w.re)
    || Arithmetic.isInfinite (z.im * w.im)
    || Arithmetic.isInfinite (z.re * w.im)
    || Arithmetic.isInfinite (z.im * w.re)

/-
  The product.  When both parts come out undefined although
  a factor or a partial product is infinite, the product is
  infinite in the direction of the product of the factors'
  directions.
-/
def mul (z w : Scalar R) : Scalar R :=
  let p := plainMul z w
  if p.isNaN && (z.isInfinite || w.isInfinite || overflows z w) then
    let q := plainMul z.directed w.directed
    ⟨infinity * q.re, infinity * q.im⟩
  else
    p

instance : Mul (Scalar R) :=
  ⟨mul⟩

------------------------------------------------------------
-- Quotient
------------------------------------------------------------

/- The smallest positive number of full precision. -/
def tiniest : R :=
  2.2250738585072014e-308

/- Half of the largest finite number. -/
def halfLargest : R :=
  8.988465674311579e307

/- The reciprocal of the relative spacing of numbers. -/
def spacingInverse : R :=
  4503599627370496.0

/- Both parts multiplied by a real factor. -/
def stretch (r : R) (z : Scalar R) : Scalar R :=
  ⟨z.re * r, z.im * r⟩

/-
  Scales dividend and divisor alike, so that the quotient
  stays the same and no partial result leaves the range.
  The number `m` is the larger part of the divisor.
-/
def balanced (m : R) (z w : Scalar R) : Scalar R × Scalar R :=
  let bound : R := halfLargest / spacingInverse
  let small (x : R) := less (abs x) tiniest
  let moderate (x : R) := less (abs x) bound
  if atMost halfLargest m then
    (stretch 0.5 z, stretch 0.5 w)
  else if small m
      || (small z.re && moderate z.im && moderate m)
      || (small z.im && moderate z.re && moderate m) then
    (stretch spacingInverse z, stretch spacingInverse w)
  else
    (z, w)

/- The quotient where the divisor's real part dominates. -/
def divByReal (z w : Scalar R) : Scalar R :=
  let (z, w) := balanced (abs w.re) z w
  let ratio := w.im / w.re
  let denominator := w.im * ratio + w.re
  if less tiniest (abs ratio) then
    ⟨(z.im * ratio + z.re) / denominator,
      (z.im - z.re * ratio) / denominator⟩
  else
    ⟨(z.re + w.im * (z.im / w.re)) / denominator,
      (z.im - w.im * (z.re / w.re)) / denominator⟩

/- The quotient where the divisor's imaginary part dominates. -/
def divByImaginary (z w : Scalar R) : Scalar R :=
  let (z, w) := balanced (abs w.im) z w
  let ratio := w.re / w.im
  let denominator := w.re * ratio + w.im
  if less tiniest (abs ratio) then
    ⟨(z.re * ratio + z.im) / denominator,
      (z.im * ratio - z.re) / denominator⟩
  else
    ⟨(w.re * (z.re / w.im) + z.im) / denominator,
      (w.re * (z.im / w.im) - z.re) / denominator⟩

/- Whether both parts are finite. -/
def isFinite (z : Scalar R) : Bool :=
  Arithmetic.isFinite z.re && Arithmetic.isFinite z.im

/-
  The quotient, by division with the larger part of the
  divisor, and with infinities and zeros recovered.
-/
def div (z w : Scalar R) : Scalar R :=
  let q :=
    if less (abs w.re) (abs w.im) then divByImaginary z w
    else divByReal z w
  if !q.isNaN then
    q
  else if w.isZero && !z.isNaN then
    ⟨copySign infinity w.re * z.re, copySign infinity w.re * z.im⟩
  else if z.isInfinite && w.isFinite then
    let z' : Scalar R := ⟨boxed z.re, boxed z.im⟩
    ⟨infinity * (z'.re * w.re + z'.im * w.im),
      infinity * (z'.im * w.re - z'.re * w.im)⟩
  else if w.isInfinite && z.isFinite then
    let w' : Scalar R := ⟨boxed w.re, boxed w.im⟩
    ⟨0.0 * (z.re * w'.re + z.im * w'.im),
      0.0 * (z.im * w'.re - z.re * w'.im)⟩
  else
    q

instance : Div (Scalar R) :=
  ⟨div⟩

end Scalar

end QuantumLab
