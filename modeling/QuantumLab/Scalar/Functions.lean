import QuantumLab.Scalar

/-
  This file defines the elementary functions of complex
  scalars on their principal branches.  The sign of a zero
  chooses the side of a branch cut, and infinite or
  undefined parts give the limits that the arithmetic annex
  for complex numbers prescribes.

  Key definitions include:
    * `Scalar.exp`
    * `Scalar.log`
    * `Scalar.sqrt`
    * `Scalar.cosh`
    * `Scalar.cos`
    * `Scalar.sin`
    * `Scalar.pow`
-/

namespace QuantumLab

open Arithmetic

namespace Scalar

variable {R : Type} [Arithmetic R]

------------------------------------------------------------
-- Growth beyond the range of the exponential
------------------------------------------------------------

/- The largest whole exponent whose exponential is finite. -/
def exponentBound : R :=
  709.0

/- The largest finite number. -/
def largest : R :=
  1.7976931348623157e308

/-
  The scalar `z` times the exponential of `x`.  A large
  exponent is applied in steps, so that a small part of `z`
  keeps an intermediate overflow away.
-/
def growBy (x : R) (z : Scalar R) : Scalar R :=
  let step (p : R × Scalar R) : R × Scalar R :=
    if less exponentBound p.1 then
      (p.1 - exponentBound, scaleReal (Arithmetic.exp exponentBound) p.2)
    else
      p
  let (x, z) := step (step (x, z))
  if less exponentBound x then
    scaleReal largest z
  else
    scaleReal (Arithmetic.exp x) z

/- The point of the unit circle at an angle. -/
def unit (angle : R) : Scalar R :=
  if less tiniest (abs angle) then
    ⟨Arithmetic.cos angle, Arithmetic.sin angle⟩
  else
    ⟨1.0, angle⟩

/- The infinite scalar whose parts have the signs of the parts of `z`. -/
def infiniteLike (z : Scalar R) : Scalar R :=
  ⟨copySign infinity z.re, copySign infinity z.im⟩

------------------------------------------------------------
-- Exponential
------------------------------------------------------------

/- The exponential function. -/
def exp (z : Scalar R) : Scalar R :=
  if Arithmetic.isNaN z.re then
    ⟨nan, if z.im == 0.0 then z.im else nan⟩
  else if Arithmetic.isInfinite z.re then
    if Arithmetic.isFinite z.im then
      let value : R := if signBit z.re then 0.0 else infinity
      if z.im == 0.0 then
        ⟨value, z.im⟩
      else
        let u := unit z.im
        ⟨copySign value u.re, copySign value u.im⟩
    else if signBit z.re then
      ⟨0.0, copySign 0.0 z.im⟩
    else
      ⟨infinity, nan⟩
  else if Arithmetic.isFinite z.im then
    growBy z.re (unit z.im)
  else
    ⟨nan, nan⟩

------------------------------------------------------------
-- Logarithm and power
------------------------------------------------------------

/-
  The logarithm of the modulus.  Near the unit circle it is
  taken from the distance of the squared modulus to one,
  which loses no digits.
-/
def logModulus (z : Scalar R) : R :=
  let x := abs z.re
  let y := abs z.im
  let long := if less x y then y else x
  let short := if less x y then x else y
  let d := hypot long short
  if less 0.5 d && less d 2.0 then
    logOnePlus ((long - 1.0) * (long + 1.0) + short * short) / 2.0
  else if Arithmetic.isInfinite d && !Arithmetic.isInfinite long then
    Arithmetic.log (hypot (long * 0.5) (short * 0.5)) + 0.6931471805599453
  else
    Arithmetic.log d

/- The logarithm with an angle between minus pi and pi. -/
def log (z : Scalar R) : Scalar R :=
  if z.isZero then
    ⟨-infinity, copySign (if signBit z.re then pi else 0.0) z.im⟩
  else if Arithmetic.isNaN z.re || Arithmetic.isNaN z.im then
    ⟨if z.isInfinite then infinity else nan, nan⟩
  else
    ⟨logModulus z, angle z.im z.re⟩

/- The power with a complex exponent. -/
def pow (base exponent : Scalar R) : Scalar R :=
  exp (exponent * log base)

------------------------------------------------------------
-- Square root
------------------------------------------------------------

/-
  A factor and its square by which an extreme argument is
  brought into range.
-/
def rootScale (z : Scalar R) : R × R :=
  let m := atLeast (abs z.re) (abs z.im)
  if less (largest * 0.25) m then
    (2.0, 0.25)
  else if less m (tiniest * 2.0) then
    (1.0 / 134217728.0, 18014398509481984.0)
  else
    (1.0, 1.0)

/- The square root of a finite scalar with two nonzero parts. -/
def sqrtOfFinite (z : Scalar R) : Scalar R :=
  let (back, factor) := rootScale z
  let x := z.re * factor
  let y := z.im * factor
  let d := hypot x y
  if less 0.0 x then
    let r := Arithmetic.sqrt (0.5 * (d + x))
    let s := 0.5 * (y / r)
    ⟨r * back, copySign (s * back) z.im⟩
  else
    let s := Arithmetic.sqrt (0.5 * (d - x))
    let r := abs (0.5 * (y / s))
    ⟨r * back, copySign (s * back) z.im⟩

/- The square root in the right half plane. -/
def sqrt (z : Scalar R) : Scalar R :=
  if Arithmetic.isInfinite z.im then
    ⟨infinity, z.im⟩
  else if Arithmetic.isInfinite z.re then
    if signBit z.re then
      ⟨if Arithmetic.isNaN z.im then nan else 0.0, copySign infinity z.im⟩
    else
      ⟨z.re, if Arithmetic.isNaN z.im then nan else copySign 0.0 z.im⟩
  else if Arithmetic.isNaN z.re || Arithmetic.isNaN z.im then
    ⟨nan, nan⟩
  else if z.im == 0.0 then
    if less z.re 0.0 then
      ⟨0.0, copySign (Arithmetic.sqrt (-z.re)) z.im⟩
    else
      ⟨abs (Arithmetic.sqrt z.re), copySign 0.0 z.im⟩
  else if z.re == 0.0 then
    let r := Arithmetic.sqrt (0.5 * abs z.im)
    ⟨r, copySign r z.im⟩
  else
    sqrtOfFinite z

------------------------------------------------------------
-- Hyperbolic and circular functions
------------------------------------------------------------

/-
  The exponential growth `cosh x` of the real part and
  `sinh x` of the imaginary part of a point of the unit
  circle.
-/
def spread (x : R) (u : Scalar R) : Scalar R :=
  if less exponentBound (abs x) then
    let u' : Scalar R := ⟨u.re, if signBit x then -u.im else u.im⟩
    growBy (abs x - exponentBound)
      (scaleReal (Arithmetic.exp exponentBound / 2.0) u')
  else
    ⟨Arithmetic.cosh x * u.re, Arithmetic.sinh x * u.im⟩

/- The hyperbolic cosine. -/
def cosh (z : Scalar R) : Scalar R :=
  if Arithmetic.isNaN z.re then
    ⟨nan, if z.im == 0.0 then z.im else nan⟩
  else if Arithmetic.isInfinite z.re then
    if z.im == 0.0 then
      ⟨infinity, z.im * copySign 1.0 z.re⟩
    else if Arithmetic.isFinite z.im then
      let u := infiniteLike (unit z.im)
      ⟨u.re, u.im * copySign 1.0 z.re⟩
    else
      ⟨infinity, nan⟩
  else if Arithmetic.isFinite z.im then
    spread z.re (unit z.im)
  else
    ⟨nan, if z.re == 0.0 then 0.0 else nan⟩

/-
  The hyperbolic sine.  Where only the modulus of the limit
  is determined, the infinite part is taken negative.
-/
def sinh (z : Scalar R) : Scalar R :=
  if Arithmetic.isNaN z.re then
    ⟨nan, if z.im == 0.0 then z.im else nan⟩
  else if Arithmetic.isInfinite z.re then
    if z.im == 0.0 then
      ⟨z.re, z.im⟩
    else if Arithmetic.isFinite z.im then
      let u := infiniteLike (unit z.im)
      ⟨u.re * copySign 1.0 z.re, u.im⟩
    else
      ⟨-infinity, nan⟩
  else if Arithmetic.isFinite z.im then
    let u := unit z.im
    let swapped := spread z.re ⟨u.im, u.re⟩
    ⟨swapped.im, swapped.re⟩
  else
    ⟨if z.re == 0.0 then z.re else nan, nan⟩

/- The cosine, as the hyperbolic cosine a quarter turn away. -/
def cos (z : Scalar R) : Scalar R :=
  cosh ⟨-z.im, z.re⟩

/- The sine, as the hyperbolic sine a quarter turn away and back. -/
def sin (z : Scalar R) : Scalar R :=
  let w := sinh ⟨-z.im, z.re⟩
  ⟨w.im, -w.re⟩

end Scalar

end QuantumLab
