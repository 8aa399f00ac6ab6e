import QuantumLab.Decimal
import QuantumLab.Dense.Rotations

/-
  This file interprets the arithmetic of the engine in
  double precision floating point numbers.  A finite number
  is a whole multiple of a power of two; its texts are the
  exact decimal texts of that fraction.

  Key definitions include:
    * `Double.Parts`
    * `Double.parts?`
    * `Double.fixedText`
    * `Double.generalText`
    * `Double.shortestText`
    * `Double.ofDecimal`
    * `Double.toInt`
    * `Double.arithmetic`
    * the instance of `Arithmetic` for `Float`
-/

namespace QuantumLab

namespace Double

open Decimal

------------------------------------------------------------
-- The exact value of a number
------------------------------------------------------------

/-
  A finite number: its sign and its magnitude
  `mantissa * 2 ^ exponent`.
-/
structure Parts where
  negative : Bool
  mantissa : Nat
  exponent : Int
deriving DecidableEq, Repr

/- The exponent of the smallest positive number. -/
def lowestExponent : Int :=
  -1074

/- The parts of the bits of a number, unless it is infinite or undefined. -/
def partsOfBits? (bits : Nat) : Option Parts :=
  let negative := bits / Nat.pow 2 63 % 2 == 1
  let biased := bits / Nat.pow 2 52 % Nat.pow 2 11
  let fraction := bits % Nat.pow 2 52
  if biased = 2047 then
    none
  else if biased = 0 then
    some ⟨negative, fraction, lowestExponent⟩
  else
    some
      ⟨negative, Nat.pow 2 52 + fraction,
        lowestExponent + (biased - 1 : Nat)⟩

/- The parts of a finite number. -/
def parts? (x : Float) : Option Parts :=
  partsOfBits? x.toBits.toNat

/- The magnitude of a number as a fraction. -/
def Parts.magnitude (p : Parts) : Fraction :=
  ⟨p.mantissa * Nat.pow 2 p.exponent.toNat,
    Nat.pow 2 (-p.exponent).toNat⟩

/-
  The numbers that round to the magnitude: up to half the
  distance to either neighbour.  Below a power of two the
  lower neighbour is nearer; ends round to the even
  mantissa.
-/
def Parts.roundingInterval (p : Parts) : Interval :=
  let fourths (m : Nat) : Fraction :=
    ⟨m * Nat.pow 2 p.exponent.toNat,
      4 * Nat.pow 2 (-p.exponent).toNat⟩
  let below :=
    if p.mantissa = Nat.pow 2 52 ∧ p.exponent ≠ lowestExponent
      then 1 else 2
  { low := fourths (4 * p.mantissa - below)
    high := fourths (4 * p.mantissa + 2)
    closed := p.mantissa % 2 == 0 }

/- The fewest digits that read back as the magnitude. -/
def Parts.shortestDigits (p : Parts) : Digits :=
  if p.mantissa = 0 then ⟨0, 0⟩
  else shortest p.roundingInterval p.magnitude 17

------------------------------------------------------------
-- Texts
------------------------------------------------------------

/- A text of the magnitude with the sign in front. -/
def signed (p : Parts) (text : Fraction → String) : String :=
  (if p.negative then "-" else "") ++ text p.magnitude

/- The text of a number without finite parts. -/
def specialText (x : Float) : String :=
  if x.isNaN then "nan" else if x < 0.0 then "-inf" else "inf"

/- The text with six digits after the point. -/
def fixedText (x : Float) : String :=
  match parts? x with
  | some p => signed p (fixed 6)
  | none => specialText x

/- The text with `n` significant digits. -/
def generalText (n : Nat) (x : Float) : String :=
  match parts? x with
  | some p => signed p (general n)
  | none => specialText x

/- The shortest text that reads back as the same number. -/
def shortestText (x : Float) : String :=
  match parts? x with
  | some p => (if p.negative then "-" else "") ++ plain p.shortestDigits
  | none => specialText x

------------------------------------------------------------
-- Conversions
------------------------------------------------------------

/-
  The number nearest to a decimal number.  Exponents far
  outside of the range are answered without computing the
  power of ten.
-/
def ofDecimal (negative : Bool) (d : Digits) : Float :=
  let top := d.exponent + length d.mantissa
  let magnitude : Float :=
    if d.mantissa = 0 ∨ top < -400 then 0.0
    else if 400 < top then 1.0 / 0.0
    else Float.ofScientific d.mantissa (d.exponent < 0) d.exponent.natAbs
  if negative then -magnitude else magnitude

/- The whole part of a finite number, toward zero. -/
def toInt (x : Float) : Int :=
  match parts? x with
  | some p =>
      let whole : Int := p.magnitude.num / p.magnitude.den
      if p.negative then -whole else whole
  | none => 0

/-
  The number with at most `n` significant digits nearest to
  a finite number.
-/
def roundSignificant (n : Nat) (x : Float) : Float :=
  match parts? x with
  | some p =>
      if p.mantissa = 0 then x
      else ofDecimal p.negative (significant n p.magnitude)
  | none => x

------------------------------------------------------------
-- Elementary functions
------------------------------------------------------------

/-
  The logarithm of one plus a small number, corrected for
  the rounding of the sum.
-/
def logOnePlus (x : Float) : Float :=
  let u := 1.0 + x
  if u == 1.0 then x else Float.log u * x / (u - 1.0)

/-
  The hypotenuse over legs `long` and `short` of moderate
  size, with one correction step for the rounding of the
  squares.
-/
def hypotOfOrdered (long short : Float) : Float :=
  let h := Float.sqrt (long * long + short * short)
  if h ≤ 2.0 * short then
    let d := h - short
    let t := long * (2.0 * d - long) + (d - 2.0 * (long - short)) * d
    h - t / (2.0 * h)
  else
    let d := h - long
    let t := 2.0 * d * (long - 2.0 * short)
      + ((4.0 * d - short) * short + d * d)
    h - t / (2.0 * h)

/- The hypotenuse over any two legs. -/
def hypot (x y : Float) : Float :=
  let x := x.abs
  let y := y.abs
  if x == 1.0 / 0.0 || y == 1.0 / 0.0 then
    1.0 / 0.0
  else if x.isNaN || y.isNaN then
    x + y
  else
    let long := if x < y then y else x
    let short := if x < y then x else y
    let negligible := long * 5.551115123125783e-17
    if short ≤ negligible then
      long + short
    else if 6.7039039649712985e153 < long then
      let s : Float := Float.scaleB 1.0 (-600)
      hypotOfOrdered (long * s) (short * s) / s
    else if short < 1.679578894628806e-138 then
      let s : Float := Float.scaleB 1.0 600
      hypotOfOrdered (long * s) (short * s) / s
    else
      hypotOfOrdered long short

/- The arithmetic, with any solver for eigenvalues. -/
@[reducible] def arithmetic
    (solver : (n : Nat) → (Nat → Nat → Float × Float) →
      Option ((Nat → Float) × (Nat → Nat → Float × Float))) :
    Arithmetic Float where
  less x y := x < y
  ofNat := Float.ofNat
  sqrt := Float.sqrt
  exp := Float.exp
  log := Float.log
  logOnePlus := logOnePlus
  sin := Float.sin
  cos := Float.cos
  sinh := Float.sinh
  cosh := Float.cosh
  angle := Float.atan2
  hypot := hypot
  eigensystem? := solver
  fixedText := fixedText
  generalText := generalText 6

/- Eigenvalues are found by rotations, which need no solver themselves. -/
instance : Arithmetic Float :=
  arithmetic (@Rotated.eigensystem? Float (arithmetic fun _ _ => none))

end Double

end QuantumLab
