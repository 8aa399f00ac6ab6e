/-
  This file writes fractions of natural numbers in decimal
  digits.  Rounding is exact: a fraction is compared with
  the decimal grid by natural number arithmetic, and a tie
  goes to the even digit.

  Key definitions include:
    * `Decimal.roundDiv`
    * `Decimal.magnitude`
    * `Decimal.Digits`
    * `Decimal.significant`
    * `Decimal.shortest`
    * `Decimal.fixed`
    * `Decimal.general`
    * `Decimal.plain`
-/

namespace QuantumLab

namespace Decimal

------------------------------------------------------------
-- Rounding
------------------------------------------------------------

/- The natural number nearest to a fraction; a tie goes to the even one. -/
def roundDiv (num den : Nat) : Nat :=
  let q := num / den
  let twice := 2 * (num % den)
  if twice < den then q
  else if den < twice then q + 1
  else q + q % 2

/- A positive fraction. -/
structure Fraction where
  num : Nat
  den : Nat
deriving DecidableEq, Repr

/- The fraction times ten to the power `k`. -/
def Fraction.shift (x : Fraction) (k : Int) : Fraction :=
  ⟨x.num * Nat.pow 10 k.toNat, x.den * Nat.pow 10 (-k).toNat⟩

/- The comparison of two fractions. -/
def Fraction.atMost (x y : Fraction) : Bool :=
  x.num * y.den ≤ y.num * x.den

/- The number of decimal digits. -/
def length (n : Nat) : Nat :=
  (Nat.toDigits 10 n).length

/- The exponent `e` with `10 ^ e ≤ x < 10 ^ (e + 1)`. -/
def magnitude (x : Fraction) : Int :=
  let guess : Int := (length x.num : Int) - (length x.den : Int)
  let scaled := x.shift (-guess)
  if scaled.den ≤ scaled.num then guess else guess - 1

/-
  A decimal number `mantissa * 10 ^ exponent`.
-/
structure Digits where
  mantissa : Nat
  exponent : Int
deriving DecidableEq, Repr

/- The value of a decimal number. -/
def Digits.fraction (d : Digits) : Fraction :=
  Fraction.shift ⟨d.mantissa, 1⟩ d.exponent

/- A decimal number without trailing zeros; `fuel` bounds their number. -/
def Digits.trim : (fuel : Nat) → Digits → Digits
  | 0, d => d
  | fuel + 1, d =>
      if d.mantissa % 10 = 0 ∧ d.mantissa ≠ 0 then
        Digits.trim fuel ⟨d.mantissa / 10, d.exponent + 1⟩
      else
        d

/- The decimal number of `n` significant digits nearest to a fraction. -/
def significant (n : Nat) (x : Fraction) : Digits :=
  let e := magnitude x - ((n : Int) - 1)
  let scaled := x.shift (-e)
  let m := roundDiv scaled.num scaled.den
  if m = Nat.pow 10 n then ⟨Nat.pow 10 (n - 1), e + 1⟩ else ⟨m, e⟩

------------------------------------------------------------
-- Shortest digits
------------------------------------------------------------

/-
  The numbers that are rounded to one value: all between two
  ends, the ends themselves only if `closed` holds.
-/
structure Interval where
  low : Fraction
  high : Fraction
  closed : Bool
deriving DecidableEq, Repr

/- Whether a fraction lies in the interval. -/
def Interval.contains (range : Interval) (x : Fraction) : Bool :=
  if range.closed then
    range.low.atMost x && x.atMost range.high
  else
    !x.atMost range.low && !range.high.atMost x

/-
  The fewest significant digits, at most `limit`, to which
  `x` can be rounded within the interval.
-/
def shortest
    (range : Interval)
    (x : Fraction)
    (limit : Nat) : Digits :=
  let hit := (List.range limit).findSome? fun n =>
    let d := significant (n + 1) x
    if range.contains d.fraction then some d else none
  (hit.getD (significant limit x)).trim limit

------------------------------------------------------------
-- Texts
------------------------------------------------------------

/- A natural number with zeros in front up to a width. -/
def padded (width n : Nat) : String :=
  let digits := Nat.toDigits 10 n
  String.ofList (List.replicate (width - digits.length) '0' ++ digits)

/-
  A natural number of `10 ^ -places` parts with a point
  before the last `places` digits.
-/
def pointed (places n : Nat) : String :=
  if places = 0 then
    Nat.repr n
  else
    Nat.repr (n / Nat.pow 10 places) ++ "."
      ++ padded places (n % Nat.pow 10 places)

/- The text with a fixed number of digits after the point. -/
def fixed (places : Nat) (x : Fraction) : String :=
  pointed places (roundDiv (x.num * Nat.pow 10 places) x.den)

/- An exponent with its sign and at least `width` digits. -/
def exponentText (width : Nat) (e : Int) : String :=
  (if e < 0 then "-" else "+") ++ padded width e.natAbs

/- The text of a decimal number without an exponent. -/
def positional (d : Digits) : String :=
  if 0 ≤ d.exponent then
    Nat.repr (d.mantissa * Nat.pow 10 d.exponent.toNat)
  else
    pointed (-d.exponent).toNat d.mantissa

/- The text of a decimal number with one digit before the point. -/
def scientific (width : Nat) (d : Digits) : String :=
  let places := length d.mantissa - 1
  pointed places d.mantissa ++ "e"
    ++ exponentText width (d.exponent + places)

/-
  The text of at most `n` significant digits: positional for
  magnitudes from `10 ^ -4` below `10 ^ n`, with an exponent
  of at least two digits otherwise.
-/
def general (n : Nat) (x : Fraction) : String :=
  if x.num = 0 then
    "0"
  else
    let d := significant n x
    let e := d.exponent + (n - 1 : Nat)
    let short := d.trim n
    if -4 ≤ e ∧ e < n then positional short else scientific 2 short

/-
  The text of a decimal number in a document: positional for
  magnitudes from `10 ^ -5` below `10 ^ 16`, always with a
  point or an exponent.
-/
def plain (d : Digits) : String :=
  let e := d.exponent + (length d.mantissa - 1 : Nat)
  if -5 ≤ e ∧ e < 16 then
    if 0 ≤ d.exponent then positional d ++ ".0" else positional d
  else
    scientific 2 d

end Decimal

end QuantumLab
