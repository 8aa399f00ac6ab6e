import QuantumLab.Double
import QuantumLab.Json.Basic

/-
  This file reads JSON texts.  The grammar is that of the
  standard without extensions: no comments, no trailing
  commas, no leading zeros, no lone surrogates, and no
  number beyond the double precision range.

  Key definitions include:
    * `Json.Text.string?`
    * `Json.Text.number?`
    * `Json.Text.value?`
    * `Json.parse?`
-/

namespace QuantumLab

namespace Json

namespace Text

------------------------------------------------------------
-- Blanks and words
------------------------------------------------------------

/- Whether a character may stand between tokens. -/
def isBlank (c : Char) : Bool :=
  c == ' ' || c == '\t' || c == '\n' || c == '\r'

/- The text from its first token on. -/
def skip (text : List Char) : List Char :=
  text.dropWhile isBlank

/- The text after a word that it starts with. -/
def after? (word : List Char) (text : List Char) : Option (List Char) :=
  if word.isPrefixOf text then some (text.drop word.length) else none

------------------------------------------------------------
-- Strings
------------------------------------------------------------

/- The value of a hexadecimal digit. -/
def hexDigit? (c : Char) : Option Nat :=
  if '0' ≤ c ∧ c ≤ '9' then some (c.toNat - '0'.toNat)
  else if 'a' ≤ c ∧ c ≤ 'f' then some (c.toNat - 'a'.toNat + 10)
  else if 'A' ≤ c ∧ c ≤ 'F' then some (c.toNat - 'A'.toNat + 10)
  else none

/- The number of four hexadecimal digits, and the text after them. -/
def hexUnit? : List Char → Option (Nat × List Char)
  | a :: b :: c :: d :: rest => do
      let a ← hexDigit? a
      let b ← hexDigit? b
      let c ← hexDigit? c
      let d ← hexDigit? d
      return (((a * 16 + b) * 16 + c) * 16 + d, rest)
  | _ => none

/-
  The character of an escape by code unit, and the text
  after it.  A high surrogate needs a low one after it, and
  a low one stands nowhere else.
-/
def unicode? (text : List Char) : Option (Char × List Char) := do
  let (high, rest) ← hexUnit? text
  if 0xD800 ≤ high ∧ high < 0xDC00 then
    let rest ← after? ['\\', 'u'] rest
    let (low, rest) ← hexUnit? rest
    if 0xDC00 ≤ low ∧ low < 0xE000 then
      return (Char.ofNat
        (0x10000 + (high - 0xD800) * 0x400 + (low - 0xDC00)), rest)
    else
      none
  else if 0xDC00 ≤ high ∧ high < 0xE000 then
    none
  else
    return (Char.ofNat high, rest)

/- The character of an escape after its backslash, and the text after it. -/
def escape? : List Char → Option (Char × List Char)
  | '"' :: rest => some ('"', rest)
  | '\\' :: rest => some ('\\', rest)
  | '/' :: rest => some ('/', rest)
  | 'b' :: rest => some (Char.ofNat 8, rest)
  | 'f' :: rest => some (Char.ofNat 12, rest)
  | 'n' :: rest => some ('\n', rest)
  | 'r' :: rest => some ('\r', rest)
  | 't' :: rest => some ('\t', rest)
  | 'u' :: rest => unicode? rest
  | _ => none

/-
  The characters up to the closing quote, and the text after
  it; `fuel` bounds their number.
-/
def characters? :
    (fuel : Nat) → List Char → Option (List Char × List Char)
  | 0, _ => none
  | _, [] => none
  | _, '"' :: rest => some ([], rest)
  | fuel + 1, '\\' :: rest => do
      let (c, rest) ← escape? rest
      let (later, rest) ← characters? fuel rest
      return (c :: later, rest)
  | fuel + 1, c :: rest =>
      if c.toNat < 32 then
        none
      else do
        let (later, rest) ← characters? fuel rest
        return (c :: later, rest)

/- The string after an opening quote, and the text after it. -/
def string? (text : List Char) : Option (String × List Char) := do
  let (characters, rest) ← characters? (text.length + 1) text
  return (String.ofList characters, rest)

------------------------------------------------------------
-- Numbers
------------------------------------------------------------

/- The number that decimal digits stand for. -/
def digitsValue (digits : List Char) : Nat :=
  digits.foldl (fun n c => n * 10 + (c.toNat - '0'.toNat)) 0

/- Leading digits, and the text after them. -/
def digits (text : List Char) : List Char × List Char :=
  (text.takeWhile Char.isDigit, text.dropWhile Char.isDigit)

/- A whole part without needless zeros, and the text after it. -/
def whole? (text : List Char) : Option (List Char × List Char) :=
  match digits text with
  | ([], _) => none
  | ('0' :: _ :: _, _) => none
  | result => some result

/-
  The digits of a fractional part, if there is one, and the
  text after it.
-/
def fraction? (text : List Char) :
    Option (Option (List Char) × List Char) :=
  match text with
  | '.' :: rest =>
      match digits rest with
      | ([], _) => none
      | (ds, rest) => some (some ds, rest)
  | _ => some (none, text)

/- Digits that have to be there as an exponent, and the text after them. -/
def exponentDigits?
    (negative : Bool)
    (text : List Char) : Option (Option Int × List Char) :=
  match digits text with
  | ([], _) => none
  | (ds, rest) =>
      let e : Int := digitsValue ds
      some (some (if negative then -e else e), rest)

/- An exponent, if there is one, and the text after it. -/
def exponent? (text : List Char) : Option (Option Int × List Char) :=
  match text with
  | c :: rest =>
      if c = 'e' ∨ c = 'E' then
        match rest with
        | '-' :: rest => exponentDigits? true rest
        | '+' :: rest => exponentDigits? false rest
        | _ => exponentDigits? false rest
      else
        some (none, text)
  | [] => some (none, text)

/- A finite double precision number as a value. -/
def finite? (negative : Bool) (d : Decimal.Digits) : Option Json :=
  let x := Double.ofDecimal negative d
  if (Double.parts? x).isSome then some (real x) else none

/- The integers that fit a machine word, signed or unsigned. -/
def fitsWord (n : Int) : Bool :=
  -Int.pow 2 63 ≤ n && n < UInt64.size

/-
  The number at the start of a text, and the text after it.
  A number without fraction and exponent is an integer if it
  fits a machine word.
-/
def number? (text : List Char) : Option (Json × List Char) := do
  let negative := text.head? == some '-'
  let text := if negative then text.drop 1 else text
  let (whole, text) ← whole? text
  let (fraction, text) ← fraction? text
  let (exponent, text) ← exponent? text
  let n : Int :=
    if negative then -(digitsValue whole : Int) else digitsValue whole
  if fraction.isNone && exponent.isNone && fitsWord n then
    return (int n, text)
  else
    let places := fraction.getD []
    let value ← finite? negative
      ⟨digitsValue (whole ++ places), exponent.getD 0 - places.length⟩
    return (value, text)

------------------------------------------------------------
-- Values
------------------------------------------------------------

mutual

/-
  The value at the start of a text, and the text after it;
  `fuel` bounds the nesting and the number of values.
-/
def value? : (fuel : Nat) → List Char → Option (Json × List Char)
  | 0, _ => none
  | fuel + 1, text =>
      match text with
      | '"' :: rest => do
          let (s, rest) ← string? rest
          return (str s, rest)
      | '[' :: rest =>
          match skip rest with
          | ']' :: rest => some (arr [], rest)
          | rest => do
              let (xs, rest) ← elements? fuel rest
              return (arr xs, rest)
      | '{' :: rest =>
          match skip rest with
          | '}' :: rest => some (obj [], rest)
          | rest => do
              let (ms, rest) ← members? fuel rest
              return (ofMembers ms, rest)
      | 'n' :: _ => do
          let rest ← after? "null".toList text
          return (null, rest)
      | 't' :: _ => do
          let rest ← after? "true".toList text
          return (bool true, rest)
      | 'f' :: _ => do
          let rest ← after? "false".toList text
          return (bool false, rest)
      | _ => number? text

/- The elements up to the end of an array, and the text after it. -/
def elements? :
    (fuel : Nat) → List Char → Option (List Json × List Char)
  | 0, _ => none
  | fuel + 1, text => do
      let (x, rest) ← value? fuel text
      match skip rest with
      | ']' :: rest => return ([x], rest)
      | ',' :: rest =>
          let (later, rest) ← elements? fuel (skip rest)
          return (x :: later, rest)
      | _ => none

/- The members up to the end of an object, and the text after it. -/
def members? :
    (fuel : Nat) →
      List Char → Option (List (String × Json) × List Char)
  | 0, _ => none
  | fuel + 1, text => do
      let rest ← after? ['"'] text
      let (name, rest) ← string? rest
      let rest ← after? [':'] (skip rest)
      let (x, rest) ← value? fuel (skip rest)
      match skip rest with
      | '}' :: rest => return ([(name, x)], rest)
      | ',' :: rest =>
          let (later, rest) ← members? fuel (skip rest)
          return ((name, x) :: later, rest)
      | _ => none

end

end Text

/-
  The value that a whole text stands for.  Of members with
  one name the last counts.
-/
def parse? (text : String) : Option Json := do
  let characters := text.toList
  let (value, rest) ←
    Text.value? (2 * characters.length + 2) (Text.skip characters)
  if (Text.skip rest).isEmpty then some value else none

end Json

end QuantumLab
