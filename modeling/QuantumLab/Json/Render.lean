import QuantumLab.Double
import QuantumLab.Json.Basic

/-
  This file writes JSON values as texts without blanks.

  Key definitions include:
    * `Json.Text.quoted`
    * `Json.renderWith`, `Json.render`
-/

namespace QuantumLab

namespace Json

namespace Text

/- A digit of base sixteen. -/
def hexCharacter (n : Nat) : Char :=
  Nat.digitChar n

/- The character that stands after a backslash for a special one. -/
def shortEscape? (c : Char) : Option Char :=
  if c = '"' then some '"'
  else if c = '\\' then some '\\'
  else if c = Char.ofNat 8 then some 'b'
  else if c = Char.ofNat 12 then some 'f'
  else if c = '\n' then some 'n'
  else if c = '\r' then some 'r'
  else if c = '\t' then some 't'
  else none

/- A character inside of a quoted string. -/
def written (c : Char) : List Char :=
  match shortEscape? c with
  | some e => ['\\', e]
  | none =>
      if c.toNat < 32 then
        ['\\', 'u', '0', '0', hexCharacter (c.toNat / 16),
          hexCharacter (c.toNat % 16)]
      else
        [c]

/- A string in quotes. -/
def quoted (s : String) : String :=
  "\"" ++ String.ofList (s.toList.flatMap written) ++ "\""

/- Texts with commas between them. -/
def separated (texts : List String) : String :=
  String.intercalate "," texts

end Text

mutual

/- The text of a value, with a choice of texts for real numbers. -/
def renderWith (number : Float → String) : Json → String
  | null => "null"
  | bool b => if b then "true" else "false"
  | int n => toString n
  | real x => number x
  | str s => Text.quoted s
  | arr xs =>
      "[" ++ Text.separated (renderElements number xs) ++ "]"
  | obj members =>
      "\x7b" ++ Text.separated (renderMembers number members) ++ "\x7d"

/- The texts of the elements of an array. -/
def renderElements (number : Float → String) : List Json → List String
  | [] => []
  | x :: rest => renderWith number x :: renderElements number rest

/- The texts of the members of an object. -/
def renderMembers
    (number : Float → String) : List (String × Json) → List String
  | [] => []
  | (name, x) :: rest =>
      (Text.quoted name ++ ":" ++ renderWith number x)
        :: renderMembers number rest

end

/- The text of a real number, in quotes if it is not finite. -/
def Text.realNumber (x : Float) : String :=
  if (Double.parts? x).isSome then Double.shortestText x
  else Text.quoted (Double.specialText x)

/- The text of a value with the shortest texts of real numbers. -/
def render (value : Json) : String :=
  value.renderWith Text.realNumber

end Json

end QuantumLab
