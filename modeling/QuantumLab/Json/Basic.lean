import QuantumLab.Table

/-
  This file defines JSON values.  A number is an integer or
  a double precision number; the members of an object stand
  in ascending order of their names.

  Key definitions include:
    * `Json`
    * `Json.member?`
    * `Json.elements`
    * `Json.count`
-/

namespace QuantumLab

/-
  A JSON value.
-/
inductive Json where
  | null
  | bool (b : Bool)
  | int (n : Int)
  | real (x : Float)
  | str (s : String)
  | arr (elements : List Json)
  | obj (members : List (String × Json))
deriving Inhabited

namespace Json

/- A natural number as a value. -/
def nat (n : Nat) : Json :=
  int n

/- The member of an object. -/
def member? (name : String) : Json → Option Json
  | obj members => Rows.find? name members
  | _ => none

/-
  What is visited when a value is iterated: the elements of
  an array, the members of an object in order, nothing for
  null, and any other value itself.
-/
def elements : Json → List Json
  | null => []
  | arr xs => xs
  | obj members => members.map Prod.snd
  | value => [value]

/-
  What is visited when a value is iterated together with
  names.  Elements of an array are named by their position,
  and a value that is neither array nor object has the empty
  name.
-/
def namedElements : Json → List (String × Json)
  | null => []
  | arr xs => xs.zipIdx.map fun (x, k) => (Nat.repr k, x)
  | obj members => members
  | value => [("", value)]

/- The number of values that are visited. -/
def count (value : Json) : Nat :=
  value.elements.length

/- An object with the given members. -/
def ofMembers (members : List (String × Json)) : Json :=
  obj (Table.ofList members).rows

/- Of the members with one name an object has the last. -/
theorem member?_ofMembers
    (members : List (String × Json))
    (name : String) :
    (ofMembers members).member? name =
      Rows.find? name members.reverse :=
  Table.find?_ofList members name

end Json

end QuantumLab
