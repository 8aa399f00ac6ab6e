import QuantumLab.Double
import QuantumLab.Json.Basic

/-
  This file reads members and numbers of documents.  A
  document can be malformed, which is when a member is
  missing or of the wrong kind, or it can be rejected with a
  reason.

  Key definitions include:
    * `DocumentFault`
    * `Decode`
    * `Json.field`
    * `Json.asString`, `Json.asNat`, `Json.asIndex`,
      `Json.asReal`, `Json.asBool`
    * `Json.asList`, `Json.asTable`
    * `Json.fieldOr`
-/

namespace QuantumLab

/-
  Why a document cannot be read or written.
-/
inductive DocumentFault where
  | malformed
  | rejected (reason : String)
deriving DecidableEq, Repr

/- What is known about a fault, without details of a malformed document. -/
def DocumentFault.reason : DocumentFault → String
  | malformed => "<json library>"
  | rejected reason => reason

/- The result of reading a part of a document. -/
abbrev Decode (α : Type) :=
  Except DocumentFault α

/- Refuses a document as malformed. -/
def malformed {α : Type} : Decode α :=
  .error .malformed

/- Refuses a document for a reason. -/
def reject {α : Type} (reason : String) : Decode α :=
  .error (.rejected reason)

/- A word of a fixed list, or a refusal. -/
def known {α : Type} (reason : String) : Option α → Decode α
  | some x => .ok x
  | none => reject reason

namespace Json

variable {α : Type}

------------------------------------------------------------
-- Members
------------------------------------------------------------

/- A member that has to be there. -/
def field (name : String) (j : Json) : Decode Json :=
  match j.member? name with
  | some x => .ok x
  | none => malformed

/- Whether a member is there. -/
def hasField (name : String) (j : Json) : Bool :=
  (j.member? name).isSome

/- A member of an object, or a default if it is not there. -/
def fieldOr
    (name : String)
    (decode : Json → Decode α)
    (default : α) : Json → Decode α
  | obj members =>
      match Rows.find? name members with
      | some x => decode x
      | none => .ok default
  | _ => malformed

/- A member that is there, or none. -/
def optional
    (name : String)
    (decode : Json → Decode α)
    (j : Json) : Decode (Option α) :=
  match j.member? name with
  | some x => some <$> decode x
  | none => .ok none

/- A member that is there and not null, or none. -/
def nullable
    (name : String)
    (decode : Json → Decode α)
    (j : Json) : Decode (Option α) :=
  match j.member? name with
  | some null => .ok none
  | some x => some <$> decode x
  | none => .ok none

------------------------------------------------------------
-- Numbers
------------------------------------------------------------

/- The natural number of 64 bits that an integer stands for. -/
def wordOfInt (n : Int) : Nat :=
  (n % UInt64.size).toNat

/-
  The natural number of 64 bits that the whole part of a
  number stands for.
-/
def wordOfWhole (n : Int) : Nat :=
  if n < -Int.pow 2 63 then Nat.pow 2 63
  else if n < UInt64.size then wordOfInt n
  else 0

/- The signed number of 64 bits that an integer stands for. -/
def indexOfInt (n : Int) : Int :=
  Int.bmod n UInt64.size

/-
  The signed number of 64 bits that the whole part of a
  number stands for.
-/
def indexOfWhole (n : Int) : Int :=
  if n < -Int.pow 2 63 ∨ Int.pow 2 63 ≤ n then -Int.pow 2 63 else n

/- A natural number; negative numbers count from the top of 64 bits. -/
def asNat : Json → Decode Nat
  | int n => .ok (if 0 ≤ n then n.toNat else wordOfInt n)
  | real x => .ok (wordOfWhole (Double.toInt x))
  | _ => malformed

/- An extent, as a signed number of 64 bits. -/
def asIndex : Json → Decode Int
  | int n => .ok (indexOfInt n)
  | real x => .ok (indexOfWhole (Double.toInt x))
  | _ => malformed

/- A real number. -/
def asReal : Json → Decode Float
  | int n => .ok (Float.ofInt n)
  | real x => .ok x
  | _ => malformed

/- A truth value. -/
def asBool : Json → Decode Bool
  | bool b => .ok b
  | _ => malformed

/- A string. -/
def asString : Json → Decode String
  | str s => .ok s
  | _ => malformed

------------------------------------------------------------
-- Lists and tables
------------------------------------------------------------

/- The elements of an array. -/
def asList (decode : Json → Decode α) : Json → Decode (List α)
  | arr xs => xs.mapM decode
  | _ => malformed

/- The members of an object. -/
def asTable (decode : Json → Decode α) : Json → Decode (Table α)
  | obj members => do
      let rows ← members.mapM fun row => do
        let x ← decode row.2
        return (row.1, x)
      return Table.ofList rows
  | _ => malformed

/- A list as an array. -/
def ofList (encode : α → Json) (xs : List α) : Json :=
  arr (xs.map encode)

/- A table as an object. -/
def ofTable (encode : α → Json) (t : Table α) : Json :=
  obj (t.rows.map fun row => (row.1, encode row.2))

/- A value that may be missing, as null if it is. -/
def ofOption (encode : α → Json) : Option α → Json
  | some x => encode x
  | none => null

end Json

end QuantumLab
