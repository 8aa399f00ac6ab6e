import QuantumLab.Document.Decode
import QuantumLab.Value

/-
  This file writes and reads scalars, vectors, matrices and
  shapes as documents.

  Key definitions include:
    * `Scalar.toJson`, `Scalar.ofJson`
    * `Vec.toJson`, `Vec.ofJson`
    * `Mat.toJson`, `Mat.ofJson`
    * `Shape.toJson`, `Shape.ofJson`
-/

namespace QuantumLab

------------------------------------------------------------
-- Scalars
------------------------------------------------------------

/- A scalar as the pair of its parts. -/
def Scalar.toJson (z : Scalar Float) : Json :=
  .arr [.real z.re, .real z.im]

/- The scalar of a pair. -/
def Scalar.ofJson : Json → Decode (Scalar Float)
  | .arr [re, im] => do
      let x ← re.asReal
      let y ← im.asReal
      return ⟨x, y⟩
  | _ => reject "complexFromJson: expected [re, im]"

------------------------------------------------------------
-- Vectors and matrices
------------------------------------------------------------

/- An array of entries with the extents. -/
def entriesToJson
    (extents : List Nat)
    (entries : Array (Scalar Float)) : Json :=
  .ofMembers
    [("shape", Json.ofList Json.nat extents),
      ("data", Json.ofList Scalar.toJson entries.toList)]

/- A vector as its length and its entries. -/
def Vec.toJson (v : Vec Float) : Json :=
  entriesToJson [v.size] v.entries

/- A matrix as its extents and its entries, row after row. -/
def Mat.toJson (a : Mat Float) : Json :=
  entriesToJson [a.rows, a.cols] a.entries

/-
  The scalars of an array that has to have `count` elements.
  The elements are read in order before their number counts.
-/
def readEntries (count : Nat) : Json → Decode (List (Scalar Float))
  | .arr xs => do
      let entries ← (xs.take count).mapM Scalar.ofJson
      if entries.length = count then return entries else malformed
  | _ => if count = 0 then .ok [] else malformed

/- The vector of a document. -/
def Vec.ofJson (j : Json) : Decode (Vec Float) := do
  let shape ← (← j.field "shape").asList Json.asIndex
  let data ← j.field "data"
  match shape with
  | [.ofNat n] =>
      if data.count = n then
        let entries ← readEntries n data
        return ⟨entries.toArray⟩
      else
        reject "vectorFromJson: shape does not match the number of entries"
  | _ => reject "vectorFromJson: shape does not match the number of entries"

/-
  The matrix of a document.  The number of entries is first
  compared with the product of the extents in 64 bits.
-/
def Mat.ofJson (j : Json) : Decode (Mat Float) := do
  let shape ← (← j.field "shape").asList Json.asIndex
  let data ← j.field "data"
  match shape with
  | [.ofNat r, .ofNat c] =>
      if data.count = Shape.wrap (r * c) then
        let entries ← readEntries (r * c) data
        return Mat.ofEntries r c entries.toArray
      else
        reject "matrixFromJson: shape does not match the number of entries"
  | _ => reject "matrixFromJson: shape does not match the number of entries"

------------------------------------------------------------
-- Shapes
------------------------------------------------------------

/- A shape as its kind and its extents. -/
def Shape.toJson : Shape → Json
  | scalar => .ofMembers [("kind", .str "scalar")]
  | vector n => .ofMembers [("kind", .str "vector"), ("rows", .nat n)]
  | matrix r c =>
      .ofMembers
        [("kind", .str "matrix"), ("rows", .nat r), ("cols", .nat c)]

/- The shape of a document. -/
def Shape.ofJson (j : Json) : Decode Shape := do
  let kind ← (← j.field "kind").asString
  match kind with
  | "scalar" => return scalar
  | "vector" => do
      let n ← (← j.field "rows").asNat
      return vector n
  | "matrix" => do
      let r ← (← j.field "rows").asNat
      let c ← (← j.field "cols").asNat
      return matrix r c
  | _ => reject ("from_json: unknown shape kind " ++ kind)

end QuantumLab
