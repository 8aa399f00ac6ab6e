import QuantumLab.Dense.Lemmas
import QuantumLab.Document.Value
import QuantumLab.Proofs.Json.Text
import QuantumLab.Proofs.Outcome

/-
  This file proves that lists, tables, scalars, vectors,
  matrices and shapes are read back from the documents that
  are written for them.  The extents of vectors and matrices
  are signed machine words, which is what the engine can
  address.

  Key definitions include:
    * `Vec.Addressable`, `Mat.Addressable`
    * `Scalar.reals`, `Vec.reals`, `Mat.reals`

  Main statements:
    * `Json.asList_ofList` and `Json.asTable_ofTable` lift
      the law from values to lists and tables.
    * `Scalar.ofJson_toJson`, `Vec.ofJson_toJson`,
      `Mat.ofJson_toJson` and `Shape.ofJson_toJson` say that
      a value is read back from its document.
    * `Vec.legible_toJson` and `Mat.legible_toJson` say when
      its text can be read back.
-/

namespace QuantumLab

------------------------------------------------------------
-- Members, lists and tables
------------------------------------------------------------

namespace Json

variable {α : Type}

/- Of the members with one name an object has the last. -/
@[simp] theorem field_ofMembers
    (name : String)
    (members : List (String × Json)) :
    (ofMembers members).field name =
      (Rows.find? name members.reverse).elim malformed .ok := by
  rw [← member?_ofMembers]
  cases hMember : (ofMembers members).member? name <;>
    simp [field, hMember]

theorem fieldOr_ofMembers
    (name : String)
    (decode : Json → Decode α)
    (default : α)
    (members : List (String × Json)) :
    (ofMembers members).fieldOr name decode default =
      match Rows.find? name members.reverse with
      | some x => decode x
      | none => .ok default := by
  rw [← member?_ofMembers]
  rfl

@[simp] theorem asNat_nat
    (n : Nat) :
    (nat n).asNat = .ok n := by
  simp [nat, asNat]

@[simp] theorem asReal_real
    (x : Float) :
    (real x).asReal = .ok x :=
  rfl

@[simp] theorem asBool_bool
    (b : Bool) :
    (bool b).asBool = .ok b :=
  rfl

@[simp] theorem asString_str
    (s : String) :
    (str s).asString = .ok s :=
  rfl

/- An integer that fits a signed word stands for itself. -/
theorem indexOfInt_eq
    {k : Int}
    (hLow : -Int.pow 2 63 ≤ k)
    (hHigh : k < Int.pow 2 63) :
    indexOfInt k = k := by
  have hPower : Int.pow 2 63 = 9223372036854775808 := rfl
  rw [indexOfInt, Int.bmod_def, UInt64.size]
  omega

/- An extent that is a signed word is read back. -/
theorem asIndex_nat
    {n : Nat}
    (hWord : n < Nat.pow 2 63) :
    (nat n).asIndex = .ok (Int.ofNat n) := by
  have hPower : Int.pow 2 63 = Nat.pow 2 63 := rfl
  have hIndex : indexOfInt (n : Int) = n :=
    indexOfInt_eq (by omega) (by omega)
  rw [nat, asIndex, hIndex]
  rfl

/- Extents that are signed words are read back. -/
theorem asList_asIndex
    {extents : List Nat}
    (hWords : ∀ n ∈ extents, n < Nat.pow 2 63) :
    (ofList nat extents).asList asIndex = .ok (extents.map Int.ofNat) := by
  rw [ofList, asList]
  induction extents with
  | nil => rfl
  | cons n extents ih =>
      rw [List.map_cons, List.mapM_cons,
        asIndex_nat (hWords n List.mem_cons_self), ok_bind,
        ih fun m hm => hWords m (List.mem_cons_of_mem n hm)]
      rfl

section Lists

variable
  {encode : α → Json}
  {decode : Json → Decode α}
  {xs : List α}

/- Elements that are read back are read back one by one. -/
theorem mapM_map_encode
    (hRead : ∀ x ∈ xs, decode (encode x) = .ok x) :
    (xs.map encode).mapM decode = .ok xs := by
  induction xs with
  | nil => rfl
  | cons x xs ih =>
      rw [List.map_cons, List.mapM_cons, hRead x List.mem_cons_self,
        ok_bind, ih fun y hy => hRead y (List.mem_cons_of_mem x hy)]
      rfl

theorem asList_ofList
    (hRead : ∀ x ∈ xs, decode (encode x) = .ok x) :
    (ofList encode xs).asList decode = .ok xs :=
  mapM_map_encode hRead

theorem mapM_elements_ofList
    (hRead : ∀ x ∈ xs, decode (encode x) = .ok x) :
    (ofList encode xs).elements.mapM decode = .ok xs :=
  mapM_map_encode hRead

/- Rows whose values are read back are read back with their names. -/
theorem mapM_rows
    {rows : List (String × α)}
    (hRead : ∀ row ∈ rows, decode (encode row.2) = .ok row.2) :
    (rows.map fun row => (row.1, encode row.2)).mapM
        (fun row => do
          let x ← decode row.2
          return (row.1, x)) =
      (.ok rows : Decode (List (String × α))) := by
  induction rows with
  | nil => rfl
  | cons row rows ih =>
      rw [List.map_cons, List.mapM_cons, hRead row List.mem_cons_self,
        ih fun later hLater =>
          hRead later (List.mem_cons_of_mem row hLater)]
      rfl

theorem asTable_ofTable
    {t : Table α}
    (hRead : ∀ row ∈ t.rows, decode (encode row.2) = .ok row.2) :
    (ofTable encode t).asTable decode = .ok t := by
  simp only [ofTable, asTable, mapM_rows hRead, ok_bind,
    Table.ofList_rows]
  rfl

/- The members of an object are visited with their names. -/
theorem mapM_namedElements_ofTable
    {t : Table α}
    (hRead : ∀ row ∈ t.rows, decode (encode row.2) = .ok row.2) :
    (ofTable encode t).namedElements.mapM
        (fun row => do
          let x ← decode row.2
          return (row.1, x)) =
      (.ok t.rows : Decode (List (String × α))) :=
  mapM_rows hRead

/- A value that may be missing is read back from its member. -/
theorem nullable_ofOption
    {name : String}
    {j : Json}
    {x : Option α}
    (hMember : j.member? name = some (ofOption encode x))
    (hPresent : ∀ y ∈ x, encode y ≠ null)
    (hRead : ∀ y ∈ x, decode (encode y) = .ok y) :
    j.nullable name decode = .ok x := by
  rw [nullable, hMember]
  cases x with
  | none => rfl
  | some y =>
      have hHere := hPresent y rfl
      rw [ofOption]
      split
      · next heq => exact absurd (Option.some.inj heq) hHere
      · next heq =>
          rw [← Option.some.inj heq, hRead y rfl]
          rfl
      · next heq => cases heq

theorem Legible.ofOption
    {number : Float → String}
    {x : Option α}
    (hLegible : ∀ y ∈ x, Legible number (encode y)) :
    Legible number (ofOption encode x) := by
  cases x with
  | none => exact .null
  | some y => exact hLegible y rfl

theorem Legible.ofList
    {number : Float → String}
    (hLegible : ∀ x ∈ xs, Legible number (encode x)) :
    Legible number (ofList encode xs) := by
  refine .arr fun j hj => ?_
  rcases List.mem_map.1 hj with ⟨x, hx, rfl⟩
  exact hLegible x hx

end Lists

/- The text of a word of 64 bits is read back. -/
theorem Legible.nat
    {number : Float → String}
    {n : Nat}
    (hWord : n < UInt64.size) :
    Legible number (nat n) := by
  refine .int ?_
  have hLow : -Int.pow 2 63 ≤ (n : Int) := by
    have : (0 : Int) ≤ Int.pow 2 63 := by decide
    omega
  have hHigh : (n : Int) < UInt64.size := Int.ofNat_lt.2 hWord
  rw [Text.fitsWord, decide_eq_true hLow, decide_eq_true hHigh]
  rfl

end Json

------------------------------------------------------------
-- Scalars
------------------------------------------------------------

namespace Scalar

/- The real numbers of a scalar. -/
def reals (z : Scalar Float) : List Float :=
  [z.re, z.im]

@[simp] theorem ofJson_toJson
    (z : Scalar Float) :
    ofJson z.toJson = .ok z :=
  rfl

theorem legible_toJson
    {number : Float → String}
    {z : Scalar Float}
    (hReads : ∀ x ∈ z.reals, Json.Text.ReadsBack number x) :
    Json.Legible number z.toJson := by
  refine .arr fun j hj => ?_
  rcases List.mem_map.1
    (show j ∈ z.reals.map Json.real from hj) with ⟨x, hx, rfl⟩
  exact .real (hReads x hx)

end Scalar

------------------------------------------------------------
-- Vectors and matrices
------------------------------------------------------------

/- As many entries as are written are read back. -/
theorem readEntries_ofList
    (entries : Array (Scalar Float)) :
    readEntries entries.size
        (Json.ofList Scalar.toJson entries.toList) =
      .ok entries.toList := by
  have hAll :
      (entries.toList.map Scalar.toJson).take entries.size =
        entries.toList.map Scalar.toJson :=
    List.take_of_length_le (by simp)
  simp only [readEntries, Json.ofList, hAll,
    Json.mapM_map_encode fun z _ => Scalar.ofJson_toJson z, ok_bind,
    Array.length_toList, if_true]
  rfl

theorem count_ofList
    (entries : Array (Scalar Float)) :
    (Json.ofList Scalar.toJson entries.toList).count = entries.size := by
  simp [Json.count, Json.ofList, Json.elements]

theorem field_shape_entriesToJson
    (extents : List Nat)
    (entries : Array (Scalar Float)) :
    (entriesToJson extents entries).field "shape" =
      .ok (Json.ofList Json.nat extents) := by
  rw [entriesToJson, Json.field_ofMembers]
  rfl

theorem field_data_entriesToJson
    (extents : List Nat)
    (entries : Array (Scalar Float)) :
    (entriesToJson extents entries).field "data" =
      .ok (Json.ofList Scalar.toJson entries.toList) := by
  rw [entriesToJson, Json.field_ofMembers]
  rfl

/- The text of an array with its extents can be read back. -/
theorem legible_entriesToJson
    {number : Float → String}
    {extents : List Nat}
    {entries : Array (Scalar Float)}
    (hWords : ∀ n ∈ extents, n < Nat.pow 2 63)
    (hReads : ∀ x ∈ entries.toList.flatMap Scalar.reals,
      Json.Text.ReadsBack number x) :
    Json.Legible number (entriesToJson extents entries) := by
  have hExtents : Json.Legible number (Json.ofList Json.nat extents) :=
    .ofList fun n hn => .nat (Nat.lt_trans (hWords n hn) (by decide))
  have hData :
      Json.Legible number (Json.ofList Scalar.toJson entries.toList) :=
    .ofList fun z hz => Scalar.legible_toJson fun x hx =>
      hReads x (List.mem_flatMap.2 ⟨z, hz, hx⟩)
  exact .ofMembers (.cons hExtents (.cons hData .nil))

namespace Vec

/- A length that a signed machine word can hold. -/
def Addressable (v : Vec Float) : Prop :=
  v.size < Nat.pow 2 63

/- The real numbers of a vector. -/
def reals (v : Vec Float) : List Float :=
  v.entries.toList.flatMap Scalar.reals

/- What is read from the fields of a vector. -/
theorem ofJson_of_fields
    {j shape data : Json}
    {n : Nat}
    {entries : List (Scalar Float)}
    (hShape : j.field "shape" = .ok shape)
    (hData : j.field "data" = .ok data)
    (hExtents : shape.asList Json.asIndex = .ok [Int.ofNat n])
    (hCount : data.count = n)
    (hEntries : readEntries n data = .ok entries) :
    ofJson j = .ok ⟨entries.toArray⟩ := by
  rw [ofJson, hShape, ok_bind, hExtents, ok_bind, hData, ok_bind]
  simp only [hCount, hEntries, if_true, ok_bind]
  rfl

theorem ofJson_toJson
    {v : Vec Float}
    (hAddressable : v.Addressable) :
    ofJson v.toJson = .ok v :=
  ofJson_of_fields (field_shape_entriesToJson _ _)
    (field_data_entriesToJson _ _)
    (Json.asList_asIndex fun _ hn => List.mem_singleton.1 hn ▸ hAddressable)
    (count_ofList v.entries) (readEntries_ofList v.entries)

theorem legible_toJson
    {number : Float → String}
    {v : Vec Float}
    (hAddressable : v.Addressable)
    (hReads : ∀ x ∈ v.reals, Json.Text.ReadsBack number x) :
    Json.Legible number v.toJson :=
  legible_entriesToJson
    (fun _ hn => List.mem_singleton.1 hn ▸ hAddressable) hReads

end Vec

namespace Mat

/-
  Extents that signed machine words can hold, and so many
  entries.
-/
structure Addressable (a : Mat Float) : Prop where
  rows : a.rows < Nat.pow 2 63
  cols : a.cols < Nat.pow 2 63
  entries : a.rows * a.cols < Nat.pow 2 63

/- The real numbers of a matrix. -/
def reals (a : Mat Float) : List Float :=
  a.entries.toList.flatMap Scalar.reals

/- What is read from the fields of a matrix. -/
theorem ofJson_of_fields
    {j shape data : Json}
    {r c : Nat}
    {entries : List (Scalar Float)}
    (hShape : j.field "shape" = .ok shape)
    (hData : j.field "data" = .ok data)
    (hExtents : shape.asList Json.asIndex = .ok [Int.ofNat r, Int.ofNat c])
    (hCount : data.count = Shape.wrap (r * c))
    (hEntries : readEntries (r * c) data = .ok entries) :
    ofJson j = .ok (ofEntries r c entries.toArray) := by
  rw [ofJson, hShape, ok_bind, hExtents, ok_bind, hData, ok_bind]
  simp only [hCount, hEntries, if_true, ok_bind]
  rfl

variable {a : Mat Float}

theorem Addressable.extents
    (hAddressable : a.Addressable) :
    ∀ n ∈ [a.rows, a.cols], n < Nat.pow 2 63 := by
  intro n hn
  rcases List.mem_cons.1 hn with rfl | hn
  · exact hAddressable.rows
  · exact List.mem_singleton.1 hn ▸ hAddressable.cols

theorem ofJson_toJson
    (hAddressable : a.Addressable) :
    ofJson a.toJson = .ok a := by
  have hWrap : Shape.wrap (a.rows * a.cols) = a.rows * a.cols :=
    Nat.mod_eq_of_lt (Nat.lt_trans hAddressable.entries (by decide))
  have hEntries := readEntries_ofList a.entries
  rw [a.size_eq] at hEntries
  rw [toJson, ofJson_of_fields (field_shape_entriesToJson _ _)
    (field_data_entriesToJson _ _)
    (Json.asList_asIndex hAddressable.extents)
    ((count_ofList a.entries).trans (a.size_eq.trans hWrap.symm)) hEntries]
  exact congrArg Except.ok (ofEntries_entries a)

theorem legible_toJson
    {number : Float → String}
    (hAddressable : a.Addressable)
    (hReads : ∀ x ∈ a.reals, Json.Text.ReadsBack number x) :
    Json.Legible number a.toJson :=
  legible_entriesToJson hAddressable.extents hReads

end Mat

------------------------------------------------------------
-- Shapes
------------------------------------------------------------

theorem Shape.ofJson_toJson
    (shape : Shape) :
    ofJson shape.toJson = .ok shape := by
  cases shape <;> simp [ofJson, toJson, Rows.find?]

end QuantumLab
