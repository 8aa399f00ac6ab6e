import QuantumLab.Proofs.Document.Values

/-
  This file says from which documents vectors and matrices
  are read, and where their entries stand there.  The
  elements of a matrix stand row after row, and there are as
  many as the product of its extents, also where that product
  does not fit a machine word.

  Key definitions include:
    * `Json.IsReal`, `Json.IsExtent`
    * `Json.Stores`
    * `Json.HasArrays`
    * `Vec.InOrder`, `Mat.RowMajor`

  Main statements:
    * `Json.forall₂_isExtent_iff` says which integers are
      extents.
    * `Vec.ofJson_eq_ok_iff` and `Mat.ofJson_eq_ok_iff` say
      what is read from two arrays.
    * `arrays_row_major` says when something is read, and
      where the entries stand in what is read and written.
-/

namespace QuantumLab

------------------------------------------------------------
-- Numbers, extents and pairs
------------------------------------------------------------

namespace Json

variable {j : Json}

/- A number, with the real number that it stands for. -/
inductive IsReal : Json → Float → Prop
  | int (n : Int) : IsReal (int n) (Float.ofInt n)
  | real (x : Float) : IsReal (real x) x

theorem asReal_eq_ok_iff
    {x : Float} :
    j.asReal = .ok x ↔ j.IsReal x := by
  constructor
  · intro hRead
    cases j with
    | int n => exact Except.ok.inj hRead ▸ .int n
    | real y => exact Except.ok.inj hRead ▸ .real y
    | _ => cases hRead
  · rintro (_ | _) <;> rfl

/-
  A number that stands for an extent once it is cut to a
  signed machine word.
-/
def IsExtent (j : Json) (n : Nat) : Prop :=
  j.asIndex = .ok (Int.ofNat n)

/- An integer that fits a signed word is an extent if it is not negative. -/
theorem isExtent_int_iff
    {k : Int}
    {n : Nat}
    (hLow : -Int.pow 2 63 ≤ k)
    (hHigh : k < Int.pow 2 63) :
    (int k).IsExtent n ↔ k = n := by
  rw [IsExtent, asIndex, indexOfInt_eq hLow hHigh]
  exact ⟨Except.ok.inj, congrArg Except.ok⟩

/- The integers of a list that fit signed words are its extents. -/
theorem forall₂_isExtent_iff
    {ks : List Int}
    {extents : List Nat}
    (hFit : ∀ k ∈ ks, -Int.pow 2 63 ≤ k ∧ k < Int.pow 2 63) :
    List.Forall₂ IsExtent (ks.map int) extents ↔
      ks = extents.map Int.ofNat := by
  induction ks generalizing extents with
  | nil => cases extents <;> simp
  | cons k ks ih =>
      rcases List.forall_mem_cons.1 hFit with ⟨⟨hLow, hHigh⟩, hRest⟩
      cases extents with
      | nil => simp
      | cons n extents =>
          rw [List.map_cons, List.forall₂_cons, ih hRest,
            isExtent_int_iff hLow hHigh, List.map_cons, List.cons.injEq]
          rfl

/- A pair of numbers, with the scalar that it stores. -/
inductive Stores : Json → Scalar Float → Prop
  | pair
      {re im : Json}
      {x y : Float}
      (hReal : re.IsReal x)
      (hImaginary : im.IsReal y) :
      Stores (arr [re, im]) ⟨x, y⟩

end Json

theorem Scalar.ofJson_eq_ok_iff
    {j : Json}
    {z : Scalar Float} :
    ofJson j = .ok z ↔ j.Stores z := by
  constructor
  · intro hRead
    unfold ofJson at hRead
    split at hRead
    · next re im =>
        rcases bind_eq_ok_iff.1 hRead with ⟨x, hReal, hRest⟩
        rcases bind_eq_ok_iff.1 hRest with ⟨y, hImaginary, hPair⟩
        cases pure_eq_ok_iff.1 hPair
        exact .pair (Json.asReal_eq_ok_iff.1 hReal)
          (Json.asReal_eq_ok_iff.1 hImaginary)
    · cases hRead
  · rintro ⟨hReal, hImaginary⟩
    rw [ofJson, Json.asReal_eq_ok_iff.2 hReal,
      Json.asReal_eq_ok_iff.2 hImaginary]
    rfl

/- An element stores one scalar only. -/
theorem Json.Stores.unique
    {j : Json}
    {z w : Scalar Float}
    (hLeft : j.Stores z)
    (hRight : j.Stores w) :
    z = w :=
  Except.ok.inj ((Scalar.ofJson_eq_ok_iff.2 hLeft).symm.trans
    (Scalar.ofJson_eq_ok_iff.2 hRight))

end QuantumLab

------------------------------------------------------------
-- Documents with two arrays
------------------------------------------------------------

namespace QuantumLab

/- A document of an array of extents and an array of elements. -/
structure Json.HasArrays
    (j : Json)
    (shape data : List Json) : Prop where
  shape : j.field "shape" = .ok (.arr shape)
  data : j.field "data" = .ok (.arr data)

variable
  {j : Json}
  {shape data : List Json}
  {count : Nat}
  {entries : List (Scalar Float)}

theorem hasArrays_entriesToJson
    (extents : List Nat)
    (entries : Array (Scalar Float)) :
    (entriesToJson extents entries).HasArrays
      (extents.map Json.nat) (entries.toList.map Scalar.toJson) :=
  ⟨field_shape_entriesToJson extents entries,
    field_data_entriesToJson extents entries⟩

/- The extents of an array are read one by one. -/
theorem asList_asIndex_eq_ok_iff
    {extents : List Nat} :
    (Json.arr shape).asList Json.asIndex = .ok (extents.map Int.ofNat) ↔
      List.Forall₂ Json.IsExtent shape extents := by
  rw [Json.asList, mapM_eq_ok_iff, List.forall₂_map_right_iff]
  rfl

/- Elements are read up to their count, which has to be there. -/
theorem readEntries_eq_ok_iff :
    readEntries count (.arr data) = .ok entries ↔
      count ≤ data.length ∧
        List.Forall₂ Json.Stores (data.take count) entries := by
  have hEach :
      (data.take count).mapM Scalar.ofJson = .ok entries ↔
        List.Forall₂ Json.Stores (data.take count) entries := by
    simp only [mapM_eq_ok_iff, Scalar.ofJson_eq_ok_iff]
  constructor
  · intro hRead
    rcases bind_eq_ok_iff.1 hRead with ⟨found, hFound, hCount⟩
    split at hCount
    case isTrue hLength =>
      cases hCount
      have hStored := hEach.1 hFound
      have hTaken := hStored.length_eq
      rw [List.length_take, hLength] at hTaken
      exact ⟨by omega, hStored⟩
    case isFalse => cases hCount
  · rintro ⟨hThere, hStored⟩
    have hLength : entries.length = count := by
      rw [← hStored.length_eq, List.length_take]
      omega
    rw [readEntries, hEach.2 hStored, ok_bind, if_pos hLength]
    rfl

/- All elements are read if their count is right. -/
theorem readEntries_length_eq_ok_iff :
    readEntries data.length (.arr data) = .ok entries ↔
      List.Forall₂ Json.Stores data entries := by
  rw [readEntries_eq_ok_iff, List.take_length]
  exact and_iff_right le_rfl

/- A list of scalars can be read if each element stores one. -/
theorem exists_stored_iff :
    (∃ entries, List.Forall₂ Json.Stores data entries) ↔
      ∀ x ∈ data, ∃ z, x.Stores z := by
  constructor
  · rintro ⟨entries, hStored⟩ x hMember
    rcases exists_of_forall₂_left hStored x hMember with ⟨z, _, hStores⟩
    exact ⟨z, hStores⟩
  · exact exists_forall₂

/- What stands at each position of a list of scalars. -/
theorem forall₂_stores_iff :
    List.Forall₂ Json.Stores data entries ↔
      data.length = entries.length ∧
        ∀ k : Nat, ∀ z ∈ entries[k]?,
          ∃ x ∈ data[k]?, Json.Stores x z := by
  rw [List.forall₂_iff_get]
  refine and_congr_right fun hLength => ?_
  constructor
  · intro hStored k z hEntry
    rcases List.getElem?_eq_some_iff.1 hEntry with ⟨hInside, rfl⟩
    have hData : k < data.length := hLength ▸ hInside
    exact ⟨data[k], List.getElem?_eq_getElem hData,
      hStored k hData hInside⟩
  · intro hStored k hData hInside
    rcases hStored k _ (List.getElem?_eq_getElem hInside) with
      ⟨x, hElement, hStores⟩
    rw [Option.mem_def, List.getElem?_eq_getElem hData] at hElement
    cases hElement
    exact hStores

end QuantumLab

------------------------------------------------------------
-- Vectors
------------------------------------------------------------

namespace QuantumLab

namespace Vec

/- A vector whose entries an array stores in order. -/
structure InOrder
    (v : Vec Float)
    (shape data : List Json) : Prop where
  extents : List.Forall₂ Json.IsExtent shape [v.size]
  length : data.length = v.size
  entry : ∀ i < v.size, ∃ x ∈ data[i]?, x.Stores (v.entry i)

variable
  {j : Json}
  {shape data : List Json}
  {v : Vec Float}

theorem inOrder_iff :
    v.InOrder shape data ↔
      List.Forall₂ Json.IsExtent shape [v.size] ∧
        List.Forall₂ Json.Stores data v.entries.toList := by
  rw [forall₂_stores_iff, v.entries.length_toList]
  constructor
  · intro hInOrder
    refine ⟨hInOrder.extents, hInOrder.length, fun i z hEntry => ?_⟩
    rw [Array.getElem?_toList] at hEntry
    have hi : i < v.size := (Array.getElem?_eq_some_iff.1 hEntry).1
    rw [getElem?_entries hi] at hEntry
    cases hEntry
    exact hInOrder.entry i hi
  · rintro ⟨hExtents, hLength, hStored⟩
    refine ⟨hExtents, hLength, fun i hi => hStored i _ ?_⟩
    rw [Array.getElem?_toList, getElem?_entries hi, Option.mem_some]

/- A vector is read exactly if its entries are stored in order. -/
theorem ofJson_eq_ok_iff
    (hArrays : j.HasArrays shape data) :
    ofJson j = .ok v ↔ v.InOrder shape data := by
  rw [inOrder_iff]
  constructor
  · intro hRead
    rw [ofJson, hArrays.shape, ok_bind] at hRead
    rcases bind_eq_ok_iff.1 hRead with ⟨extents, hExtents, hRest⟩
    rw [hArrays.data, ok_bind] at hRest
    split at hRest
    · next n =>
        split at hRest
        case isTrue hCount =>
          rcases bind_eq_ok_iff.1 hRest with ⟨entries, hEntries, hVector⟩
          cases pure_eq_ok_iff.1 hVector
          obtain rfl : data.length = n := hCount
          have hStored := readEntries_length_eq_ok_iff.1 hEntries
          refine ⟨?_, hStored⟩
          rw [size, List.size_toArray, ← hStored.length_eq]
          exact asList_asIndex_eq_ok_iff.1 hExtents
        case isFalse => cases hRest
    · cases hRest
  · rintro ⟨hExtents, hStored⟩
    have hLength : data.length = v.size := hStored.length_eq
    exact ofJson_of_fields hArrays.shape hArrays.data
      (asList_asIndex_eq_ok_iff.2 hExtents) hLength
      (hLength ▸ readEntries_length_eq_ok_iff.2 hStored)

/- There is a vector to read if the extent is that of the elements. -/
theorem exists_inOrder_iff :
    (∃ v : Vec Float, v.InOrder shape data) ↔
      ∃ n, List.Forall₂ Json.IsExtent shape [n] ∧ data.length = n ∧
        ∀ x ∈ data, ∃ z, x.Stores z := by
  simp only [inOrder_iff, ← exists_stored_iff]
  constructor
  · rintro ⟨v, hExtents, hStored⟩
    exact ⟨v.size, hExtents, hStored.length_eq, _, hStored⟩
  · rintro ⟨n, hExtents, rfl, entries, hStored⟩
    refine ⟨⟨entries.toArray⟩, ?_, hStored⟩
    rw [size, List.size_toArray, ← hStored.length_eq]
    exact hExtents

end Vec

end QuantumLab

------------------------------------------------------------
-- Matrices
------------------------------------------------------------

namespace QuantumLab

namespace Mat

/- A matrix whose entries an array stores row after row. -/
structure RowMajor
    (a : Mat Float)
    (shape data : List Json) : Prop where
  extents : List.Forall₂ Json.IsExtent shape [a.rows, a.cols]
  length : data.length = a.rows * a.cols
  entry : ∀ i < a.rows, ∀ j < a.cols,
    ∃ x ∈ data[i * a.cols + j]?, x.Stores (a.entry i j)

variable
  {j : Json}
  {shape data : List Json}
  {a : Mat Float}

theorem rowMajor_iff :
    a.RowMajor shape data ↔
      List.Forall₂ Json.IsExtent shape [a.rows, a.cols] ∧
        List.Forall₂ Json.Stores data a.entries.toList := by
  rw [forall₂_stores_iff, a.entries.length_toList, a.size_eq]
  constructor
  · intro hRowMajor
    refine ⟨hRowMajor.extents, hRowMajor.length, fun k z hEntry => ?_⟩
    rw [Array.getElem?_toList] at hEntry
    have hk : k < a.rows * a.cols :=
      a.size_eq ▸ (Array.getElem?_eq_some_iff.1 hEntry).1
    rcases exists_position hk with ⟨i, hi, j, hj, rfl⟩
    rw [getElem?_entries hi hj] at hEntry
    cases hEntry
    exact hRowMajor.entry i hi j hj
  · rintro ⟨hExtents, hLength, hStored⟩
    refine ⟨hExtents, hLength, fun i hi j hj => hStored _ _ ?_⟩
    rw [Array.getElem?_toList, getElem?_entries hi hj, Option.mem_some]

/-
  A matrix is read exactly if its entries are stored row
  after row.  A product of extents that wraps to the number
  of elements exceeds it, so that an element is missed.
-/
theorem ofJson_eq_ok_iff
    (hArrays : j.HasArrays shape data)
    (hWord : data.length < UInt64.size) :
    ofJson j = .ok a ↔ a.RowMajor shape data := by
  rw [rowMajor_iff]
  constructor
  · intro hRead
    rw [ofJson, hArrays.shape, ok_bind] at hRead
    rcases bind_eq_ok_iff.1 hRead with ⟨extents, hExtents, hRest⟩
    rw [hArrays.data, ok_bind] at hRest
    split at hRest
    · next r c =>
        split at hRest
        case isTrue hCount =>
          rcases bind_eq_ok_iff.1 hRest with ⟨entries, hEntries, hMatrix⟩
          cases pure_eq_ok_iff.1 hMatrix
          have hThere := (readEntries_eq_ok_iff.1 hEntries).1
          have hWrapped : data.length ≤ r * c :=
            hCount.trans_le (Nat.mod_le _ _)
          have hLength := Nat.le_antisymm hWrapped hThere
          rw [← hLength] at hEntries
          have hStored := readEntries_length_eq_ok_iff.1 hEntries
          refine ⟨asList_asIndex_eq_ok_iff.1 hExtents, ?_⟩
          rwa [entries_ofEntries (hStored.length_eq.symm.trans hLength)]
        case isFalse => cases hRest
    · cases hRest
  · rintro ⟨hExtents, hStored⟩
    have hLength : data.length = a.rows * a.cols :=
      hStored.length_eq.trans a.size_eq
    have hCount : data.length = Shape.wrap (a.rows * a.cols) := by
      rw [← hLength]
      exact (Nat.mod_eq_of_lt hWord).symm
    have hRead := ofJson_of_fields hArrays.shape hArrays.data
      (asList_asIndex_eq_ok_iff.2 hExtents) hCount
      (hLength ▸ readEntries_length_eq_ok_iff.2 hStored)
    exact hRead.trans (congrArg Except.ok (ofEntries_entries a))

/- There is a matrix to read if its extents count the elements. -/
theorem exists_rowMajor_iff :
    (∃ a : Mat Float, a.RowMajor shape data) ↔
      ∃ r c, List.Forall₂ Json.IsExtent shape [r, c] ∧
        data.length = r * c ∧ ∀ x ∈ data, ∃ z, x.Stores z := by
  simp only [rowMajor_iff, ← exists_stored_iff]
  constructor
  · rintro ⟨a, hExtents, hStored⟩
    exact ⟨a.rows, a.cols, hExtents,
      hStored.length_eq.trans a.size_eq, _, hStored⟩
  · rintro ⟨r, c, hExtents, hLength, entries, hStored⟩
    refine ⟨ofEntries r c entries.toArray, hExtents, ?_⟩
    rwa [entries_ofEntries (hStored.length_eq.symm.trans hLength)]

end Mat

end QuantumLab

------------------------------------------------------------
-- Row-major documents
------------------------------------------------------------

namespace QuantumLab

/- The document of a vector has its entries in order. -/
theorem Vec.getElem?_toJson
    (v : Vec Float) :
    ∃ data, v.toJson.HasArrays [.nat v.size] data ∧
      data.length = v.size ∧
      ∀ i < v.size, data[i]? = some (v.entry i).toJson := by
  refine ⟨v.entries.toList.map Scalar.toJson,
    hasArrays_entriesToJson _ _, by simp [size], fun i hi => ?_⟩
  rw [List.getElem?_map, Array.getElem?_toList, getElem?_entries hi]
  rfl

/- The document of a matrix has its entries row after row. -/
theorem Mat.getElem?_toJson
    (a : Mat Float) :
    ∃ data, a.toJson.HasArrays [.nat a.rows, .nat a.cols] data ∧
      data.length = a.rows * a.cols ∧
      ∀ i < a.rows, ∀ j < a.cols,
        data[i * a.cols + j]? = some (a.entry i j).toJson := by
  refine ⟨a.entries.toList.map Scalar.toJson,
    hasArrays_entriesToJson _ _, by simp [a.size_eq], fun i hi j hj => ?_⟩
  rw [List.getElem?_map, Array.getElem?_toList, getElem?_entries hi hj]
  rfl

/-
  Vectors and matrices as documents of two arrays, of which
  the second has no more elements than a machine word counts.
  A matrix is read exactly if the first array has two entries
  that are extents, the second has as many elements as their
  product without any wrapping, and each element is a pair of
  numbers; the same goes for vectors and one extent.  What is
  read has these extents, and entry `(i, j)` of `c` columns
  is the scalar stored at `i * c + j`.  It is also written
  there.  Of integers that fit signed words the extents are
  those that are not negative.
-/
theorem arrays_row_major :
    (∀ (j : Json) (shape data : List Json),
      j.HasArrays shape data → data.length < UInt64.size →
      ((∃ a, Mat.ofJson j = .ok a) ↔
        ∃ r c, List.Forall₂ Json.IsExtent shape [r, c] ∧
          data.length = r * c ∧ ∀ x ∈ data, ∃ z, x.Stores z) ∧
      (∀ a, Mat.ofJson j = .ok a ↔ a.RowMajor shape data) ∧
      ((∃ v, Vec.ofJson j = .ok v) ↔
        ∃ n, List.Forall₂ Json.IsExtent shape [n] ∧
          data.length = n ∧ ∀ x ∈ data, ∃ z, x.Stores z) ∧
      (∀ v, Vec.ofJson j = .ok v ↔ v.InOrder shape data)) ∧
    (∀ a : Mat Float, ∃ data,
      a.toJson.HasArrays [.nat a.rows, .nat a.cols] data ∧
      data.length = a.rows * a.cols ∧
      ∀ i < a.rows, ∀ j < a.cols,
        data[i * a.cols + j]? = some (a.entry i j).toJson) ∧
    (∀ v : Vec Float, ∃ data,
      v.toJson.HasArrays [.nat v.size] data ∧
      data.length = v.size ∧
      ∀ i < v.size, data[i]? = some (v.entry i).toJson) ∧
    ∀ (ks : List Int) (extents : List Nat),
      (∀ k ∈ ks, -Int.pow 2 63 ≤ k ∧ k < Int.pow 2 63) →
      (List.Forall₂ Json.IsExtent (ks.map .int) extents ↔
        ks = extents.map Int.ofNat) := by
  refine ⟨fun j shape data hArrays hWord => ?_, Mat.getElem?_toJson,
    Vec.getElem?_toJson, fun ks extents => Json.forall₂_isExtent_iff⟩
  have hMatrix (a : Mat Float) :=
    Mat.ofJson_eq_ok_iff (a := a) hArrays hWord
  have hVector (v : Vec Float) := Vec.ofJson_eq_ok_iff (v := v) hArrays
  refine ⟨?_, hMatrix, ?_, hVector⟩
  · rw [exists_congr hMatrix, Mat.exists_rowMajor_iff]
  · rw [exists_congr hVector, Vec.exists_inOrder_iff]

/-
  Two extents of 2 ^ 32, whose product wraps to the number of
  elements, and a column of two numbers.
-/
theorem arrays_row_major_wrappedProduct :
    let wrapped : Json := .ofMembers
      [("shape", .arr [.int 4294967296, .int 4294967296]),
        ("data", .arr [])]
    let column : Json := .ofMembers
      [("shape", .arr [.int 2, .int 1]),
        ("data", .arr
          [.arr [.int 1, .real 0.5], .arr [.real 0.25, .int 0]])]
    wrapped.HasArrays [.int 4294967296, .int 4294967296] [] ∧
    Shape.wrap (4294967296 * 4294967296) = 0 ∧
    (¬ ∃ a, Mat.ofJson wrapped = .ok a) ∧
    ∃ a, Mat.ofJson column = .ok a ∧ a.rows = 2 ∧ a.cols = 1 ∧
      a.entry 1 0 = ⟨0.25, Float.ofInt 0⟩ := by
  intro wrapped column
  rcases arrays_row_major with ⟨hReads, -, -, hIntegers⟩
  have hWrapped : wrapped.HasArrays
      [.int 4294967296, .int 4294967296] [] := by
    constructor
    all_goals
      rw [Json.field_ofMembers]
      rfl
  have hColumn : column.HasArrays [.int 2, .int 1]
      [.arr [.int 1, .real 0.5], .arr [.real 0.25, .int 0]] := by
    constructor
    all_goals
      rw [Json.field_ofMembers]
      rfl
  refine ⟨hWrapped, rfl, ?_, ?_⟩
  · rw [(hReads wrapped _ _ hWrapped (by decide)).1]
    rintro ⟨r, c, hExtents, hLength, _⟩
    have hSame := (hIntegers [4294967296, 4294967296] [r, c]
      (by decide)).1 hExtents
    rcases List.cons.inj hSame with ⟨hRows, hRest⟩
    have hCols := (List.cons.inj hRest).1
    rw [← Int.ofNat.inj hRows, ← Int.ofNat.inj hCols] at hLength
    cases hLength
  · have hColumn := hReads column _ _ hColumn (by decide)
    have hStored : ∀ x ∈ [Json.arr [.int 1, .real 0.5],
        .arr [.real 0.25, .int 0]], ∃ z, x.Stores z :=
      List.forall_mem_cons.2 ⟨⟨_, .pair (.int 1) (.real 0.5)⟩,
        List.forall_mem_singleton.2 ⟨_, .pair (.real 0.25) (.int 0)⟩⟩
    have hExtents := (hIntegers [2, 1] [2, 1] (by decide)).2 rfl
    rcases hColumn.1.2 ⟨2, 1, hExtents, rfl, hStored⟩ with ⟨a, hRead⟩
    have hLaid := (hColumn.2.1 a).1 hRead
    have hSame := (hIntegers [2, 1] [a.rows, a.cols]
      (by decide)).1 hLaid.extents
    rcases List.cons.inj hSame with ⟨hRows, hRest⟩
    have hCols := (List.cons.inj hRest).1
    have hRows : 2 = a.rows := Int.ofNat.inj hRows
    have hCols : 1 = a.cols := Int.ofNat.inj hCols
    rcases hLaid.entry 1 (by omega) 0 (by omega) with ⟨x, hElement, hStores⟩
    rw [← hCols] at hElement
    cases hElement
    exact ⟨a, hRead, hRows.symm, hCols.symm,
      hStores.unique (.pair (.real 0.25) (.int 0))⟩

end QuantumLab
