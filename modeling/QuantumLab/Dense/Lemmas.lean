import QuantumLab.Dense.Basic

/-
  This file gives the extents and the entries of the dense
  operations, so that what is said about an operation can
  be read off the entries of its operands.

  Main statements:
    * `Vec.entry_add`, `Vec.entry_scale`, `Vec.entry_conj`,
      `Vec.entry_kronecker`
    * `Mat.entry_add`, `Mat.entry_sub`, `Mat.entry_scale`,
      `Mat.entry_scaleReal`
    * `Mat.entry_dagger`, `Mat.entry_mul`,
      `Mat.entry_kronecker`, `Mat.entry_outer`
    * `Mat.entry_ofEntries`, `Mat.mem_entries_iff`
    * `Vec.getElem?_entries` and `Mat.getElem?_entries` say
      where an entry stands.
-/

namespace QuantumLab

------------------------------------------------------------
-- Vectors
------------------------------------------------------------

namespace Vec

variable {R : Type} [Arithmetic R]

/- The entries stand in order. -/
theorem getElem?_entries
    {v : Vec R}
    {k : Nat}
    (h : k < v.size) :
    v.entries[k]? = some (v.entry k) := by
  have hentry : k < v.entries.size := h
  simp [entry, hentry]

@[simp] theorem size_add (v w : Vec R) : (v + w).size = v.size :=
  size_ofFn _ _

theorem entry_add
    {k : Nat}
    (v w : Vec R)
    (h : k < v.size) :
    (v + w).entry k = v.entry k + w.entry k :=
  entry_ofFn _ h

@[simp] theorem size_scale
    (z : Scalar R)
    (v : Vec R) :
    (v.scale z).size = v.size :=
  size_ofFn _ _

theorem entry_scale
    {k : Nat}
    (z : Scalar R)
    (v : Vec R)
    (h : k < v.size) :
    (v.scale z).entry k = z * v.entry k :=
  entry_ofFn _ h

@[simp] theorem size_conj (v : Vec R) : v.conj.size = v.size :=
  size_ofFn _ _

theorem entry_conj
    {k : Nat}
    (v : Vec R)
    (h : k < v.size) :
    v.conj.entry k = (v.entry k).conj :=
  entry_ofFn _ h

@[simp] theorem size_kronecker
    (v w : Vec R) :
    (v.kronecker w).size = v.size * w.size :=
  size_ofFn _ _

/- The entries of `w` stand once for each entry of `v`. -/
theorem entry_kronecker
    {i k : Nat}
    (v w : Vec R)
    (hi : i < v.size)
    (hk : k < w.size) :
    (v.kronecker w).entry (i * w.size + k) =
      v.entry i * w.entry k := by
  rw [kronecker, entry_ofFn _ (Mat.position_lt hi hk),
    Mat.position_div hk, Mat.position_mod hk]

end Vec

------------------------------------------------------------
-- Matrices
------------------------------------------------------------

namespace Mat

variable {R : Type} [Arithmetic R]

/- There is nothing but zero below the last row. -/
theorem entry_of_rows_le
    {a : Mat R}
    {i j : Nat}
    (h : a.rows ≤ i) :
    a.entry i j = Scalar.zero :=
  if_neg fun hin => Nat.not_lt.2 h hin.1

/- There is nothing but zero right of the last column. -/
theorem entry_of_cols_le
    {a : Mat R}
    {i j : Nat}
    (h : a.cols ≤ j) :
    a.entry i j = Scalar.zero :=
  if_neg fun hin => Nat.not_lt.2 h hin.2

@[simp] theorem rows_add (a b : Mat R) : (a + b).rows = a.rows :=
  rfl

@[simp] theorem cols_add (a b : Mat R) : (a + b).cols = a.cols :=
  rfl

theorem entry_add
    {i j : Nat}
    (a b : Mat R)
    (hi : i < a.rows)
    (hj : j < a.cols) :
    (a + b).entry i j = a.entry i j + b.entry i j :=
  entry_ofFn _ hi hj

@[simp] theorem rows_sub (a b : Mat R) : (a - b).rows = a.rows :=
  rfl

@[simp] theorem cols_sub (a b : Mat R) : (a - b).cols = a.cols :=
  rfl

theorem entry_sub
    {i j : Nat}
    (a b : Mat R)
    (hi : i < a.rows)
    (hj : j < a.cols) :
    (a - b).entry i j = a.entry i j - b.entry i j :=
  entry_ofFn _ hi hj

@[simp] theorem rows_scale
    (z : Scalar R)
    (a : Mat R) :
    (a.scale z).rows = a.rows :=
  rfl

@[simp] theorem cols_scale
    (z : Scalar R)
    (a : Mat R) :
    (a.scale z).cols = a.cols :=
  rfl

theorem entry_scale
    {i j : Nat}
    (z : Scalar R)
    (a : Mat R)
    (hi : i < a.rows)
    (hj : j < a.cols) :
    (a.scale z).entry i j = z * a.entry i j :=
  entry_ofFn _ hi hj

@[simp] theorem rows_scaleReal
    (r : R)
    (a : Mat R) :
    (a.scaleReal r).rows = a.rows :=
  rfl

@[simp] theorem cols_scaleReal
    (r : R)
    (a : Mat R) :
    (a.scaleReal r).cols = a.cols :=
  rfl

theorem entry_scaleReal
    {i j : Nat}
    (r : R)
    (a : Mat R)
    (hi : i < a.rows)
    (hj : j < a.cols) :
    (a.scaleReal r).entry i j = (a.entry i j).scaleReal r :=
  entry_ofFn _ hi hj

/- A matrix of zeros has no other entry. -/
theorem entry_zero
    (rows cols i j : Nat) :
    (zero rows cols : Mat R).entry i j = Scalar.zero := by
  by_cases hi : i < rows
  · by_cases hj : j < cols
    · exact entry_ofFn _ hi hj
    · exact entry_of_cols_le (Nat.not_lt.1 hj)
  · exact entry_of_rows_le (Nat.not_lt.1 hi)

theorem entry_identity
    {n i j : Nat}
    (hi : i < n)
    (hj : j < n) :
    (identity n : Mat R).entry i j =
      if i = j then Scalar.one else Scalar.zero :=
  entry_ofFn _ hi hj

/- Entry `(i, j)` of a row-major list stands at `i * cols + j`. -/
theorem entry_ofEntries
    {rows cols i j : Nat}
    (entries : Array (Scalar R))
    (hi : i < rows)
    (hj : j < cols) :
    (ofEntries rows cols entries).entry i j =
      entries[i * cols + j]?.getD Scalar.zero :=
  entry_ofFn _ hi hj

/- A matrix is made up again from its own entries. -/
theorem ofEntries_entries
    (a : Mat R) :
    ofEntries a.rows a.cols a.entries = a := by
  refine ext_entry rfl rfl fun i hi j hj => ?_
  exact (entry_ofEntries _ hi hj).trans (if_pos ⟨hi, hj⟩).symm

/- As many entries as there should be are kept in their order. -/
theorem entries_ofEntries
    {rows cols : Nat}
    {entries : Array (Scalar R)}
    (h : entries.size = rows * cols) :
    (ofEntries rows cols entries).entries = entries := by
  refine Array.ext (by simp [ofEntries, ofFn, h]) fun k hk hk' => ?_
  simp [ofEntries, ofFn, Nat.div_add_mod', hk']

/- Entry `(i, j)` stands at `i * cols + j`. -/
theorem getElem?_entries
    {a : Mat R}
    {i j : Nat}
    (hi : i < a.rows)
    (hj : j < a.cols) :
    a.entries[i * a.cols + j]? = some (a.entry i j) := by
  have hk : i * a.cols + j < a.entries.size :=
    a.size_eq ▸ position_lt hi hj
  simp [entry, hi, hj, hk]

/- The entries are those within the rows and columns. -/
theorem mem_entries_iff
    {a : Mat R}
    {z : Scalar R} :
    z ∈ a.entries.toList ↔
      ∃ i < a.rows, ∃ j < a.cols, a.entry i j = z := by
  constructor
  · intro hz
    obtain ⟨k, hk, rfl⟩ := List.getElem_of_mem hz
    rw [Array.length_toList] at hk
    obtain ⟨i, hi, j, hj, rfl⟩ := exists_position (a.size_eq ▸ hk)
    exact ⟨i, hi, j, hj, by simp [entry, hi, hj, hk]⟩
  · rintro ⟨i, hi, j, hj, rfl⟩
    exact Array.mem_toList_iff.2
      (Array.mem_of_getElem? (getElem?_entries hi hj))

@[simp] theorem rows_dagger (a : Mat R) : a.dagger.rows = a.cols :=
  rfl

@[simp] theorem cols_dagger (a : Mat R) : a.dagger.cols = a.rows :=
  rfl

theorem entry_dagger
    {i j : Nat}
    (a : Mat R)
    (hi : i < a.cols)
    (hj : j < a.rows) :
    a.dagger.entry i j = (a.entry j i).conj :=
  entry_ofFn _ hi hj

@[simp] theorem rows_mul (a b : Mat R) : (a * b).rows = a.rows :=
  rfl

@[simp] theorem cols_mul (a b : Mat R) : (a * b).cols = b.cols :=
  rfl

theorem entry_mul
    {i j : Nat}
    (a b : Mat R)
    (hi : i < a.rows)
    (hj : j < b.cols) :
    (a * b).entry i j =
      sumOver a.cols fun k => a.entry i k * b.entry k j :=
  entry_ofFn _ hi hj

@[simp] theorem size_mulVec
    (a : Mat R)
    (v : Vec R) :
    (a.mulVec v).size = a.rows :=
  Vec.size_ofFn _ _

theorem entry_mulVec
    {i : Nat}
    (a : Mat R)
    (v : Vec R)
    (hi : i < a.rows) :
    (a.mulVec v).entry i =
      sumOver a.cols fun k => a.entry i k * v.entry k :=
  Vec.entry_ofFn _ hi

@[simp] theorem rows_kronecker
    (a b : Mat R) :
    (a.kronecker b).rows = a.rows * b.rows :=
  rfl

@[simp] theorem cols_kronecker
    (a b : Mat R) :
    (a.kronecker b).cols = a.cols * b.cols :=
  rfl

/- A copy of `b` stands for each entry of `a`. -/
theorem entry_kronecker
    {i j k l : Nat}
    (a b : Mat R)
    (hi : i < a.rows)
    (hj : j < a.cols)
    (hk : k < b.rows)
    (hl : l < b.cols) :
    (a.kronecker b).entry (i * b.rows + k) (j * b.cols + l) =
      a.entry i j * b.entry k l := by
  rw [kronecker, entry_ofFn _ (position_lt hi hk) (position_lt hj hl),
    position_div hk, position_mod hk, position_div hl,
    position_mod hl]

@[simp] theorem rows_outer (v w : Vec R) : (outer v w).rows = v.size :=
  rfl

@[simp] theorem cols_outer (v w : Vec R) : (outer v w).cols = w.size :=
  rfl

theorem entry_outer
    {i j : Nat}
    (v w : Vec R)
    (hi : i < v.size)
    (hj : j < w.size) :
    (outer v w).entry i j = v.entry i * (w.entry j).conj :=
  entry_ofFn _ hi hj

end Mat

end QuantumLab
