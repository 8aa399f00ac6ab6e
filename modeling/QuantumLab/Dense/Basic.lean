import QuantumLab.Scalar

/-
  This file defines dense vectors and matrices of complex
  scalars.  An entry outside of the extents is zero, so
  that every operation is a function of the entries of its
  operands alone.

  Key definitions include:
    * `Vec`, `Vec.ofFn`, `Vec.entry`
    * `Mat`, `Mat.ofFn`, `Mat.entry`
    * `Mat.mul`, `Mat.mulVec`
    * `Mat.dagger`, `Mat.trace`, `Mat.kronecker`
    * `Mat.outer`
    * `Mat.largestModulus`

  Main statements:
    * `Vec.entry_ofFn` and `Mat.entry_ofFn` give the entries
      of a vector or matrix built from a function.
    * `Vec.ext_entry` and `Mat.ext_entry` say that entries
      within the extents determine a vector or matrix.
-/

namespace QuantumLab

open Arithmetic

------------------------------------------------------------
-- Sums
------------------------------------------------------------

/- The sum of the terms `f 0` to `f (n - 1)`, from the first on. -/
def sumOver
    {R : Type}
    [Arithmetic R]
    (n : Nat)
    (f : Nat → Scalar R) : Scalar R :=
  (List.range n).foldl (fun total k => total + f k) Scalar.zero

------------------------------------------------------------
-- Vectors
------------------------------------------------------------

/-
  A vector by its entries.
-/
structure Vec (R : Type) where
  entries : Array (Scalar R)
deriving DecidableEq, Repr

namespace Vec

variable {R : Type}

/- The number of entries. -/
def size (v : Vec R) : Nat :=
  v.entries.size

/- The vector with the entries `f 0` to `f (n - 1)`. -/
def ofFn (n : Nat) (f : Nat → Scalar R) : Vec R :=
  ⟨Array.ofFn (n := n) fun k => f k⟩

@[simp] theorem size_ofFn
    (n : Nat)
    (f : Nat → Scalar R) :
    (ofFn n f).size = n := by
  simp [ofFn, size]

variable [Arithmetic R]

/- The entry at a position. -/
def entry (v : Vec R) (k : Nat) : Scalar R :=
  v.entries[k]?.getD Scalar.zero

theorem entry_ofFn
    {n k : Nat}
    (f : Nat → Scalar R)
    (h : k < n) :
    (ofFn n f).entry k = f k := by
  simp [ofFn, entry, h]

/- Entries within the extent determine a vector. -/
theorem ext_entry
    {v w : Vec R}
    (hsize : v.size = w.size)
    (h : ∀ k < v.size, v.entry k = w.entry k) :
    v = w := by
  cases v with
  | mk a =>
    cases w with
    | mk b =>
      simp only [size] at hsize h
      congr 1
      refine Array.ext hsize fun k hk hk' => ?_
      simpa [entry, hk, hk'] using h k hk

instance : Add (Vec R) :=
  ⟨fun v w => ofFn v.size fun k => v.entry k + w.entry k⟩

/- Every entry multiplied by a scalar. -/
def scale (z : Scalar R) (v : Vec R) : Vec R :=
  ofFn v.size fun k => z * v.entry k

/- Every entry conjugated. -/
def conj (v : Vec R) : Vec R :=
  ofFn v.size fun k => (v.entry k).conj

/- The Kronecker product: the entries of `w` once for each entry of `v`. -/
def kronecker (v w : Vec R) : Vec R :=
  ofFn (v.size * w.size) fun k =>
    v.entry (k / w.size) * w.entry (k % w.size)

/- The sum of the squared moduli of the entries. -/
def squaredNorm (v : Vec R) : R :=
  (List.range v.size).foldl
    (fun total k => total + (v.entry k).squaredModulus) 0.0

end Vec

------------------------------------------------------------
-- Matrices
------------------------------------------------------------

/-
  A matrix by its extents and its entries, row after row.
-/
structure Mat (R : Type) where
  rows : Nat
  cols : Nat
  entries : Array (Scalar R)
  size_eq : entries.size = rows * cols
deriving DecidableEq, Repr

namespace Mat

variable {R : Type}

/- The matrix with the entries `f i j`. -/
def ofFn
    (rows cols : Nat)
    (f : Nat → Nat → Scalar R) : Mat R where
  rows := rows
  cols := cols
  entries := Array.ofFn (n := rows * cols) fun k =>
    f (k / cols) (k % cols)
  size_eq := by simp

@[simp] theorem rows_ofFn
    (rows cols : Nat)
    (f : Nat → Nat → Scalar R) :
    (ofFn rows cols f).rows = rows :=
  rfl

@[simp] theorem cols_ofFn
    (rows cols : Nat)
    (f : Nat → Nat → Scalar R) :
    (ofFn rows cols f).cols = cols :=
  rfl

/- Whether there are as many rows as columns. -/
def isSquare (a : Mat R) : Bool :=
  a.rows == a.cols

/- Whether two matrices have the same extents. -/
def sameExtents (a b : Mat R) : Bool :=
  a.rows == b.rows && a.cols == b.cols

/- Whether there is no entry. -/
def isEmpty (a : Mat R) : Bool :=
  a.rows * a.cols == 0

variable [Arithmetic R]

/- The entry in a row and a column. -/
def entry (a : Mat R) (i j : Nat) : Scalar R :=
  if i < a.rows ∧ j < a.cols then
    a.entries[i * a.cols + j]?.getD Scalar.zero
  else
    Scalar.zero

theorem position_lt
    {rows cols i j : Nat}
    (hi : i < rows)
    (hj : j < cols) :
    i * cols + j < rows * cols :=
  calc
    i * cols + j < i * cols + cols := Nat.add_lt_add_left hj _
    _ = (i + 1) * cols := (Nat.succ_mul i cols).symm
    _ ≤ rows * cols := Nat.mul_le_mul_right cols hi

/- The row of a position. -/
theorem position_div
    {cols i j : Nat}
    (hj : j < cols) :
    (i * cols + j) / cols = i := by
  have hpos : 0 < cols := Nat.lt_of_le_of_lt (Nat.zero_le j) hj
  rw [Nat.mul_comm, Nat.mul_add_div hpos, Nat.div_eq_of_lt hj,
    Nat.add_zero]

/- The column of a position. -/
theorem position_mod
    {cols i j : Nat}
    (hj : j < cols) :
    (i * cols + j) % cols = j := by
  rw [Nat.mul_comm, Nat.mul_add_mod, Nat.mod_eq_of_lt hj]

/- Every position is that of an entry. -/
theorem exists_position
    {rows cols k : Nat}
    (h : k < rows * cols) :
    ∃ i < rows, ∃ j < cols, k = i * cols + j := by
  have hpos : 0 < cols :=
    Nat.pos_of_mul_pos_left (Nat.lt_of_le_of_lt (Nat.zero_le k) h)
  have hi : k / cols < rows :=
    Nat.div_lt_of_lt_mul (Nat.mul_comm rows cols ▸ h)
  exact ⟨k / cols, hi, k % cols, Nat.mod_lt k hpos,
    (Nat.div_add_mod' k cols).symm⟩

theorem entry_ofFn
    {rows cols i j : Nat}
    (f : Nat → Nat → Scalar R)
    (hi : i < rows)
    (hj : j < cols) :
    (ofFn rows cols f).entry i j = f i j := by
  simp [entry, ofFn, hi, hj, position_lt hi hj, position_div hj,
    position_mod hj]

/- Entries within the extents determine a matrix. -/
theorem ext_entry
    {a b : Mat R}
    (hrows : a.rows = b.rows)
    (hcols : a.cols = b.cols)
    (h : ∀ i < a.rows, ∀ j < a.cols, a.entry i j = b.entry i j) :
    a = b := by
  obtain ⟨rows, cols, x, hx⟩ := a
  obtain ⟨rows', cols', y, hy⟩ := b
  simp only at hrows hcols h
  subst hrows
  subst hcols
  congr 1
  refine Array.ext (hx.trans hy.symm) fun k hk hk' => ?_
  obtain ⟨i, hi, j, hj, rfl⟩ := exists_position (hx ▸ hk)
  simpa [entry, hi, hj, hk, hk'] using h i hi j hj

------------------------------------------------------------
-- Entrywise operations
------------------------------------------------------------

instance : Add (Mat R) :=
  ⟨fun a b => ofFn a.rows a.cols fun i j => a.entry i j + b.entry i j⟩

instance : Sub (Mat R) :=
  ⟨fun a b => ofFn a.rows a.cols fun i j => a.entry i j - b.entry i j⟩

/- Every entry multiplied by a scalar. -/
def scale (z : Scalar R) (a : Mat R) : Mat R :=
  ofFn a.rows a.cols fun i j => z * a.entry i j

/- Every entry multiplied by a real number. -/
def scaleReal (r : R) (a : Mat R) : Mat R :=
  ofFn a.rows a.cols fun i j => (a.entry i j).scaleReal r

/- The matrix of a list of entries, row after row. -/
def ofEntries (rows cols : Nat) (entries : Array (Scalar R)) : Mat R :=
  ofFn rows cols fun i j => entries[i * cols + j]?.getD Scalar.zero

/- The matrix of zeros. -/
def zero (rows cols : Nat) : Mat R :=
  ofFn rows cols fun _ _ => Scalar.zero

/- The identity. -/
def identity (n : Nat) : Mat R :=
  ofFn n n fun i j => if i = j then Scalar.one else Scalar.zero

/- The diagonal matrix of a vector. -/
def diagonal (v : Vec R) : Mat R :=
  ofFn v.size v.size fun i j => if i = j then v.entry i else Scalar.zero

/- The conjugate transpose. -/
def dagger (a : Mat R) : Mat R :=
  ofFn a.cols a.rows fun i j => (a.entry j i).conj

------------------------------------------------------------
-- Products
------------------------------------------------------------

/- The matrix product. -/
def mul (a b : Mat R) : Mat R :=
  ofFn a.rows b.cols fun i j =>
    sumOver a.cols fun k => a.entry i k * b.entry k j

instance : Mul (Mat R) :=
  ⟨mul⟩

/- The product with a vector. -/
def mulVec (a : Mat R) (v : Vec R) : Vec R :=
  Vec.ofFn a.rows fun i =>
    sumOver a.cols fun k => a.entry i k * v.entry k

/- The Kronecker product: a copy of `b` for each entry of `a`. -/
def kronecker (a b : Mat R) : Mat R :=
  ofFn (a.rows * b.rows) (a.cols * b.cols) fun i j =>
    a.entry (i / b.rows) (j / b.cols) * b.entry (i % b.rows) (j % b.cols)

/- The product of a column with the conjugate of a row. -/
def outer (v w : Vec R) : Mat R :=
  ofFn v.size w.size fun i j => v.entry i * (w.entry j).conj

------------------------------------------------------------
-- Measures
------------------------------------------------------------

/- The sum of the diagonal. -/
def trace (a : Mat R) : Scalar R :=
  sumOver a.rows fun i => a.entry i i

/-
  The largest modulus of an entry, zero if there is none.
  A modulus replaces an earlier one only where it exceeds
  it.
-/
def largestModulus (a : Mat R) : R :=
  match a.entries.toList.map Scalar.modulus with
  | [] => 0.0
  | first :: rest => rest.foldl atLeast first

/- The commutator. -/
def commutator (a b : Mat R) : Mat R :=
  a * b - b * a

/- The anticommutator. -/
def anticommutator (a b : Mat R) : Mat R :=
  a * b + b * a

/- How far a matrix is from its conjugate transpose. -/
def hermiticityGap (a : Mat R) : R :=
  (a - a.dagger).largestModulus

/- How far a matrix is from the negative of its conjugate transpose. -/
def skewHermiticityGap (a : Mat R) : R :=
  (a + a.dagger).largestModulus

/- The Hermitian part. -/
def hermitianPart (a : Mat R) : Mat R :=
  scaleReal 0.5 (a + a.dagger)

end Mat

end QuantumLab
