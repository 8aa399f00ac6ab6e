import QuantumLab.Dense.Basic

/-
  This file diagonalizes Hermitian matrices by plane
  rotations.  Each rotation clears one entry off the
  diagonal, and sweeps over all such entries are repeated
  until what is left is negligible.

  Key definitions include:
    * `Rotated`
    * `Rotated.rotation`
    * `Rotated.sweep`
    * `Rotated.eigensystem?`
-/

namespace QuantumLab

open Arithmetic

/-
  A unitary matrix, and a matrix seen in the basis of its
  columns.
-/
structure Rotated (R : Type) where
  vectors : Mat R
  diagonal : Mat R

namespace Rotated

variable {R : Type} [Arithmetic R]

------------------------------------------------------------
-- Rotations
------------------------------------------------------------

/-
  A rotation in the plane of two basis vectors: its cosine
  and its complex sine.
-/
structure Rotation (R : Type) where
  cosine : R
  sine : Scalar R

/- The rotation that clears the entry in row `p` and column `q`. -/
def rotation (a : Mat R) (p q : Nat) : Rotation R :=
  let z := a.entry p q
  let size := z.modulus
  let slope := ((a.entry q q).re - (a.entry p p).re) / (2.0 * size)
  let root := abs slope + sqrt (slope * slope + 1.0)
  let tangent := copySign ((1.0 : R) / root) slope
  let cosine := (1.0 : R) / sqrt (tangent * tangent + 1.0)
  ⟨cosine, z.scaleReal (tangent * cosine / size)⟩

/- The columns `p` and `q` turned by a rotation. -/
def turnColumns (g : Rotation R) (p q : Nat) (a : Mat R) : Mat R :=
  Mat.ofFn a.rows a.cols fun i j =>
    if j = p then
      (a.entry i p).scaleReal g.cosine - a.entry i q * g.sine.conj
    else if j = q then
      a.entry i p * g.sine + (a.entry i q).scaleReal g.cosine
    else
      a.entry i j

/- One rotation, applied to the eigenvectors and to the matrix. -/
def step (s : Rotated R) (pair : Nat × Nat) : Rotated R :=
  let (p, q) := pair
  if (s.diagonal.entry p q).isZero then
    s
  else
    let g := rotation s.diagonal p q
    let half := (turnColumns g p q s.diagonal).dagger
    { vectors := turnColumns g p q s.vectors
      diagonal := (turnColumns g p q half).dagger }

/- The positions above the diagonal. -/
def pairs (n : Nat) : List (Nat × Nat) :=
  (List.range n).flatMap fun p =>
    (List.range n).filterMap fun q =>
      if p < q then some (p, q) else none

/- One rotation for each position above the diagonal. -/
def sweep (s : Rotated R) : Rotated R :=
  (pairs s.diagonal.rows).foldl step s

/- The sum of the squared moduli at some positions. -/
def weight (a : Mat R) (positions : List (Nat × Nat)) : R :=
  positions.foldl
    (fun total p => total + (a.entry p.1 p.2).squaredModulus) 0.0

/- Whether the entries off the diagonal are negligible. -/
def isSettled (s : Rotated R) : Bool :=
  let n := s.diagonal.rows
  let all := (List.range n).flatMap fun p =>
    (List.range n).map fun q => (p, q)
  atMost (weight s.diagonal (pairs n)) (1e-30 * weight s.diagonal all)

/- Sweeps until the matrix is settled, at most `fuel` times. -/
def settle? : (fuel : Nat) → Rotated R → Option (Rotated R)
  | 0, s => if s.isSettled then some s else none
  | fuel + 1, s =>
      if s.isSettled then some s else settle? fuel s.sweep

------------------------------------------------------------
-- Eigenvalues
------------------------------------------------------------

/-
  The Hermitian matrix with given real and imaginary parts on
  and below the diagonal.
-/
def mirrored (n : Nat) (parts : Nat → Nat → R × R) : Mat R :=
  Mat.ofFn n n fun i j =>
    if i = j then Scalar.ofReal (parts i i).1
    else if j < i then ⟨(parts i j).1, (parts i j).2⟩
    else ⟨(parts j i).1, -(parts j i).2⟩

/-
  The eigenvalues and eigenvectors of that matrix, unless the
  rotations fail to settle.
-/
def eigensystem?
    (n : Nat)
    (parts : Nat → Nat → R × R) :
    Option ((Nat → R) × (Nat → Nat → R × R)) :=
  (settle? 64 ⟨Mat.identity n, mirrored n parts⟩).map fun s =>
    (fun k => (s.diagonal.entry k k).re,
      fun i j => ((s.vectors.entry i j).re, (s.vectors.entry i j).im))

end Rotated

end QuantumLab
