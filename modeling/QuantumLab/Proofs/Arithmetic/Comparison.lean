import Mathlib
import QuantumLab.Double
import QuantumLab.Proofs.Exact.Reals

/-
  This file says what the comparisons of numbers have in
  common, whether the numbers are exact or floating point
  numbers.  A floating point number that is a number has a
  rank, and numbers compare as their ranks do.

  Key definitions include:
    * `Comparable`
    * `Double.rank?`

  Main statements:
    * `Double.compare_eq` says that numbers compare as their
      ranks do.
    * `Double.unpack_neg` says that a negation only turns the
      sign of a number.
    * the instances of `Comparable` for `ℝ` and `Float`
-/

------------------------------------------------------------
-- Laws of comparisons
------------------------------------------------------------

namespace QuantumLab

open Arithmetic

/-
  Comparisons that may be put together and are turned around
  by a negation.  None of this says anything about values
  that are no numbers, which are never less or equal.
-/
class Comparable (R : Type) [Arithmetic R] : Prop where
  less_of_atMost_of_less :
    ∀ {x y z : R}, atMost x y = true → less y z = true →
      less x z = true
  less_of_less_of_atMost :
    ∀ {x y z : R}, less x y = true → atMost y z = true →
      less x z = true
  atMost_neg :
    ∀ {x y : R}, atMost x y = true → atMost (-y) (-x) = true

theorem atMost_real
    (x y : ℝ) :
    atMost x y = true ↔ x ≤ y := by
  simp [atMost, le_iff_lt_or_eq]

noncomputable instance : Comparable ℝ where
  less_of_atMost_of_less hFirst hSecond := by
    rw [atMost_real] at hFirst
    rw [less_real, decide_eq_true_eq] at *
    exact hFirst.trans_lt hSecond
  less_of_less_of_atMost hFirst hSecond := by
    rw [atMost_real] at hSecond
    rw [less_real, decide_eq_true_eq] at *
    exact hFirst.trans_le hSecond
  atMost_neg hAtMost := by
    rw [atMost_real] at *
    exact neg_le_neg hAtMost

end QuantumLab

------------------------------------------------------------
-- Comparisons of integers
------------------------------------------------------------

namespace QuantumLab

namespace Double

variable {α β : Type} [LinearOrder α] [LinearOrder β]

theorem compare_toLex
    (a c : α)
    (b d : β) :
    compare (toLex (a, b)) (toLex (c, d)) =
      (compare a c).then (compare b d) := by
  rw [Prod.Lex.compare_def]
  rfl

theorem compare_neg
    (a b : ℤ) :
    compare (-a) (-b) = compare b a := by
  have hNeg : StrictAnti fun c : ℤ => -c := strictMono_id.neg
  rw [← cmp_eq_compare, ← cmp_eq_compare]
  exact hNeg.cmp_map_eq a b

theorem compare_cast
    (a b : ℕ) :
    compare (a : ℤ) (b : ℤ) = compare a b := by
  rw [← cmp_eq_compare, ← cmp_eq_compare]
  exact Nat.strictMono_cast.cmp_map_eq a b

end Double

end QuantumLab

------------------------------------------------------------
-- Ranks of floating point numbers
------------------------------------------------------------

namespace QuantumLab

open Arithmetic
open Float.Model
open Float.Model.UnpackedFloat

namespace Double

/-
  The rank of a floating point number: the side of zero that
  it is on, then its exponent, then its mantissa.  A larger
  exponent means a larger magnitude, since the numbers of one
  format share the place of their leading digit.
-/
def rank? : UnpackedFloat → Option (ℤ ×ₗ ℤ ×ₗ ℤ)
  | .notANumber => none
  | .infinity .negative => some (toLex (-2, toLex (0, 0)))
  | .finite .negative m e _ => some (toLex (-1, toLex (-e, -m)))
  | .zero _ => some (toLex (0, toLex (0, 0)))
  | .finite .positive m e _ => some (toLex (1, toLex (e, m)))
  | .infinity .positive => some (toLex (2, toLex (0, 0)))

/-
  Numbers compare as their ranks do.  Numbers on different
  sides of zero are settled by the side alone, which closes
  all cases but those of two finite numbers on one side.
-/
theorem compare_eq
    (x y : UnpackedFloat) :
    x.compare y =
      (rank? x).bind fun r => (rank? y).map fun s => compare r s := by
  rcases x with ⟨_ | _⟩ | _ | _ | ⟨_ | _, m, e, _⟩ <;>
    rcases y with ⟨_ | _⟩ | _ | _ | ⟨_ | _, m', e', _⟩ <;>
    simp only [rank?, UnpackedFloat.compare, Option.bind_some,
      Option.bind_none, Option.map_some, Option.map_none,
      compare_toLex, compare_neg, compare_cast, Ordering.swap_then,
      ← Std.OrientedCmp.eq_swap] <;>
    rfl

/- A comparison of negations is turned around. -/
theorem compare_neg_neg
    (x y : UnpackedFloat) :
    x.neg.compare y.neg = y.compare x := by
  rcases x with ⟨_ | _⟩ | _ | _ | ⟨_ | _, m, e, _⟩ <;>
    rcases y with ⟨_ | _⟩ | _ | _ | ⟨_ | _, m', e', _⟩ <;>
    first
      | rfl
      | simp [UnpackedFloat.neg, UnpackedFloat.compare,
          Ordering.swap_then, ← Std.OrientedCmp.eq_swap]

theorem compare_eq_lt_iff
    {x y : UnpackedFloat} :
    x.compare y = some .lt ↔
      ∃ r, rank? x = some r ∧ ∃ s, rank? y = some s ∧ r < s := by
  simp only [compare_eq, Option.bind_eq_some_iff,
    Option.map_eq_some_iff, compare_lt_iff_lt]

theorem compare_eq_eq_iff
    {x y : UnpackedFloat} :
    x.compare y = some .eq ↔
      ∃ r, rank? x = some r ∧ ∃ s, rank? y = some s ∧ r = s := by
  simp only [compare_eq, Option.bind_eq_some_iff,
    Option.map_eq_some_iff, compare_eq_iff_eq]

theorem less_float
    (x y : Float) :
    less x y = true ↔
      x.toModel.unpack.compare y.toModel.unpack = some .lt := by
  change decide (decide (x.toModel < y.toModel) = true) = true ↔ _
  rw [decide_eq_true_iff, decide_eq_true_iff]
  change (_ == _) = true ↔ _
  exact beq_iff_eq (α := Option Ordering)

theorem beq_float
    (x y : Float) :
    (x == y) = true ↔
      x.toModel.unpack.compare y.toModel.unpack = some .eq :=
  beq_iff_eq (α := Option Ordering)

/- Numbers are less if their ranks are. -/
theorem less_iff_rank
    {x y : Float} :
    less x y = true ↔ ∃ r, rank? x.toModel.unpack = some r ∧
      ∃ s, rank? y.toModel.unpack = some s ∧ r < s := by
  rw [less_float, compare_eq_lt_iff]

theorem atMost_iff_rank
    {x y : Float} :
    atMost x y = true ↔ ∃ r, rank? x.toModel.unpack = some r ∧
      ∃ s, rank? y.toModel.unpack = some s ∧ r ≤ s := by
  rw [atMost, Bool.or_eq_true, less_iff_rank, beq_float,
    compare_eq_eq_iff]
  constructor
  · rintro (⟨r, hFirst, s, hSecond, hLess⟩ |
      ⟨r, hFirst, s, hSecond, hSame⟩)
    · exact ⟨r, hFirst, s, hSecond, hLess.le⟩
    · exact ⟨r, hFirst, s, hSecond, hSame.le⟩
  · rintro ⟨r, hFirst, s, hSecond, hAtMost⟩
    rcases hAtMost.lt_or_eq with hLess | hSame
    · exact .inl ⟨r, hFirst, s, hSecond, hLess⟩
    · exact .inr ⟨r, hFirst, s, hSecond, hSame⟩

end Double

end QuantumLab

------------------------------------------------------------
-- Negations of floating point numbers
------------------------------------------------------------

namespace QuantumLab

open Float.Model
open Float.Model.UnpackedFloat

namespace Double

/- Only the sign of a number changes when its sign bit does. -/
theorem unpack_packComponents_neg
    (format : Float.Model.Format)
    (s : Sign)
    (e : BitVec format.exponentBits)
    (m : BitVec format.mantissaBitsWithoutImplicit) :
    UnpackedFloat.unpack format (packComponents format (-s) e m) =
      (UnpackedFloat.unpack format
        (packComponents format s e m)).neg := by
  unfold UnpackedFloat.unpack
  simp only [unpackExponent_packComponents,
    unpackMantissa_packComponents, unpackSign_packComponents,
    Sign.ofBitVec_toBitVec]
  split_ifs <;> rfl

/- What is not a number is packed in one way alone. -/
theorem unpack_pack_unpack
    (b : BitVec 64) :
    UnpackedFloat.unpack .binary64 (UnpackedFloat.pack .binary64
        (UnpackedFloat.unpack .binary64 b)) =
      UnpackedFloat.unpack .binary64 b := by
  rw [pack_unpack]
  split
  case isTrue hNaN =>
    rw [isNaNBits, decide_eq_true_eq] at hNaN
    rw [unpack_packedNaN]
    unfold UnpackedFloat.unpack
    dsimp only
    rw [if_pos hNaN.1, if_neg hNaN.2]
  case isFalse => rfl

/- The negation of a number is a number of the same format. -/
theorem unpack_pack_neg
    (b : BitVec 64) :
    UnpackedFloat.unpack .binary64 (UnpackedFloat.pack .binary64
        (UnpackedFloat.unpack .binary64 b).neg) =
      (UnpackedFloat.unpack .binary64 b).neg := by
  have hParts :=
    @packComponents_unpackSign_unpackExponent_unpackMantissa .binary64 b
  rw [← hParts, ← unpack_packComponents_neg, unpack_pack_unpack]

theorem unpack_neg
    (x : Float) :
    (-x).toModel.unpack = x.toModel.unpack.neg :=
  unpack_pack_neg x.toModel.toBits.toBitVec

end Double

end QuantumLab

------------------------------------------------------------
-- Laws of floating point numbers
------------------------------------------------------------

namespace QuantumLab

open Arithmetic

instance : Comparable Float where
  less_of_atMost_of_less hFirst hSecond := by
    rw [Double.atMost_iff_rank] at hFirst
    rw [Double.less_iff_rank] at *
    rcases hFirst with ⟨r, hRank, s, hMid, hAtMost⟩
    rcases hSecond with ⟨s', hMid', t, hLast, hLess⟩
    cases hMid.symm.trans hMid'
    exact ⟨r, hRank, t, hLast, hAtMost.trans_lt hLess⟩
  less_of_less_of_atMost hFirst hSecond := by
    rw [Double.atMost_iff_rank] at hSecond
    rw [Double.less_iff_rank] at *
    rcases hFirst with ⟨r, hRank, s, hMid, hLess⟩
    rcases hSecond with ⟨s', hMid', t, hLast, hAtMost⟩
    cases hMid.symm.trans hMid'
    exact ⟨r, hRank, t, hLast, hLess.trans_le hAtMost⟩
  atMost_neg {x y} hAtMost := by
    rw [atMost, Bool.or_eq_true, Double.less_float, Double.beq_float]
      at *
    rw [Double.unpack_neg, Double.unpack_neg, Double.compare_neg_neg]
    exact hAtMost

end QuantumLab
