import QuantumLab.Proofs.Arithmetic.Comparison

/-
  This file says what comparisons say of values that are no
  numbers.  Every comparison with such a value is false, so
  that a bound that is tested for being exceeded does not
  turn it down.

  Key definitions include:
    * `Trichotomous`
    * `Unrefuted`

  Main statements:
    * `less_eq_false_iff` says what it means that a comparison
      fails.
    * `unrefuted_foldl_atLeast_iff` says which values a
      running maximum shows.
    * the instances of `Trichotomous` for `ℝ` and `Float`
-/

------------------------------------------------------------
-- Comparisons that fail
------------------------------------------------------------

namespace QuantumLab

open Arithmetic

/-
  Of two numbers one is less, or the other is at most it.
  Only numbers compare, and none is less than itself.
-/
class Trichotomous (R : Type) [Arithmetic R] : Prop
    extends Comparable R where
  less_irrefl :
    ∀ x : R, less x x = false
  defined_of_atMost :
    ∀ {x y : R}, atMost x y = true →
      isNaN x = false ∧ isNaN y = false
  less_or_atMost :
    ∀ {x y : R}, isNaN x = false → isNaN y = false →
      less x y = true ∨ atMost y x = true

variable {R : Type} [Arithmetic R]

/- A value is at most a bound, unless one of them is no number. -/
def Unrefuted (x bound : R) : Prop :=
  atMost x bound = true ∨ isNaN x = true ∨ isNaN bound = true

instance (x bound : R) : Decidable (Unrefuted x bound) :=
  inferInstanceAs (Decidable (_ ∨ _ ∨ _))

theorem atMost_of_less
    {x y : R}
    (hLess : less x y = true) :
    atMost x y = true := by
  rw [atMost, hLess, Bool.true_or]

variable [Trichotomous R]

open Trichotomous Comparable

/- A test for an excess leaves what is no number alone. -/
theorem less_eq_false_iff
    {x bound : R} :
    less bound x = false ↔ Unrefuted x bound := by
  constructor
  · intro hNotLess
    by_cases hValue : isNaN x = true
    · exact .inr (.inl hValue)
    · by_cases hBound : isNaN bound = true
      · exact .inr (.inr hBound)
      · rw [Bool.not_eq_true] at hValue hBound
        rcases less_or_atMost hBound hValue with hLess | hAtMost
        · rw [hNotLess] at hLess
          cases hLess
        · exact .inl hAtMost
  · intro hUnrefuted
    rw [← Bool.not_eq_true]
    intro hLess
    have hDefined := defined_of_atMost (atMost_of_less hLess)
    rcases hUnrefuted with hAtMost | hValue | hBound
    · have hItself := less_of_less_of_atMost hLess hAtMost
      rw [less_irrefl] at hItself
      cases hItself
    · rw [hDefined.2] at hValue
      cases hValue
    · rw [hDefined.1] at hBound
      cases hBound

------------------------------------------------------------
-- Running maxima
------------------------------------------------------------

/- A maximum that starts from no number stays there. -/
theorem foldl_atLeast_undefined
    {first : R}
    (hFirst : isNaN first = true)
    (rest : List R) :
    rest.foldl atLeast first = first := by
  induction rest with
  | nil => rfl
  | cons x rest ih =>
      have hNotLess : less first x = false :=
        less_eq_false_iff.2 (.inr (.inr hFirst))
      rw [List.foldl_cons, atLeast, hNotLess]
      exact ih

/- A maximum that starts from a number passes over what is none. -/
theorem unrefuted_foldl_atLeast_iff
    {first bound : R}
    (hFirst : isNaN first = false)
    (rest : List R) :
    Unrefuted (rest.foldl atLeast first) bound ↔
      ∀ x ∈ first :: rest, Unrefuted x bound := by
  induction rest generalizing first with
  | nil => simp
  | cons x rest ih =>
      rw [List.foldl_cons, atLeast]
      by_cases hLess : less first x = true
      · have hDefined := (defined_of_atMost (atMost_of_less hLess)).2
        rw [if_pos hLess, ih hDefined]
        -- What started the maximum is below what replaces it.
        have hBelow : Unrefuted x bound → Unrefuted first bound := by
          rw [← less_eq_false_iff, ← less_eq_false_iff,
            ← Bool.not_eq_true, ← Bool.not_eq_true]
          intro hKept hExceeds
          exact hKept
            (less_of_less_of_atMost hExceeds (atMost_of_less hLess))
        constructor
        · intro hRest
          exact List.forall_mem_cons.2
            ⟨hBelow (hRest x List.mem_cons_self), hRest⟩
        · intro hAll
          exact (List.forall_mem_cons.1 hAll).2
      · rw [if_neg hLess, ih hFirst]
        rw [Bool.not_eq_true, less_eq_false_iff] at hLess
        -- What is passed over is no number, or it is not above the rest.
        have hPassed : Unrefuted first bound → Unrefuted x bound := by
          intro hKept
          rcases hLess with hAtMost | hValue | hStart
          · rw [← less_eq_false_iff, ← Bool.not_eq_true] at hKept ⊢
            intro hExceeds
            exact hKept (less_of_less_of_atMost hExceeds hAtMost)
          · exact .inr (.inl hValue)
          · rw [hFirst] at hStart
            cases hStart
        rw [List.forall_mem_cons, List.forall_mem_cons,
          List.forall_mem_cons]
        constructor
        · rintro ⟨hKept, hRest⟩
          exact ⟨hKept, hPassed hKept, hRest⟩
        · rintro ⟨hKept, _, hRest⟩
          exact ⟨hKept, hRest⟩

------------------------------------------------------------
-- Exact and floating point numbers
------------------------------------------------------------

noncomputable instance : Trichotomous ℝ where
  less_irrefl x := by
    rw [less_real, decide_eq_false_iff_not]
    exact lt_irrefl x
  defined_of_atMost _ := ⟨isNaN_real _, isNaN_real _⟩
  less_or_atMost {x y} _ _ := by
    rw [less_real, decide_eq_true_eq, atMost_real]
    exact lt_or_ge x y

/- A floating point number is a number if it has a rank. -/
theorem Double.isNaN_eq_false_iff
    {x : Float} :
    isNaN x = false ↔ ∃ r, Double.rank? x.toModel.unpack = some r := by
  rw [isNaN, Bool.not_eq_false', Double.beq_float,
    Double.compare_eq_eq_iff]
  constructor
  · rintro ⟨r, hRank, _⟩
    exact ⟨r, hRank⟩
  · rintro ⟨r, hRank⟩
    exact ⟨r, hRank, r, hRank, rfl⟩

instance : Trichotomous Float where
  less_irrefl x := by
    rw [← Bool.not_eq_true, Double.less_iff_rank]
    rintro ⟨r, hRank, s, hSame, hLess⟩
    cases hRank.symm.trans hSame
    exact lt_irrefl r hLess
  defined_of_atMost hAtMost := by
    rw [Double.atMost_iff_rank] at hAtMost
    rcases hAtMost with ⟨r, hFirst, s, hSecond, _⟩
    exact ⟨Double.isNaN_eq_false_iff.2 ⟨r, hFirst⟩,
      Double.isNaN_eq_false_iff.2 ⟨s, hSecond⟩⟩
  less_or_atMost hFirst hSecond := by
    rw [Double.isNaN_eq_false_iff] at hFirst hSecond
    rcases hFirst with ⟨r, hFirst⟩
    rcases hSecond with ⟨s, hSecond⟩
    rw [Double.less_iff_rank, Double.atMost_iff_rank]
    rcases lt_or_ge r s with hLess | hAtMost
    · exact .inl ⟨r, hFirst, s, hSecond, hLess⟩
    · exact .inr ⟨s, hSecond, r, hFirst, hAtMost⟩

end QuantumLab
