import Mathlib.Data.List.Chain
import QuantumLab.Proofs.Outcome
import QuantumLab.Validation.Validator

/-
  This file says which times pass the checks of time grids:
  that of the validation and that before an evolution.  Both
  walk over the steps of the times, and both report the
  first one that does not lead forward.

  Key definitions include:
    * `IsForward`
    * `FirstBreak`

  Main statements:
    * `firstUnorderedFrom?_eq_none_iff` and
      `firstUnorderedFrom?_eq_some_iff` say which step is
      found.
    * `requireAscending_eq_ok_iff` and
      `requireAscending_eq_error_iff` say how the check
      before an evolution ends.
    * `Validator.requireAscendingGrid_eq_ok_iff` and
      `Validator.requireAscendingGrid_eq_error_iff` say how
      that of the validation ends.
-/

------------------------------------------------------------
-- The first break
------------------------------------------------------------

namespace QuantumLab

variable {α : Type}

/-
  Member `k` of a list is the first that is not related to
  the next one.
-/
structure FirstBreak
    (P : α → α → Prop)
    (xs : List α)
    (k : Nat)
    (a b : α) : Prop where
  first : xs[k]? = some a
  second : xs[k + 1]? = some b
  broken : ¬ P a b
  before : (xs.take (k + 1)).IsChain P

variable
  {P : α → α → Prop}
  {x y a b : α}
  {rest : List α}
  {k : Nat}

theorem FirstBreak.here
    (hBroken : ¬ P x y) :
    FirstBreak P (x :: y :: rest) 0 x y :=
  ⟨rfl, rfl, hBroken, List.isChain_singleton x⟩

theorem FirstBreak.later
    (hRelated : P x y)
    (hBreak : FirstBreak P (y :: rest) k a b) :
    FirstBreak P (x :: y :: rest) (k + 1) a b where
  first := hBreak.first
  second := hBreak.second
  broken := hBreak.broken
  before := .cons_cons hRelated hBreak.before

/- A break is at the first two members or after the first. -/
theorem FirstBreak.here_or_later
    (hBreak : FirstBreak P (x :: y :: rest) k a b) :
    (k = 0 ∧ a = x ∧ b = y ∧ ¬ P x y) ∨
      ∃ j, k = j + 1 ∧ P x y ∧ FirstBreak P (y :: rest) j a b := by
  rcases hBreak with ⟨hFirst, hSecond, hBroken, hBefore⟩
  cases k with
  | zero =>
      cases hFirst
      cases hSecond
      exact .inl ⟨rfl, rfl, rfl, hBroken⟩
  | succ j =>
      rcases List.isChain_cons_cons.1 hBefore with ⟨hRelated, hRest⟩
      exact .inr ⟨j, rfl, hRelated, hFirst, hSecond, hBroken, hRest⟩

/- There is no break after a single member. -/
theorem not_firstBreak_singleton :
    ¬ FirstBreak P [x] k a b :=
  fun hBreak => nomatch hBreak.second

end QuantumLab

------------------------------------------------------------
-- Steps of times
------------------------------------------------------------

namespace QuantumLab

open Arithmetic

variable {R : Type} [Arithmetic R]

/- A step leads forward in time: its length is above zero. -/
def IsForward (a b : R) : Prop :=
  less 0.0 (b - a) = true

/- No step is found if all of them lead forward. -/
theorem firstUnorderedFrom?_eq_none_iff
    {k : Nat}
    {times : List R} :
    firstUnorderedFrom? k times = none ↔ times.IsChain IsForward := by
  induction times generalizing k with
  | nil => simp [firstUnorderedFrom?]
  | cons x rest ih =>
      cases rest with
      | nil => simp [firstUnorderedFrom?]
      | cons y rest =>
          rw [firstUnorderedFrom?, List.isChain_cons_cons, ← @ih (k + 1)]
          by_cases hForward : less 0.0 (y - x) = true
          · simp [IsForward, hForward]
          · simp [IsForward, hForward]

/- The step that is found is the first that does not lead forward. -/
theorem firstUnorderedFrom?_eq_some_iff
    {k step : Nat}
    {times : List R}
    {length : R} :
    firstUnorderedFrom? k times = some (step, length) ↔
      ∃ j a b, FirstBreak IsForward times j a b ∧
        step = k + j ∧ length = b - a := by
  induction times generalizing k with
  | nil =>
      constructor
      · exact nofun
      · rintro ⟨j, a, b, hBreak, _⟩
        exact nomatch hBreak.first
  | cons x rest ih =>
      cases rest with
      | nil =>
          constructor
          · exact nofun
          · rintro ⟨j, a, b, hBreak, _⟩
            exact absurd hBreak not_firstBreak_singleton
      | cons y rest =>
          rw [firstUnorderedFrom?]
          split
          · next hForward =>
            rw [ih]
            constructor
            · rintro ⟨j, a, b, hBreak, rfl, hLength⟩
              exact ⟨j + 1, a, b, hBreak.later hForward,
                by omega, hLength⟩
            · rintro ⟨j, a, b, hBreak, hStep, hLength⟩
              rcases hBreak.here_or_later with
                ⟨_, _, _, hBroken⟩ | ⟨i, rfl, _, hLater⟩
              · exact absurd hForward hBroken
              · exact ⟨i, a, b, hLater, by omega, hLength⟩
          · next hBroken =>
            constructor
            · intro hFound
              cases hFound
              exact ⟨0, x, y, .here hBroken, rfl, rfl⟩
            · rintro ⟨j, a, b, hBreak, hStep, hLength⟩
              rcases hBreak.here_or_later with
                ⟨rfl, rfl, rfl, _⟩ | ⟨i, _, hForward, _⟩
              · rw [hStep, hLength]
                rfl
              · exact absurd hForward hBroken

theorem firstUnordered?_eq_none_iff
    {times : List R} :
    firstUnordered? times = none ↔ times.IsChain IsForward :=
  firstUnorderedFrom?_eq_none_iff

/- Steps are numbered from one. -/
theorem firstUnordered?_eq_some_iff
    {times : List R}
    {step : Nat}
    {length : R} :
    firstUnordered? times = some (step, length) ↔
      ∃ k a b, FirstBreak IsForward times k a b ∧
        step = k + 1 ∧ length = b - a := by
  simp only [firstUnordered?, firstUnorderedFrom?_eq_some_iff,
    Nat.add_comm 1]

end QuantumLab

------------------------------------------------------------
-- Checks of times
------------------------------------------------------------

namespace QuantumLab

variable {R : Type} [Arithmetic R]

/-
  The check of times that both checks of time grids make,
  given the cause to report of no times at all and of a step
  that does not lead forward.
-/
def checkTimes
    (empty : Cause R)
    (unordered : Nat → R → Cause R)
    (times : List R) : Except (Fault R) Unit :=
  if times.isEmpty then
    refuse empty
  else
    match firstUnordered? times with
    | none => .ok ()
    | some (step, length) => refuse (unordered step length)

section Checks

variable
  {empty : Cause R}
  {unordered : Nat → R → Cause R}
  {times : List R}
  {fault : Fault R}

/- Times pass if there are any and all steps lead forward. -/
theorem checkTimes_eq_ok_iff :
    checkTimes empty unordered times = .ok () ↔
      times ≠ [] ∧ times.IsChain IsForward := by
  rw [← firstUnordered?_eq_none_iff, checkTimes]
  split
  · next hEmpty => simp [List.isEmpty_iff.1 hEmpty]
  · next hNonempty =>
    rw [List.isEmpty_iff] at hNonempty
    split
    · next hFound => simp [hNonempty, hFound]
    · next hFound => simp [hFound]

/-
  Times are turned down because there are none, or with the
  number and the length of their first step that does not
  lead forward.
-/
theorem checkTimes_eq_error_iff :
    checkTimes empty unordered times = .error fault ↔
      (times = [] ∧ fault = ⟨empty, none⟩) ∨
        ∃ k a b, FirstBreak IsForward times k a b ∧
          fault = ⟨unordered (k + 1) (b - a), none⟩ := by
  have hReported :
      (∃ k a b, FirstBreak IsForward times k a b ∧
          fault = ⟨unordered (k + 1) (b - a), none⟩) ↔
        ∃ step length, firstUnordered? times = some (step, length) ∧
          fault = ⟨unordered step length, none⟩ := by
    simp only [firstUnordered?_eq_some_iff]
    constructor
    · rintro ⟨k, a, b, hBreak, hFault⟩
      exact ⟨_, _, ⟨k, a, b, hBreak, rfl, rfl⟩, hFault⟩
    · rintro ⟨_, _, ⟨k, a, b, hBreak, rfl, rfl⟩, hFault⟩
      exact ⟨k, a, b, hBreak, hFault⟩
  rw [hReported, checkTimes]
  split
  · next hEmpty =>
    rw [List.isEmpty_iff] at hEmpty
    simp [hEmpty, firstUnordered?, firstUnorderedFrom?,
      @eq_comm _ fault]
  · next hNonempty =>
    rw [List.isEmpty_iff] at hNonempty
    split
    · next hFound => simp [hNonempty, hFound]
    · next hFound => simp [hNonempty, hFound, @eq_comm _ fault]

end Checks

/- The check before an evolution. -/
theorem requireAscending_eq
    (times : List R) :
    requireAscending times =
      checkTimes .emptyTimeGrid .unorderedTimeGrid times := by
  unfold requireAscending checkTimes
  cases firstUnordered? times with
  | none => rfl
  | some found => rfl

/- The report of the validation on a step that does not lead forward. -/
def unorderedStepText (step : Nat) : String :=
  "time grid of evolution must be strictly increasing but step "
    ++ Nat.repr step ++ " is not"

/- The check of the validation reports a violated invariant. -/
theorem Validator.requireAscendingGrid_eq
    (experiment : String)
    (grid : TimeGrid R) :
    requireAscendingGrid experiment grid =
      checkTimes
        (.violation .timeOrdering experiment 0.0
          "time grid of evolution must not be empty")
        (fun step length =>
          .violation .timeOrdering experiment length
            (unorderedStepText step))
        grid.times :=
  rfl

theorem requireAscending_eq_ok_iff
    {times : List R} :
    requireAscending times = .ok () ↔
      times ≠ [] ∧ times.IsChain IsForward := by
  rw [requireAscending_eq, checkTimes_eq_ok_iff]

/- A grid is validated if and only if it can be evolved over. -/
theorem Validator.requireAscendingGrid_eq_ok_iff
    {experiment : String}
    {grid : TimeGrid R} :
    requireAscendingGrid experiment grid = .ok () ↔
      requireAscending grid.times = .ok () := by
  rw [requireAscendingGrid_eq, requireAscending_eq, checkTimes_eq_ok_iff,
    checkTimes_eq_ok_iff]

end QuantumLab
