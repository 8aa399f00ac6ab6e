import QuantumLab.Proofs.Arithmetic.Undefined
import QuantumLab.Proofs.Validation.Grids
import QuantumLab.Proofs.Validation.Hermiticity

/-
  This file says which deviations the physical checks accept.
  A check turns its subject down if the deviation exceeds the
  tolerance, so a deviation that is no number is accepted.
  The check of time grids asks for every step to be positive
  instead, and accepts numbers alone.

  Key definitions include:
    * `Mat.total`

  Main statements:
    * `requireWithin_eq_ok_iff_unrefuted` says which deviations
      are accepted.
    * `Mat.unrefuted_largestModulus_iff` says which entries of
      a matrix its largest modulus speaks of.
    * `accepted_iff_unrefuted` says when each of the checks
      accepts its subject.
-/

------------------------------------------------------------
-- Largest moduli
------------------------------------------------------------

namespace QuantumLab

open Arithmetic

variable {R : Type} [Arithmetic R]

namespace Mat

theorem toList_entries
    {a : Mat R}
    (hRows : 0 < a.rows)
    (hCols : 0 < a.cols) :
    ∃ rest, a.entries.toList = a.entry 0 0 :: rest := by
  have hSize : 0 < a.entries.size := by
    rw [a.size_eq]
    exact Nat.mul_pos hRows hCols
  have hFirst : a.entry 0 0 = a.entries[0] := by
    simp [entry, hRows, hCols, hSize]
  cases hList : a.entries.toList with
  | nil =>
      rw [← Array.length_toList, hList] at hSize
      exact absurd hSize (Nat.lt_irrefl 0)
  | cons z rest =>
      refine ⟨rest, ?_⟩
      rw [hFirst, ← Array.getElem_toList]
      simp only [hList, List.getElem_cons_zero]

/-
  If the first entry is no number, the largest modulus says
  nothing of the others.  Otherwise it passes over those that
  are no numbers.
-/
theorem unrefuted_largestModulus_iff
    [Trichotomous R]
    {a : Mat R}
    {bound : R}
    (hRows : 0 < a.rows)
    (hCols : 0 < a.cols) :
    Unrefuted a.largestModulus bound ↔
      isNaN (a.entry 0 0).modulus = true ∨
        ∀ i < a.rows, ∀ j < a.cols,
          Unrefuted (a.entry i j).modulus bound := by
  rcases toList_entries hRows hCols with ⟨rest, hList⟩
  have hModulus : a.largestModulus =
      (rest.map Scalar.modulus).foldl atLeast (a.entry 0 0).modulus := by
    rw [largestModulus, hList, List.map_cons]
  by_cases hFirst : isNaN (a.entry 0 0).modulus = true
  · rw [hModulus, foldl_atLeast_undefined hFirst]
    exact ⟨fun _ => .inl hFirst, fun _ => .inr (.inl hFirst)⟩
  · have hEntries : (∀ x ∈ (a.entry 0 0).modulus ::
          rest.map Scalar.modulus, Unrefuted x bound) ↔
        ∀ i < a.rows, ∀ j < a.cols,
          Unrefuted (a.entry i j).modulus bound := by
      rw [← List.map_cons, ← hList, List.forall_mem_map]
      constructor
      · intro hAll i hRow j hCol
        exact hAll _ (mem_entries_iff.2 ⟨i, hRow, j, hCol, rfl⟩)
      · intro hAll z hMember
        rcases mem_entries_iff.1 hMember with ⟨i, hRow, j, hCol, rfl⟩
        exact hAll i hRow j hCol
    rw [hModulus,
      unrefuted_foldl_atLeast_iff (Bool.not_eq_true _ ▸ hFirst), hEntries]
    exact (or_iff_right hFirst).symm

/- The sum of matrices of the extents of the first. -/
def total (operators : List (Mat R)) : Mat R :=
  match operators with
  | [] => zero 0 0
  | first :: _ => operators.foldl (· + ·) (zero first.rows first.cols)

end Mat

end QuantumLab

------------------------------------------------------------
-- Checks of deviations
------------------------------------------------------------

namespace QuantumLab

open Arithmetic

variable
  {R : Type}
  [Arithmetic R]
  {tolerance : R}
  {name : String}

/- Matrices are added up one by one if their extents are the same. -/
theorem sumOperators_eq_ok_iff
    {start total : Mat R}
    {operators : List (Mat R)} :
    sumOperators name start operators = .ok total ↔
      (∀ p ∈ operators, p.shape = start.shape) ∧
        operators.foldl (· + ·) start = total := by
  induction operators generalizing start with
  | nil => simp [sumOperators]
  | cons p rest ih =>
      rw [sumOperators, List.forall_mem_cons, List.foldl_cons]
      by_cases hSame : p.sameExtents start = true
      · rw [if_pos hSame, ih, Mat.shape_add]
        rw [Mat.sameExtents_eq_true_iff] at hSame
        simp [hSame]
      · rw [if_neg hSame]
        rw [Mat.sameExtents_eq_true_iff] at hSame
        simp [hSame]

theorem Mat.shape_foldl_add
    (start : Mat R)
    (operators : List (Mat R)) :
    (operators.foldl (· + ·) start).shape = start.shape := by
  induction operators generalizing start with
  | nil => rfl
  | cons p rest ih => rw [List.foldl_cons, ih, Mat.shape_add]

variable [Trichotomous R]

/- A deviation is accepted unless it exceeds the tolerance. -/
theorem requireWithin_eq_ok_iff_unrefuted
    {deviation : R}
    {invariant : Invariant}
    {detail : String} :
    requireWithin tolerance deviation invariant name detail = .ok () ↔
      Unrefuted deviation tolerance := by
  rw [requireWithin_eq_ok_iff, less_eq_false_iff]

theorem requireHermitian_eq_ok_iff_unrefuted
    {a : Mat R} :
    requireHermitian tolerance name a = .ok () ↔
      a.rows = a.cols ∧ Unrefuted a.hermiticityGap tolerance := by
  rw [requireHermitian_eq_ok_iff, less_eq_false_iff]

theorem requireUnitTrace_eq_ok_iff
    {a : Mat R}
    {z : Scalar R} :
    requireUnitTrace tolerance name a = .ok z ↔
      a.rows = a.cols ∧ a.trace = z ∧
        Unrefuted (abs (z.re - 1.0)) tolerance := by
  constructor
  · intro hCheck
    rcases bind_eq_ok_iff.1 hCheck with ⟨trace, hTrace, hRest⟩
    rcases unit_bind_eq_ok_iff.1 hRest with ⟨hWithin, hDone⟩
    cases pure_eq_ok_iff.1 hDone
    rcases Guarded.trace_eq_ok_iff.1 hTrace with ⟨hSquare, hSame⟩
    exact ⟨hSquare, hSame, requireWithin_eq_ok_iff_unrefuted.1 hWithin⟩
  · rintro ⟨hSquare, hSame, hWithin⟩
    refine bind_eq_ok_iff.2
      ⟨z, Guarded.trace_eq_ok_iff.2 ⟨hSquare, hSame⟩, ?_⟩
    exact unit_bind_eq_ok_iff.2
      ⟨requireWithin_eq_ok_iff_unrefuted.2 hWithin, rfl⟩

theorem requireNormalized_eq_ok_iff
    {ket : Vec R} :
    requireNormalized tolerance name ket = .ok () ↔
      Unrefuted (abs (ket.squaredNorm - 1.0)) tolerance :=
  requireWithin_eq_ok_iff_unrefuted

theorem requireProjector_eq_ok_iff
    {p : Mat R} :
    requireProjector tolerance name p = .ok () ↔
      p.rows = p.cols ∧ Unrefuted p.hermiticityGap tolerance ∧
        Unrefuted (p * p - p).largestModulus tolerance := by
  rw [requireProjector, unit_bind_eq_ok_iff,
    requireHermitian_eq_ok_iff_unrefuted, requireWithin_eq_ok_iff_unrefuted,
    and_assoc]

theorem requireEach_eq_ok_iff
    {k : Nat}
    {operators : List (Mat R)} :
    requireEach (requireProjector tolerance) name k operators =
        .ok () ↔
      ∀ p ∈ operators, p.rows = p.cols ∧
        Unrefuted p.hermiticityGap tolerance ∧
          Unrefuted (p * p - p).largestModulus tolerance := by
  induction operators generalizing k with
  | nil => simp [requireEach]
  | cons p rest ih =>
      rw [requireEach, unit_bind_eq_ok_iff, List.forall_mem_cons,
        requireProjector_eq_ok_iff, ih]

theorem requireComplete_eq_ok_iff
    {operators : List (Mat R)} :
    requireComplete tolerance name operators = .ok () ↔
      operators ≠ [] ∧
        (∀ p ∈ operators, p.shape = (Mat.total operators).shape) ∧
        Unrefuted (Mat.total operators -
          Mat.identity (Mat.total operators).rows).largestModulus
            tolerance := by
  cases operators with
  | nil => simp [requireComplete]
  | cons first rest =>
      have hShape : (Mat.total (first :: rest)).shape =
          (Mat.zero first.rows first.cols).shape :=
        Mat.shape_foldl_add _ _
      rw [requireComplete, bind_eq_ok_iff, hShape,
        and_iff_right (List.cons_ne_nil first rest)]
      simp only [sumOperators_eq_ok_iff, requireWithin_eq_ok_iff_unrefuted]
      constructor
      · rintro ⟨_, ⟨hSame, rfl⟩, hWithin⟩
        exact ⟨hSame, hWithin⟩
      · rintro ⟨hSame, hWithin⟩
        exact ⟨_, ⟨hSame, rfl⟩, hWithin⟩

theorem requireProjective_eq_ok_iff
    {operators : List (Mat R)} :
    requireProjective tolerance name operators = .ok () ↔
      operators ≠ [] ∧
        (∀ p ∈ operators, p.rows = p.cols ∧
          p.shape = (Mat.total operators).shape ∧
          Unrefuted p.hermiticityGap tolerance ∧
          Unrefuted (p * p - p).largestModulus tolerance) ∧
        Unrefuted (Mat.total operators -
          Mat.identity (Mat.total operators).rows).largestModulus
            tolerance := by
  rw [requireProjective, unit_bind_eq_ok_iff, requireEach_eq_ok_iff,
    requireComplete_eq_ok_iff]
  constructor
  · rintro ⟨hEach, hSome, hSame, hWithin⟩
    refine ⟨hSome, fun p hMember => ?_, hWithin⟩
    rcases hEach p hMember with ⟨hSquare, hGap, hSquared⟩
    exact ⟨hSquare, hSame p hMember, hGap, hSquared⟩
  · rintro ⟨hSome, hEach, hWithin⟩
    refine ⟨fun p hMember => ?_, hSome, fun p hMember => ?_, hWithin⟩
    · rcases hEach p hMember with ⟨hSquare, _, hGap, hSquared⟩
      exact ⟨hSquare, hGap, hSquared⟩
    · exact (hEach p hMember).2.1

namespace Validator

/- A rate is accepted unless it is negative, or cannot be evaluated yet. -/
theorem requireTerm_eq_ok_iff
    {v : Validator R}
    {experiment : String}
    {term : LindbladTerm R} :
    v.requireTerm experiment term = .ok () ↔
      (∃ a?, v.referencedMatrix "Lindblad operator" term.operator =
        .ok a?) ∧
      ((∃ rate, v.environment.evaluateReal (rateUsage term.operator)
          term.rate = .ok rate ∧ Unrefuted 0.0 rate) ∨
        ∃ fault, v.environment.evaluateReal (rateUsage term.operator)
          term.rate = .error fault ∧ fault.isUnsupported = true) := by
  rw [requireTerm, bind_eq_ok_iff, ← exists_and_right]
  refine exists_congr fun a? => and_congr_right fun _ => ?_
  cases v.environment.evaluateReal (rateUsage term.operator)
    term.rate with
  | ok rate =>
      simp only [Except.ok.injEq, exists_eq_left', reduceCtorEq,
        false_and, exists_false, or_false]
      rw [← less_eq_false_iff]
      by_cases hNegative : less rate 0.0 = true
      · simp [hNegative]
      · simp [hNegative]
  | error fault =>
      by_cases hUnsupported : fault.isUnsupported = true
      · simp [hUnsupported]
      · simp [hUnsupported]

/- A time grid is accepted if every step is a positive number. -/
theorem requireAscendingGrid_eq_ok_iff_defined
    {experiment : String}
    {grid : TimeGrid R} :
    requireAscendingGrid experiment grid = .ok () ↔
      grid.times ≠ [] ∧ grid.times.IsChain fun a b =>
        less 0.0 (b - a) = true ∧ isNaN (b - a) = false := by
  have hStep : ∀ a b : R, IsForward a b ↔
      less 0.0 (b - a) = true ∧ isNaN (b - a) = false := by
    intro a b
    refine (and_iff_left_of_imp fun hForward => ?_).symm
    exact (Trichotomous.defined_of_atMost (atMost_of_less hForward)).2
  simp only [requireAscendingGrid_eq_ok_iff, requireAscending_eq_ok_iff,
    ← hStep]

end Validator

end QuantumLab

------------------------------------------------------------
-- Acceptance
------------------------------------------------------------

namespace QuantumLab

open Arithmetic

variable {R : Type} [Arithmetic R] [Trichotomous R]

/-
  What each of the checks accepts.  Apart from extents, an
  operator, a state, a measurement or a rate is accepted if
  and only if the bound on each measured quantity is kept or
  one of the two is no number.  Every step of a time grid has
  to be a number, and positive.

  A largest modulus is itself no number only if its first
  entry is none, and then it does not speak of the others; it
  never speaks of later entries that are no numbers.
-/
theorem accepted_iff_unrefuted
    (tolerance : R) :
    (∀ (name : String) (a : Mat R),
      requireHermitian tolerance name a = .ok () ↔
        a.rows = a.cols ∧ Unrefuted a.hermiticityGap tolerance) ∧
    (∀ (name : String) (a : Mat R) (z : Scalar R),
      requireUnitTrace tolerance name a = .ok z ↔
        a.rows = a.cols ∧ a.trace = z ∧
          Unrefuted (abs (z.re - 1.0)) tolerance) ∧
    (∀ (name : String) (ket : Vec R),
      requireNormalized tolerance name ket = .ok () ↔
        Unrefuted (abs (ket.squaredNorm - 1.0)) tolerance) ∧
    (∀ (name : String) (operators : List (Mat R)),
      requireProjective tolerance name operators = .ok () ↔
        operators ≠ [] ∧
        (∀ p ∈ operators, p.rows = p.cols ∧
          p.shape = (Mat.total operators).shape ∧
          Unrefuted p.hermiticityGap tolerance ∧
          Unrefuted (p * p - p).largestModulus tolerance) ∧
        Unrefuted (Mat.total operators -
          Mat.identity (Mat.total operators).rows).largestModulus
            tolerance) ∧
    (∀ (v : Validator R) (experiment : String) (term : LindbladTerm R),
      v.requireTerm experiment term = .ok () ↔
        (∃ a?, v.referencedMatrix "Lindblad operator" term.operator =
          .ok a?) ∧
        ((∃ rate, v.environment.evaluateReal
            (Validator.rateUsage term.operator) term.rate = .ok rate ∧
              Unrefuted 0.0 rate) ∨
          ∃ fault, v.environment.evaluateReal
            (Validator.rateUsage term.operator) term.rate =
              .error fault ∧ fault.isUnsupported = true)) ∧
    (∀ (experiment : String) (grid : TimeGrid R),
      Validator.requireAscendingGrid experiment grid = .ok () ↔
        grid.times ≠ [] ∧ grid.times.IsChain fun a b =>
          less 0.0 (b - a) = true ∧ isNaN (b - a) = false) ∧
    (∀ (a : Mat R) (bound : R), 0 < a.rows → 0 < a.cols →
      (Unrefuted a.largestModulus bound ↔
        isNaN (a.entry 0 0).modulus = true ∨
          ∀ i < a.rows, ∀ j < a.cols,
            Unrefuted (a.entry i j).modulus bound)) :=
  ⟨fun _ _ => requireHermitian_eq_ok_iff_unrefuted,
    fun _ _ _ => requireUnitTrace_eq_ok_iff,
    fun _ _ => requireNormalized_eq_ok_iff,
    fun _ _ => requireProjective_eq_ok_iff,
    fun _ _ _ => Validator.requireTerm_eq_ok_iff,
    fun _ _ => Validator.requireAscendingGrid_eq_ok_iff_defined,
    fun _ _ => Mat.unrefuted_largestModulus_iff⟩

/- A ket that is no ket: its norm is no number. -/
def undefinedKet : Vec Float :=
  ⟨#[⟨nan, 0⟩, ⟨0, 0⟩]⟩

/- A matrix whose second entry is no number. -/
def partlyDefined : Mat Float :=
  Mat.ofEntries 1 2 #[⟨0, 0⟩, ⟨nan, 0⟩]

/-
  The norm of the ket is not refuted, so the ket is accepted.
  The largest modulus of the matrix passes over what is no
  number.
-/
theorem accepted_iff_unrefuted_undefinedKet :
    requireNormalized (1e-10 : Float) "psi" undefinedKet = .ok () ∧
      Unrefuted partlyDefined.largestModulus (1e-10 : Float) := by
  rcases accepted_iff_unrefuted (1e-10 : Float) with
    ⟨_, _, hNormalized, _, _, _, hModulus⟩
  constructor
  · exact (hNormalized "psi" undefinedKet).2 (by decide +kernel)
  · exact (hModulus partlyDefined 1e-10 (by decide) (by decide)).2
      (.inr (by decide +kernel))

/- The product of two large numbers, which overflows. -/
def overflow : Expr Float :=
  .binary .multiply (.number ⟨1e200, 0⟩) (.number ⟨1e200, 0⟩)

/- A ket with an amplitude that is the difference of two overflows. -/
def undefinedAmplitude : Expr Float :=
  .vector [.binary .subtract overflow overflow, .number ⟨0, 0⟩]

/- An experiment that starts in that ket. -/
def undefinedStart : Statement Float :=
  .experiment
    ⟨"spin", some ⟨.ket, undefinedAmplitude⟩, none,
      [⟨0, "sigma_z"⟩]⟩

/- What the product comes to, and what the difference does. -/
def overflowed : Scalar Float :=
  ⟨1e200, 0⟩ * (⟨1e200, 0⟩ : Scalar Float)

def undefinedDifference : Scalar Float :=
  overflowed + Scalar.ofReal (-(1.0 : Float)) * overflowed

/- A matrix whose only entry is no number. -/
def undefinedMatrix : Mat Float :=
  Mat.ofEntries 1 1 #[⟨nan, 0⟩]

/-
  The program is accepted although no norm of its ket is
  defined.  So are a matrix, as an operator, as a state and as
  a projector, and a rate; none of them keeps its bound.  A
  step of a time grid that is no number is turned down.
-/
theorem undefined_deviations_accepted :
    (∃ typed validated ket,
      Program.typed [undefinedStart] = .ok typed ∧
      typed.validated defaultValidationTolerance = .ok validated ∧
      Environment.initial.evaluate undefinedAmplitude =
        .ok (.vector ket) ∧
      atMost (abs (ket.squaredNorm - (1.0 : Float)))
        defaultValidationTolerance = false) ∧
    ((requireHermitian (1e-10 : Float) "a"
        undefinedMatrix).toOption.isSome ∧
      atMost undefinedMatrix.hermiticityGap 1e-10 = false) ∧
    ((requireUnitTrace (1e-10 : Float) "a"
        undefinedMatrix).toOption.isSome ∧
      atMost (abs (undefinedMatrix.trace.re - 1.0)) 1e-10 = false) ∧
    ((requireProjective (1e-10 : Float) "a"
        [undefinedMatrix]).toOption.isSome ∧
      atMost (undefinedMatrix * undefinedMatrix -
        undefinedMatrix).largestModulus 1e-10 = false) ∧
    (((Validator.initial : Validator Float).requireTerm "spin"
        ⟨"sigma_x", .number ⟨nan, 0⟩⟩).toOption.isSome ∧
      atMost 0.0 (nan : Float) = false) ∧
    (Validator.requireAscendingGrid "spin"
      (.points [0, (nan : Float)])).toOption = none := by
  have hAccepted : (do
      let typed ← (Program.typed [undefinedStart]).toOption
      let _ ← (typed.validated defaultValidationTolerance).toOption
      return ()) = some () := by
    decide +kernel
  have hKet : Environment.initial.evaluate undefinedAmplitude =
      .ok (.vector ⟨#[undefinedDifference, ⟨0, 0⟩]⟩) := rfl
  simp only [Option.bind_eq_bind, Option.bind_eq_some_iff,
    toOption_eq_some_iff] at hAccepted
  rcases hAccepted with ⟨typed, hTyped, validated, hValidated, _⟩
  refine ⟨⟨typed, validated, _, hTyped, hValidated, hKet, ?_⟩, ?_⟩
  · decide +kernel
  · decide +kernel

end QuantumLab
