import QuantumLab.Proofs.Exact.Measurement

/-
  This file says how the probabilities of a measurement
  depend on its operators.  In exact arithmetic they are the
  floored weights of the outcomes, divided by one positive
  number, and they sum to one unless no weight is positive.
  In any arithmetic the only failure is an operator that does
  not act on the space of the state.

  Key definitions include:
    * `Mat.overlap`
    * `Guarded.scaling`
    * `Mat.Acts`

  Main statements:
    * `Guarded.probabilities_eq_error_iff` says when there
      are no probabilities, and `Guarded.fails_probabilities`
      with what faults.
    * `Guarded.normalized_eq_map` says that weights are all
      scaled in the same way.
    * `Guarded.probabilities_distribute` says that the
      probabilities are a distribution, which is proportional
      to the floored weights.
-/

------------------------------------------------------------
-- Failures
------------------------------------------------------------

namespace QuantumLab

/- A square matrix of the shape of a state. -/
def Mat.Acts
    {R : Type}
    (p rho : Mat R) : Prop :=
  p.rows = p.cols ∧ p.shape = rho.shape

namespace Guarded

section Failures

variable
  {R : Type}
  [Arithmetic R]
  {operators : List (Mat R)}
  {rho p : Mat R}

theorem weight_eq_ok_iff
    {x : R} :
    weight rho p = .ok x ↔
      p.Acts rho ∧ Arithmetic.atLeast 0.0 (p * rho).trace.re = x := by
  rw [weight, unit_bind_eq_ok_iff, requireSameSquare_eq_ok_iff,
    pure_eq_ok_iff]
  rfl

/- There are weights exactly of operators on the space of the state. -/
theorem mapM_weight_eq_ok_iff
    {weights : List R} :
    operators.mapM (weight rho) = .ok weights ↔
      (∀ p ∈ operators, p.Acts rho) ∧
        (operators.map fun p =>
          Arithmetic.atLeast 0.0 (p * rho).trace.re) = weights := by
  rw [mapM_eq_ok_iff]
  constructor
  · intro hWeights
    induction hWeights with
    | nil => simp
    | cons hWeight _ ih =>
        rcases weight_eq_ok_iff.1 hWeight with ⟨hActs, hValue⟩
        exact ⟨List.forall_mem_cons.2 ⟨hActs, ih.1⟩,
          List.cons_eq_cons.2 ⟨hValue, ih.2⟩⟩
  · rintro ⟨hActs, rfl⟩
    exact List.forall₂_map_right_iff.2 (List.forall₂_same.2
      fun p hMember => weight_eq_ok_iff.2 ⟨hActs p hMember, rfl⟩)

theorem probabilities_eq_ok_iff
    {ps : List R} :
    probabilities operators rho = .ok ps ↔
      (∀ p ∈ operators, p.Acts rho) ∧
        normalized (operators.map fun p =>
          Arithmetic.atLeast 0.0 (p * rho).trace.re) = ps := by
  rw [probabilities, bind_eq_ok_iff]
  constructor
  · rintro ⟨weights, hWeights, hNormalized⟩
    rcases mapM_weight_eq_ok_iff.1 hWeights with ⟨hActs, rfl⟩
    exact ⟨hActs, pure_eq_ok_iff.1 hNormalized⟩
  · rintro ⟨hActs, hNormalized⟩
    exact ⟨_, mapM_weight_eq_ok_iff.2 ⟨hActs, rfl⟩,
      pure_eq_ok_iff.2 hNormalized⟩

/- There are no probabilities exactly if an operator does not act. -/
theorem probabilities_eq_error_iff :
    (∃ fault, probabilities operators rho = .error fault) ↔
      ∃ p ∈ operators, p.rows ≠ p.cols ∨ p.shape ≠ rho.shape := by
  have hNeither : (∃ p ∈ operators, p.rows ≠ p.cols ∨
      p.shape ≠ rho.shape) ↔ ¬ ∀ p ∈ operators, p.Acts rho := by
    simp [Mat.Acts, imp_iff_not_or]
  rw [hNeither]
  cases hProbabilities : probabilities operators rho with
  | ok ps =>
      have hActs := (probabilities_eq_ok_iff.1 hProbabilities).1
      simpa using hActs
  | error fault =>
      refine iff_of_true ⟨fault, rfl⟩ fun hActs => ?_
      rw [probabilities_eq_ok_iff.2 ⟨hActs, rfl⟩] at hProbabilities
      cases hProbabilities

/- Every failure is a mismatch of dimensions. -/
theorem fails_probabilities :
    Fails (fun fault => fault.kind = .dimensionMismatch)
      (probabilities operators rho) := by
  have hWeight (p : Mat R) :
      Fails (fun fault : Fault R => fault.kind = .dimensionMismatch)
        (weight rho p) := by
    have hSquare :
        Fails (fun fault : Fault R => fault.kind = .dimensionMismatch)
          (requireSquare p "projective measurement") :=
      Fails.ite trivial rfl
    refine Fails.bind (hSquare.bind fun _ => ?_) fun _ => trivial
    exact Fails.ite trivial rfl
  exact (Fails.mapM fun p _ => hWeight p).bind fun _ => trivial

end Failures

end Guarded

end QuantumLab

------------------------------------------------------------
-- Normalization
------------------------------------------------------------

namespace QuantumLab

namespace Guarded

variable {weights : List ℝ}

/- What weights are multiplied with that have a known sum. -/
noncomputable def scaling (total : ℝ) : ℝ :=
  if 0 < total then total⁻¹ else 1

theorem scaling_pos
    (total : ℝ) :
    0 < scaling total := by
  unfold scaling
  split
  · exact inv_pos.2 ‹0 < total›
  · exact one_pos

/- All weights are scaled in the same way. -/
theorem normalized_eq_map :
    normalized weights = weights.map (scaling weights.sum * ·) := by
  have hTotal : weights.foldl (· + ·) (0.0 : ℝ) = weights.sum := by
    rw [Arithmetic.zero_literal, ← List.sum_eq_foldl]
  rw [normalized, hTotal, Arithmetic.less_real, Arithmetic.zero_literal]
  by_cases hPositive : 0 < weights.sum
  · rw [if_pos (decide_eq_true hPositive), scaling, if_pos hPositive]
    exact List.map_congr_left fun x _ => div_eq_inv_mul x weights.sum
  · rw [if_neg (by simpa using hPositive), scaling, if_neg hPositive]
    simp

/- Weights with a positive sum are scaled to the sum one. -/
theorem sum_scaled
    (hPositive : 0 < weights.sum) :
    (weights.map (scaling weights.sum * ·)).sum = 1 := by
  rw [List.sum_map_mul_left, List.map_id', scaling, if_pos hPositive,
    inv_mul_cancel₀ hPositive.ne']

/- One positive weight makes the sum positive if no weight is negative. -/
theorem sum_pos_of_mem
    {x : ℝ}
    (hNonneg : ∀ w ∈ weights, 0 ≤ w)
    (hMember : x ∈ weights)
    (hPositive : 0 < x) :
    0 < weights.sum :=
  hPositive.trans_le (List.single_le_sum hNonneg x hMember)

end Guarded

------------------------------------------------------------
-- Distributions
------------------------------------------------------------

/- The real trace of an operator in a state of `n` dimensions. -/
noncomputable def Mat.overlap
    (rho : Mat ℝ)
    (n : Nat)
    (p : Mat ℝ) : ℝ :=
  (p.toMatrix n n * rho.toMatrix n n).trace.re

namespace Guarded

variable
  {n : Nat}
  {rho : Mat ℝ}
  {operators : List (Mat ℝ)}

/- The weight of an outcome is its floored overlap with the state. -/
theorem atLeast_trace_eq_max
    {p : Mat ℝ}
    (hOperator : p.HasExtents n n)
    (hState : rho.HasExtents n n) :
    Arithmetic.atLeast 0.0 (p * rho).trace.re =
      max 0 (rho.overlap n p) := by
  have hTrace : (p * rho).trace.toComplex =
      (p.toMatrix n n * rho.toMatrix n n).trace := by
    rw [Mat.toComplex_trace (hOperator.mul hState).rows,
      Mat.toMatrix_mul hOperator hState]
  rw [Arithmetic.atLeast_real, Arithmetic.zero_literal, Mat.overlap,
    ← hTrace, Scalar.re_toComplex]

/- The probabilities are the scaled weights. -/
theorem probabilities_eq_scaled
    (hOperators : ∀ p ∈ operators, p.HasExtents n n)
    (hState : rho.HasExtents n n) :
    probabilities operators rho =
      .ok (operators.map fun p =>
        scaling (operators.map fun q => max 0 (rho.overlap n q)).sum *
          max 0 (rho.overlap n p)) := by
  have hActs : ∀ p ∈ operators, p.Acts rho := by
    intro p hMember
    have hExtents := hOperators p hMember
    refine ⟨hExtents.rows.trans hExtents.cols.symm, ?_⟩
    rw [Mat.shape, Mat.shape, hExtents.rows, hExtents.cols, hState.rows,
      hState.cols]
  have hWeights : (operators.map fun p =>
      Arithmetic.atLeast 0.0 (p * rho).trace.re) =
        operators.map fun p => max 0 (rho.overlap n p) :=
    List.map_congr_left fun p hMember =>
      atLeast_trace_eq_max (hOperators p hMember) hState
  refine probabilities_eq_ok_iff.2 ⟨hActs, ?_⟩
  rw [hWeights, normalized_eq_map, List.map_map]
  rfl

/-
  The probabilities of a measurement.  In exact arithmetic
  every operator on the space of the state has a share, which
  does not depend on where the operator stands: the shares
  are not negative, they sum to one if some overlap with the
  state is positive and are zero otherwise, and they are
  proportional to the floored overlaps, with the same order
  and the same ratios.  In any arithmetic there are no
  probabilities exactly if some operator, first or last, is
  not square or not of the shape of the state, and then the
  dimensions are blamed.
-/
theorem probabilities_distribute
    (hOperators : ∀ p ∈ operators, p.HasExtents n n)
    (hState : rho.HasExtents n n) :
    (∃ share : Mat ℝ → ℝ,
      (∀ others : List (Mat ℝ), others.Perm operators →
        probabilities others rho = .ok (others.map share)) ∧
      (∀ p, 0 ≤ share p) ∧
      ((∃ p ∈ operators, 0 < rho.overlap n p) →
        (operators.map share).sum = 1) ∧
      ((∀ p ∈ operators, rho.overlap n p ≤ 0) →
        ∀ p ∈ operators, share p = 0) ∧
      (∃ factor, 0 < factor ∧
        ∀ p, share p = factor * max 0 (rho.overlap n p)) ∧
      ∀ p q,
        (share p ≤ share q ↔
          max 0 (rho.overlap n p) ≤ max 0 (rho.overlap n q)) ∧
        share p * max 0 (rho.overlap n q) =
          share q * max 0 (rho.overlap n p)) ∧
    ∀ {R : Type} [Arithmetic R] (given : List (Mat R)) (state : Mat R),
      ((∃ fault, probabilities given state = .error fault) ↔
        ∃ p ∈ given, p.rows ≠ p.cols ∨ p.shape ≠ state.shape) ∧
      ∀ fault, probabilities given state = .error fault →
        fault.kind = .dimensionMismatch := by
  let weight (p : Mat ℝ) : ℝ := max 0 (rho.overlap n p)
  let total : ℝ := (operators.map weight).sum
  have hFactor : 0 < scaling total := scaling_pos total
  have hNonneg (p : Mat ℝ) : 0 ≤ weight p := le_max_left _ _
  refine
    ⟨⟨fun p => scaling total * weight p, ?_, ?_, ?_, ?_, ?_, ?_⟩, ?_⟩
  · intro others hPerm
    have hTotal : (others.map weight).sum = total :=
      (hPerm.map weight).sum_eq
    rw [← hTotal]
    exact probabilities_eq_scaled
      (fun p hMember => hOperators p (hPerm.subset hMember)) hState
  · exact fun p => mul_nonneg hFactor.le (hNonneg p)
  · rintro ⟨p, hMember, hPositive⟩
    have hTotal : 0 < total :=
      sum_pos_of_mem (by simp [weight]) (List.mem_map_of_mem hMember)
        (lt_max_of_lt_right hPositive)
    have hScaled := sum_scaled hTotal
    rwa [List.map_map] at hScaled
  · intro hNone p hMember
    have hWeight : weight p = 0 := max_eq_left (hNone p hMember)
    change scaling total * weight p = 0
    rw [hWeight, mul_zero]
  · exact ⟨scaling total, hFactor, fun p => rfl⟩
  · refine fun p q => ⟨mul_le_mul_iff_right₀ hFactor, ?_⟩
    exact mul_right_comm (scaling total) (weight p) (weight q)
  · intro R _ given state
    exact ⟨probabilities_eq_error_iff,
      fun fault hFault => fails_probabilities.of_error hFault⟩

/-
  A tilted spin that is measured the other way round has its
  probabilities the other way round.  With one operator more,
  which is not square, there are none.
-/
theorem probabilities_tiltedSpin :
    probabilities [Plan.basisProjector 1, Plan.basisProjector 0]
        (Mat.outer Plan.tiltedSpin Plan.tiltedSpin) =
      .ok [16 / 25, 9 / 25] ∧
    ∃ fault,
      probabilities
          [Plan.basisProjector 0, Plan.basisProjector 1, Mat.zero 1 2]
          (Mat.outer Plan.tiltedSpin Plan.tiltedSpin) =
        .error fault ∧
      fault.kind = .dimensionMismatch := by
  have hOperators : ∀ p ∈ [Plan.basisProjector 0, Plan.basisProjector 1],
      p.HasExtents 2 2 := by
    simp [(Plan.projects_basisProjector _).extents]
  have hState :
      (Mat.outer Plan.tiltedSpin Plan.tiltedSpin).HasExtents 2 2 :=
    Mat.hasExtents_outer rfl
  rcases probabilities_distribute hOperators hState with
    ⟨⟨share, hShares, -⟩, hFailures⟩
  constructor
  · have hBorn := (probabilities_of_accepted Plan.projective_basisProjectors
      Plan.accepts_tiltedReadout.dimension Plan.normalized_tiltedSpin).2.2
    rw [hShares _ (.refl _), Plan.distribution_tiltedSpin] at hBorn
    have hUp : share (Plan.basisProjector 0) = 9 / 25 :=
      (List.cons.inj (Except.ok.inj hBorn)).1
    have hDown : share (Plan.basisProjector 1) = 16 / 25 :=
      (List.cons.inj (List.cons.inj (Except.ok.inj hBorn)).2).1
    rw [hShares _ (.swap _ _ _), List.map_cons, List.map_cons, List.map_nil,
      hUp, hDown]
  · have hFails := hFailures
      [Plan.basisProjector 0, Plan.basisProjector 1, Mat.zero 1 2]
      (Mat.outer Plan.tiltedSpin Plan.tiltedSpin)
    rcases hFails.1.2 ⟨Mat.zero 1 2, by simp, .inl (by decide)⟩ with
      ⟨fault, hFault⟩
    exact ⟨fault, hFault, hFails.2 fault hFault⟩

end Guarded

end QuantumLab
