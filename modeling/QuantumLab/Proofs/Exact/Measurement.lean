import QuantumLab.Proofs.Exact.Matrices
import QuantumLab.Proofs.Execution.Memoization
import QuantumLab.Proofs.Validation.Hermiticity

/-
  This file proves the Born rule.  In exact arithmetic, with
  tolerance zero, a list of operators that is accepted as a
  projective measurement consists of orthogonal projections
  that sum to the identity, and a ket that is accepted has
  norm one.  The weights of the outcomes are then the squared
  norms of the projected ket: none of them is negative, and
  they sum to one.

  Key definitions include:
    * `Mat.Projects`
    * `bornDistribution`
    * `Plan.Prepares`, `Plan.Accepts`

  Main statements:
    * `requireProjective_zero_eq_ok_iff` says which operators
      are accepted, and `requireNormalized_zero_eq_ok_iff`
      which kets.
    * `Mat.Projects.trace_mul_outer` is the Born rule for one
      outcome.
    * `Plan.born_rule` is the Born rule for a measurement,
      and for the experiments that make it.
-/

------------------------------------------------------------
-- Accepted operators
------------------------------------------------------------

namespace QuantumLab

open Matrix

/- With tolerance zero only a deviation of zero passes. -/
theorem requireWithin_zero_eq_ok_iff
    {deviation : ℝ}
    {invariant : Invariant}
    {name detail : String} :
    requireWithin 0 deviation invariant name detail = .ok () ↔
      deviation ≤ 0 := by
  rw [requireWithin, Arithmetic.less_real]
  by_cases hExceeds : 0 < deviation
  · simp [hExceeds]
  · simp [hExceeds, not_lt.1 hExceeds]

/- A Hermitian and idempotent matrix of `n` rows and columns. -/
structure Mat.Projects (p : Mat ℝ) (n : Nat) : Prop where
  extents : p.HasExtents n n
  hermitian : (p.toMatrix n n).IsHermitian
  idempotent : p.toMatrix n n * p.toMatrix n n = p.toMatrix n n

variable {n : Nat}

/- With tolerance zero exactly the projectors are accepted. -/
theorem requireProjector_zero_eq_ok_iff
    {name : String}
    {p : Mat ℝ}
    (hRows : p.rows = n) :
    requireProjector 0 name p = .ok () ↔ p.Projects n := by
  rw [requireProjector, unit_bind_eq_ok_iff, requireHermitian_eq_ok_iff,
    Arithmetic.less_real, decide_eq_false_iff_not, not_lt,
    requireWithin_zero_eq_ok_iff]
  constructor
  · rintro ⟨⟨hSquare, hHermitian⟩, hIdempotent⟩
    have hExtents : p.HasExtents n n := ⟨hRows, hSquare.symm.trans hRows⟩
    exact ⟨hExtents, (Mat.hermiticityGap_le_zero_iff hExtents).1 hHermitian,
      (Mat.largestModulus_square_le_zero_iff hExtents).1 hIdempotent⟩
  · rintro ⟨hExtents, hHermitian, hIdempotent⟩
    exact ⟨⟨hRows.trans hExtents.cols.symm,
      (Mat.hermiticityGap_le_zero_iff hExtents).2 hHermitian⟩,
      (Mat.largestModulus_square_le_zero_iff hExtents).2 hIdempotent⟩

/- Operators are accepted one by one, each under a name of its own. -/
theorem requireEach_projectors_eq_ok_iff
    {name : String}
    {k : Nat}
    {operators : List (Mat ℝ)}
    (hRows : ∀ p ∈ operators, p.rows = n) :
    requireEach (requireProjector 0) name k operators = .ok () ↔
      ∀ p ∈ operators, p.Projects n := by
  induction operators generalizing k with
  | nil => simp [requireEach]
  | cons operator rest ih =>
      rw [requireEach, unit_bind_eq_ok_iff, List.forall_mem_cons,
        requireProjector_zero_eq_ok_iff (hRows operator List.mem_cons_self),
        ih fun p hMember => hRows p (List.mem_cons_of_mem operator hMember)]

/- Operators of the same extents are added up one by one. -/
theorem exists_sumOperators
    {operators : List (Mat ℝ)}
    {start : Mat ℝ}
    (name : String)
    (hExtents : ∀ p ∈ operators, p.HasExtents n n)
    (hStart : start.HasExtents n n) :
    ∃ total, sumOperators name start operators = .ok total ∧
      total.HasExtents n n ∧
      total.toMatrix n n =
        start.toMatrix n n +
          (operators.map fun p => p.toMatrix n n).sum := by
  induction operators generalizing start with
  | nil => exact ⟨start, rfl, hStart, by simp⟩
  | cons operator rest ih =>
      have hOperator := hExtents operator List.mem_cons_self
      have hSame : operator.sameExtents start = true := by
        simp [Mat.sameExtents, hOperator.rows, hOperator.cols, hStart.rows,
          hStart.cols]
      rcases ih (fun p hMember =>
        hExtents p (List.mem_cons_of_mem operator hMember)) hStart.add
        with ⟨total, hSum, hTotal, hEqual⟩
      refine ⟨total, ?_, hTotal, ?_⟩
      · rw [sumOperators, if_pos hSame, hSum]
      · rw [hEqual, Mat.toMatrix_add hStart, List.map_cons, List.sum_cons,
          add_assoc]

/- With tolerance zero the operators have to sum to the identity. -/
theorem requireComplete_zero_eq_ok_iff
    {name : String}
    {operators : List (Mat ℝ)}
    (hExtents : ∀ p ∈ operators, p.HasExtents n n) :
    requireComplete 0 name operators = .ok () ↔
      operators ≠ [] ∧
        (operators.map fun p => p.toMatrix n n).sum = 1 := by
  cases operators with
  | nil => simp [requireComplete]
  | cons first rest =>
      have hFirst := hExtents first List.mem_cons_self
      rcases exists_sumOperators name hExtents Mat.hasExtents_zero with
        ⟨total, hSum, hTotal, hEqual⟩
      rw [Mat.toMatrix_zero, zero_add] at hEqual
      rw [requireComplete, hFirst.rows, hFirst.cols, hSum, ok_bind,
        requireWithin_zero_eq_ok_iff,
        Mat.largestModulus_le_zero_iff hTotal.sub, hTotal.rows,
        Mat.toMatrix_sub hTotal, Mat.toMatrix_identity, sub_eq_zero, hEqual]
      exact (and_iff_right (List.cons_ne_nil first rest)).symm

/-
  With tolerance zero exactly the projectors that sum to the
  identity are accepted as a measurement.
-/
theorem requireProjective_zero_eq_ok_iff
    {name : String}
    {operators : List (Mat ℝ)}
    (hRows : ∀ p ∈ operators, p.rows = n) :
    requireProjective 0 name operators = .ok () ↔
      (∀ p ∈ operators, p.Projects n) ∧ operators ≠ [] ∧
        (operators.map fun p => p.toMatrix n n).sum = 1 := by
  rw [requireProjective, unit_bind_eq_ok_iff,
    requireEach_projectors_eq_ok_iff hRows]
  refine and_congr_right fun hProjects => ?_
  exact requireComplete_zero_eq_ok_iff fun p hMember =>
    (hProjects p hMember).extents

/- With tolerance zero exactly the kets of norm one are accepted. -/
theorem requireNormalized_zero_eq_ok_iff
    {record : String}
    {ket : Vec ℝ} :
    requireNormalized 0 record ket = .ok () ↔ ket.squaredNorm = 1 := by
  rw [requireNormalized, requireWithin_zero_eq_ok_iff, Arithmetic.abs_real,
    abs_nonpos_iff, Arithmetic.one_literal]
  exact sub_eq_zero

------------------------------------------------------------
-- One outcome
------------------------------------------------------------

theorem Vec.squaredNorm_nonneg
    (v : Vec ℝ) :
    0 ≤ v.squaredNorm := by
  rw [squaredNorm_eq_sum]
  exact Finset.sum_nonneg fun k _ => Complex.normSq_nonneg _

namespace Mat

variable
  {p : Mat ℝ}
  {ket : Vec ℝ}

/- The trace of any operator in the state of a ket. -/
theorem trace_mul_outer
    (hExtents : p.HasExtents n n)
    (hSize : ket.size = n) :
    (p * outer ket ket).trace.toComplex =
      star (ket.toVector n) ⬝ᵥ p.toMatrix n n *ᵥ ket.toVector n := by
  have hOuter : (outer ket ket).HasExtents n n := hasExtents_outer hSize
  rw [toComplex_trace (hExtents.mul hOuter).rows,
    toMatrix_mul hExtents hOuter, toMatrix_outer hSize,
    Matrix.mul_vecMulVec, Matrix.trace_vecMulVec, dotProduct_comm]

/-
  The Born rule for one outcome: the trace of a projector in
  the state of a ket is the squared norm of the projected
  ket.
-/
theorem Projects.trace_mul_outer
    (hProjects : p.Projects n)
    (hSize : ket.size = n) :
    (p * outer ket ket).trace.toComplex =
      ((p.mulVec ket).squaredNorm : ℂ) := by
  have hSquare : p.toMatrix n n *ᵥ p.toMatrix n n *ᵥ ket.toVector n =
      p.toMatrix n n *ᵥ ket.toVector n := by
    rw [Matrix.mulVec_mulVec, hProjects.idempotent]
  have hNorm : ((p.mulVec ket).squaredNorm : ℂ) =
      star ((p.mulVec ket).toVector n) ⬝ᵥ (p.mulVec ket).toVector n :=
    squaredNorm_eq_dotProduct (by simp [hProjects.extents.rows])
  rw [Mat.trace_mul_outer hProjects.extents hSize, hNorm,
    toVector_mulVec hProjects.extents, Matrix.star_mulVec,
    hProjects.hermitian.eq, ← Matrix.dotProduct_mulVec, hSquare]

end Mat

------------------------------------------------------------
-- All outcomes
------------------------------------------------------------

/- The squared norms of a ket under the operators of a measurement. -/
noncomputable def bornDistribution
    (ket : Vec ℝ)
    (operators : List (Mat ℝ)) : List ℝ :=
  operators.map fun p => (p.mulVec ket).squaredNorm

namespace Guarded

variable
  {ket : Vec ℝ}
  {operators : List (Mat ℝ)}

/- The real trace of a projector in the state of a ket. -/
theorem re_trace_of_projects
    {p : Mat ℝ}
    (hProjects : p.Projects n)
    (hSize : ket.size = n) :
    (p * Mat.outer ket ket).trace.re = (p.mulVec ket).squaredNorm :=
  congrArg Complex.re (hProjects.trace_mul_outer hSize)

/- The weight of an outcome is not floored. -/
theorem weight_of_projects
    {p : Mat ℝ}
    (hProjects : p.Projects n)
    (hSize : ket.size = n) :
    weight (Mat.outer ket ket) p = .ok (p.mulVec ket).squaredNorm := by
  have hOuter : (Mat.outer ket ket).HasExtents n n :=
    Mat.hasExtents_outer hSize
  have hExtents :
      requireSameSquare p (Mat.outer ket ket) "projective measurement" =
        .ok () := by
    rw [requireSameSquare_eq_ok_iff, Mat.shape, Mat.shape,
      hProjects.extents.rows, hProjects.extents.cols, hOuter.rows,
      hOuter.cols]
    exact ⟨rfl, rfl⟩
  rw [weight, hExtents, ok_bind, re_trace_of_projects hProjects hSize,
    Arithmetic.atLeast_real, Arithmetic.zero_literal,
    max_eq_right (Vec.squaredNorm_nonneg _)]
  rfl

/- The weights of all outcomes sum to the squared norm of the ket. -/
theorem sum_bornDistribution
    (hProjects : ∀ p ∈ operators, p.Projects n)
    (hSum : (operators.map fun p => p.toMatrix n n).sum = 1)
    (hSize : ket.size = n) :
    (bornDistribution ket operators).sum = ket.squaredNorm := by
  have hTraces : ∀ ps : List (Mat ℝ), (∀ p ∈ ps, p.Projects n) →
      ((bornDistribution ket ps).sum : ℂ) =
        star (ket.toVector n) ⬝ᵥ
          (ps.map fun p => p.toMatrix n n).sum *ᵥ ket.toVector n := by
    intro ps hEach
    induction ps with
    | nil => simp [bornDistribution]
    | cons p ps ih =>
        have hFirst := hEach p List.mem_cons_self
        have hLater := ih fun q hq => hEach q (List.mem_cons_of_mem p hq)
        rw [bornDistribution, List.map_cons, List.sum_cons,
          List.map_cons, List.sum_cons, Matrix.add_mulVec, dotProduct_add,
          ← hLater, ← Mat.trace_mul_outer hFirst.extents hSize,
          hFirst.trace_mul_outer hSize, Complex.ofReal_add]
        rfl
  have hTotal := hTraces operators hProjects
  rw [hSum, Matrix.one_mulVec, ← Mat.squaredNorm_eq_dotProduct hSize]
    at hTotal
  exact Complex.ofReal_injective hTotal

/- Weights that sum to one are not changed by their sum. -/
theorem normalized_of_sum
    {weights : List ℝ}
    (hSum : weights.sum = 1) :
    normalized weights = weights := by
  have hTotal : weights.foldl (· + ·) (0.0 : ℝ) = 1 := by
    rw [Arithmetic.zero_literal, ← List.sum_eq_foldl]
    exact hSum
  rw [normalized, hTotal]
  simp

/-
  The probabilities of an accepted measurement in the state
  of an accepted ket.
-/
theorem probabilities_of_accepted
    {name record : String}
    (hProjective : requireProjective 0 name operators = .ok ())
    (hDimension : ∀ p ∈ operators, p.rows = ket.size)
    (hNormalized : requireNormalized 0 record ket = .ok ()) :
    (∀ p ∈ operators, p.Projects ket.size) ∧
      normalized (bornDistribution ket operators) =
        bornDistribution ket operators ∧
      probabilities operators (Mat.outer ket ket) =
        .ok (bornDistribution ket operators) := by
  rcases (requireProjective_zero_eq_ok_iff hDimension).1 hProjective with
    ⟨hProjects, _, hSum⟩
  have hTotal : (bornDistribution ket operators).sum = 1 := by
    rw [sum_bornDistribution hProjects hSum rfl,
      requireNormalized_zero_eq_ok_iff.1 hNormalized]
  have hWeights :
      operators.mapM (weight (Mat.outer ket ket)) =
        .ok (bornDistribution ket operators) :=
    mapM_eq_ok_iff.2 (List.forall₂_map_right_iff.2
      (List.forall₂_same.2 fun p hMember =>
        weight_of_projects (hProjects p hMember) rfl))
  refine ⟨hProjects, normalized_of_sum hTotal, ?_⟩
  rw [probabilities, hWeights, ok_bind, normalized_of_sum hTotal]
  rfl

end Guarded

------------------------------------------------------------
-- Experiments
------------------------------------------------------------

namespace Plan

/- An experiment without an evolution that starts from a ket. -/
structure Prepares
    (plan : Plan ℝ)
    (e : PlannedExperiment ℝ)
    (ket : Vec ℝ) : Prop where
  still : e.evolution = none
  initial : plan.EvaluatesTo e.initialState (.vector ket)

/-
  A projective measurement at the first point of time, whose
  nodes evaluate to operators of the dimension of a ket that
  are accepted.
-/
structure Accepts
    (plan : Plan ℝ)
    (ket : Vec ℝ)
    (m : PlannedMeasurement)
    (operators : List (Mat ℝ)) : Prop where
  kind : m.kind = .projective
  first : m.timeIndex = 0
  nodes : List.Forall₂ (fun id p => plan.EvaluatesTo id (.matrix p))
    m.operators operators
  dimension : ∀ p ∈ operators, p.rows = ket.size
  accepted : ∃ name, requireProjective 0 name operators = .ok ()

variable
  {plan : Plan ℝ}
  {ket : Vec ℝ}

/- The evaluation of a node with a known value succeeds. -/
theorem EvaluatesTo.meets
    {id : NodeId}
    {value : Value ℝ}
    (hValue : plan.EvaluatesTo id value)
    {E : Fault ℝ → Prop} :
    Session.Meets (Memo.Valid plan) (· = value) E (plan.evaluate id) := by
  rw [evaluatesTo_iff] at hValue
  refine (plan.evaluate_meets id).weaken ?_ ?_
  · intro other hOther
    exact Except.ok.inj (hOther.symm.trans hValue)
  · intro fault hFailure
    exact absurd hValue fun h => hFailure.denote_ne_ok h

theorem EvaluatesTo.matrix_meets
    {id : NodeId}
    {p : Mat ℝ}
    (hValue : plan.EvaluatesTo id (.matrix p))
    {E : Fault ℝ → Prop} :
    Session.Meets (Memo.Valid plan) (· = p) E (plan.evaluateMatrix id) := by
  refine hValue.meets.bind fun value hSame => ?_
  rw [hSame]
  exact Session.Meets.pure rfl

/- A node that loads a value evaluates to it. -/
theorem evaluatesTo_loadMatrix
    {id : NodeId}
    {name : String}
    {p : Mat ℝ}
    (hLoads : plan.operation? id = some (.loadMatrix name p)) :
    plan.EvaluatesTo id (.matrix p) :=
  evaluatesTo_iff.2 ((denote_of_operation hLoads).trans rfl)

theorem evaluatesTo_loadVector
    {id : NodeId}
    {name : String}
    {v : Vec ℝ}
    (hLoads : plan.operation? id = some (.loadVector name v)) :
    plan.EvaluatesTo id (.vector v) :=
  evaluatesTo_iff.2 ((denote_of_operation hLoads).trans rfl)

theorem operators_meet
    {ids : List NodeId}
    {operators : List (Mat ℝ)}
    (hNodes : List.Forall₂ (fun id p => plan.EvaluatesTo id (.matrix p))
      ids operators)
    {E : Fault ℝ → Prop} :
    Session.Meets (Memo.Valid plan) (· = operators) E
      (ids.mapM plan.evaluateMatrix) := by
  induction hNodes with
  | nil => exact Session.Meets.pure rfl
  | cons hFirst _ ih =>
      rw [List.mapM_cons]
      refine hFirst.matrix_meets.bind fun p hSame => ?_
      refine ih.bind fun ps hRest => ?_
      rw [hSame, hRest]
      exact Session.Meets.pure rfl

/- Without an evolution the state is that of the ket. -/
theorem Prepares.states_meets
    {e : PlannedExperiment ℝ}
    (hPrepares : plan.Prepares e ket)
    {E : Fault ℝ → Prop} :
    Session.Meets (Memo.Valid plan)
      (· = (.density, [Mat.outer ket ket])) E (plan.states e) := by
  refine hPrepares.initial.meets.bind fun value hSame => ?_
  rw [hSame, densityOf?, hPrepares.still]
  exact Session.Meets.pure rfl

/- What an accepted measurement reports. -/
noncomputable def bornOutcome
    (ket : Vec ℝ)
    (m : PlannedMeasurement)
    (operators : List (Mat ℝ)) : Outcome ℝ :=
  ⟨m.name, .projective, 0, 0, bornDistribution ket operators, none⟩

/- An accepted measurement reports the squared norms. -/
theorem Accepts.measure_meets
    {m : PlannedMeasurement}
    {operators : List (Mat ℝ)}
    {record : String}
    (hAccepts : plan.Accepts ket m operators)
    (hNormalized : requireNormalized 0 record ket = .ok ())
    (tolerance : ℝ)
    {E : Fault ℝ → Prop} :
    Session.Meets (Memo.Valid plan) (· = bornOutcome ket m operators) E
      (plan.measure tolerance [0.0] [Mat.outer ket ket] m) := by
  rcases hAccepts.accepted with ⟨name, hProjective⟩
  have hProbabilities := (Guarded.probabilities_of_accepted hProjective
    hAccepts.dimension hNormalized).2.2
  have hNonempty : m.operators ≠ [] := by
    have hOperators := ((requireProjective_zero_eq_ok_iff
      hAccepts.dimension).1 hProjective).2.1
    intro hNone
    have hNodes := hAccepts.nodes
    rw [hNone, List.forall₂_nil_left_iff] at hNodes
    exact hOperators hNodes
  have hMeasurable :
      requireMeasurable m [(0.0 : ℝ)] [Mat.outer ket ket] =
        .ok (0, Mat.outer ket ket) := by
    simp [requireMeasurable, hAccepts.first, hAccepts.kind, hNonempty]
  rw [measure, hMeasurable]
  refine (Session.Meets.lift (.of_ok rfl rfl)).bind fun point hPoint => ?_
  refine (operators_meet hAccepts.nodes).bind fun ps hSame => ?_
  rw [← hPoint, hSame, hAccepts.kind, hAccepts.first]
  have hReported : Session.Meets (Memo.Valid plan)
      (· = bornDistribution ket operators) E
      (Session.lift
        (Guarded.probabilities operators (Mat.outer ket ket))) :=
    Session.Meets.lift (.of_ok hProbabilities rfl)
  refine hReported.bind fun distribution hDistribution => ?_
  rw [hDistribution]
  exact Session.Meets.pure rfl

/-
  An experiment that starts from an accepted ket and does not
  evolve reports the squared norms for every accepted
  measurement that it makes, and fails only on account of
  another one.
-/
theorem Prepares.runExperiment_meets
    {e : PlannedExperiment ℝ}
    {record : String}
    (hPrepares : plan.Prepares e ket)
    (hNormalized : requireNormalized 0 record ket = .ok ())
    (tolerance : ℝ) :
    Session.Meets (Memo.Valid plan)
      (fun result => List.Forall₂
        (fun m outcome => ∀ operators, plan.Accepts ket m operators →
          outcome = bornOutcome ket m operators)
        e.measurements result.outcomes)
      (fun _ => ∃ m ∈ e.measurements, ∀ operators,
        ¬ plan.Accepts ket m operators)
      (plan.runExperiment tolerance e) := by
  have hInside : ¬ plan.size ≤ e.initialState :=
    Nat.not_le.2 (lt_size_of_denote
      (evaluatesTo_iff.1 hPrepares.initial))
  have hTimes : timesOf e = [0.0] := by
    rw [timesOf, hPrepares.still]
  rw [runExperiment, if_neg hInside, hTimes]
  refine hPrepares.states_meets.bind fun trajectory hStates => ?_
  rw [hStates]
  have hEach : ∀ m ∈ e.measurements, Session.Meets (Memo.Valid plan)
      (fun outcome => ∀ operators, plan.Accepts ket m operators →
        outcome = bornOutcome ket m operators)
      (fun _ => ∃ m ∈ e.measurements, ∀ operators,
        ¬ plan.Accepts ket m operators)
      (plan.measure tolerance [0.0] [Mat.outer ket ket] m) := by
    intro m hMember memo hValid
    have hKeeps := (settles_measure plan.settles_evaluate tolerance [0.0]
      [Mat.outer ket ket] m).keeps hValid
    have hReport (operators : List (Mat ℝ))
        (hAccepts : plan.Accepts ket m operators) :=
      (hAccepts.measure_meets hNormalized tolerance
        (E := fun _ => False) memo hValid).2
    refine ⟨hKeeps, ?_⟩
    cases hRun : ((plan.measure tolerance [0.0]
        [Mat.outer ket ket] m).run memo).1 with
    | ok outcome =>
        intro operators hAccepts
        have hOutcome := hReport operators hAccepts
        rwa [hRun] at hOutcome
    | error fault =>
        refine ⟨m, hMember, fun operators hAccepts => ?_⟩
        have hFault := hReport operators hAccepts
        rwa [hRun] at hFault
  refine (Session.Meets.mapM hEach).bind fun outcomes hOutcomes => ?_
  exact Session.Meets.pure hOutcomes

/-
  The Born rule.  The probabilities of an accepted
  measurement in the state of an accepted ket are the squared
  norms of the projected ket.  No weight is floored, and
  their sum changes none of them.  An experiment that does
  not evolve therefore reports these probabilities.
-/
theorem born_rule
    {operators : List (Mat ℝ)}
    {name record : String}
    (hProjective : requireProjective 0 name operators = .ok ())
    (hNormalized : requireNormalized 0 record ket = .ok ())
    (hDimension : ∀ p ∈ operators, p.rows = ket.size) :
    Guarded.probabilities operators (Mat.outer ket ket) =
        .ok (operators.map fun p => (p.mulVec ket).squaredNorm) ∧
      (∀ p ∈ operators,
        Guarded.weight (Mat.outer ket ket) p =
          .ok (p * Mat.outer ket ket).trace.re) ∧
      Guarded.normalized
          (operators.map fun p => (p * Mat.outer ket ket).trace.re) =
        (operators.map fun p => (p * Mat.outer ket ket).trace.re) ∧
      ∀ (plan : Plan ℝ) (e : PlannedExperiment ℝ),
        plan.Prepares e ket →
          ∀ (tolerance : ℝ) (memo : Memo ℝ), plan.Reachable memo →
            Ends
              (fun result => List.Forall₂
                (fun m outcome => ∀ accepted,
                  plan.Accepts ket m accepted →
                    outcome = bornOutcome ket m accepted)
                e.measurements result.outcomes)
              (fun _ => ∃ m ∈ e.measurements, ∀ accepted,
                ¬ plan.Accepts ket m accepted)
              ((plan.runExperiment tolerance e).run memo).1 := by
  rcases Guarded.probabilities_of_accepted hProjective hDimension
    hNormalized with ⟨hProjects, hSame, hProbabilities⟩
  have hTraces :
      (operators.map fun p => (p * Mat.outer ket ket).trace.re) =
        bornDistribution ket operators :=
    List.map_congr_left fun p hMember =>
      Guarded.re_trace_of_projects (hProjects p hMember) rfl
  refine ⟨hProbabilities, ?_, ?_, ?_⟩
  · intro p hMember
    rw [Guarded.weight_of_projects (hProjects p hMember) rfl,
      Guarded.re_trace_of_projects (hProjects p hMember) rfl]
  · rw [hTraces, hSame]
  · intro plan e hPrepares tolerance memo hReachable
    exact (hPrepares.runExperiment_meets hNormalized tolerance memo
      hReachable.valid).2

/- The projector on one of the two basis states of a spin. -/
noncomputable def basisProjector (k : Fin 2) : Mat ℝ :=
  .ofFn 2 2 fun i j =>
    if i = k.val ∧ j = k.val then Scalar.one else Scalar.zero

theorem toMatrix_basisProjector
    (k : Fin 2) :
    (basisProjector k).toMatrix 2 2 = Matrix.single k k 1 := by
  ext i j
  rw [Mat.toMatrix, basisProjector, Mat.entry_ofFn _ i.isLt j.isLt,
    Matrix.single_apply]
  by_cases hSame : k = i ∧ k = j
  · rw [if_pos hSame, if_pos ⟨congrArg Fin.val hSame.1.symm,
      congrArg Fin.val hSame.2.symm⟩, Scalar.toComplex_one]
  · rw [if_neg hSame, if_neg fun h =>
      hSame ⟨Fin.ext h.1.symm, Fin.ext h.2.symm⟩, Scalar.toComplex_zero]

theorem projects_basisProjector
    (k : Fin 2) :
    (basisProjector k).Projects 2 where
  extents := ⟨rfl, rfl⟩
  hermitian := by
    rw [toMatrix_basisProjector, Matrix.IsHermitian,
      Matrix.conjTranspose_single, star_one]
  idempotent := by
    rw [toMatrix_basisProjector, Matrix.single_mul_single_same, mul_one]

/- A projected ket has one entry left. -/
theorem squaredNorm_basisProjector
    (k : Fin 2)
    (ket : Vec ℝ) :
    ((basisProjector k).mulVec ket).squaredNorm =
      Complex.normSq (ket.entry k).toComplex := by
  have hProduct :
      ((basisProjector k).mulVec ket).toVector 2 =
        Pi.single k (ket.entry k).toComplex := by
    rw [Mat.toVector_mulVec (projects_basisProjector k).extents,
      toMatrix_basisProjector, Matrix.single_mulVec, one_mul]
    rfl
  have hEntry (i : Fin 2) :
      (((basisProjector k).mulVec ket).entry i).toComplex =
        if i = k then (ket.entry k).toComplex else 0 := by
    rw [← Pi.single_apply]
    exact congrFun hProduct i
  have hSize : ((basisProjector k).mulVec ket).size = 2 :=
    Mat.size_mulVec _ _
  rw [Vec.squaredNorm_eq_sum, hSize, Finset.sum_range]
  simp [hEntry, apply_ite Complex.normSq]

/- A tilted spin. -/
noncomputable def tiltedSpin : Vec ℝ :=
  ⟨#[⟨3 / 5, 0⟩, ⟨0, 4 / 5⟩]⟩

/- A readout of a tilted spin. -/
noncomputable def tiltedReadout : Plan ℝ :=
  { nodes :=
      #[.loadMatrix "up" (basisProjector 0),
        .loadMatrix "down" (basisProjector 1),
        .loadVector "tilted" tiltedSpin]
    experiments :=
      [⟨"readout", 2, none, [⟨"spin", 0, .projective, [0, 1]⟩]⟩] }

theorem distribution_tiltedSpin :
    bornDistribution tiltedSpin [basisProjector 0, basisProjector 1] =
      [9 / 25, 16 / 25] := by
  have hUp := squaredNorm_basisProjector 0 tiltedSpin
  have hDown := squaredNorm_basisProjector 1 tiltedSpin
  simp only [bornDistribution, List.map_cons, List.map_nil, hUp, hDown]
  norm_num [tiltedSpin, Vec.entry, Scalar.toComplex, Complex.normSq_apply]

theorem normalized_tiltedSpin :
    requireNormalized 0 "tilted" tiltedSpin = .ok () := by
  rw [requireNormalized_zero_eq_ok_iff, Vec.squaredNorm_eq_sum]
  norm_num [tiltedSpin, Vec.size, Vec.entry, Finset.sum_range_succ,
    Scalar.toComplex, Complex.normSq_apply]

theorem projective_basisProjectors :
    requireProjective 0 "spin" [basisProjector 0, basisProjector 1] =
      .ok () := by
  refine (requireProjective_zero_eq_ok_iff (n := 2) ?_).2
    ⟨?_, List.cons_ne_nil _ _, ?_⟩
  · simp [basisProjector, Mat.rows_ofFn]
  · simp [projects_basisProjector]
  · have hSum : (basisProjector 0).toMatrix 2 2 +
        (basisProjector 1).toMatrix 2 2 = 1 := by
      rw [toMatrix_basisProjector, toMatrix_basisProjector]
      ext i j
      fin_cases i <;> fin_cases j <;> simp
    simpa using hSum

theorem prepares_tiltedReadout :
    tiltedReadout.Prepares
      ⟨"readout", 2, none, [⟨"spin", 0, .projective, [0, 1]⟩]⟩
      tiltedSpin where
  still := rfl
  initial := evaluatesTo_loadVector rfl

theorem accepts_tiltedReadout :
    tiltedReadout.Accepts tiltedSpin ⟨"spin", 0, .projective, [0, 1]⟩
      [basisProjector 0, basisProjector 1] where
  kind := rfl
  first := rfl
  nodes := .cons (evaluatesTo_loadMatrix rfl)
    (.cons (evaluatesTo_loadMatrix rfl) .nil)
  dimension := by simp [basisProjector, tiltedSpin, Vec.size]
  accepted := ⟨"spin", projective_basisProjectors⟩

/- The spin is found up in nine of twenty-five readouts. -/
theorem born_rule_tiltedReadout :
    Guarded.probabilities [basisProjector 0, basisProjector 1]
        (Mat.outer tiltedSpin tiltedSpin) = .ok [9 / 25, 16 / 25] ∧
      ∃ result,
        ((tiltedReadout.runExperiment 0
          ⟨"readout", 2, none,
            [⟨"spin", 0, .projective, [0, 1]⟩]⟩).run
          (.initial tiltedReadout)).1 = .ok result ∧
        result.outcomes =
          [⟨"spin", .projective, 0, 0, [9 / 25, 16 / 25], none⟩] := by
  have hRule := born_rule projective_basisProjectors normalized_tiltedSpin
    accepts_tiltedReadout.dimension
  have hProbabilities := hRule.1
  have hExperiment := hRule.2.2.2 tiltedReadout _ prepares_tiltedReadout 0
    _ .initial
  constructor
  · rw [hProbabilities]
    exact congrArg Except.ok distribution_tiltedSpin
  · cases hRun : ((tiltedReadout.runExperiment 0
        ⟨"readout", 2, none, [⟨"spin", 0, .projective, [0, 1]⟩]⟩).run
        (.initial tiltedReadout)).1 with
    | ok result =>
        rw [hRun] at hExperiment
        refine ⟨result, rfl, ?_⟩
        cases hOutcomes : result.outcomes with
        | nil => simp [Ends, hOutcomes] at hExperiment
        | cons outcome rest =>
            rw [Ends, hOutcomes, List.forall₂_cons,
              List.forall₂_nil_left_iff] at hExperiment
            rw [hExperiment.1 _ accepts_tiltedReadout, hExperiment.2,
              bornOutcome, distribution_tiltedSpin]
    | error fault =>
        rw [hRun] at hExperiment
        rcases hExperiment with ⟨m, hMember, hRejected⟩
        rw [List.mem_singleton.1 hMember] at hRejected
        exact absurd accepts_tiltedReadout (hRejected _)

end Plan

end QuantumLab
