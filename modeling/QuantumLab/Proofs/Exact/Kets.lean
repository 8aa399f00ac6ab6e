import QuantumLab.Proofs.Exact.Expectation
import QuantumLab.Proofs.Execution.Results

/-
  This file says that a ket and its density matrix are one
  state.  In exact arithmetic unitaries, expectations and
  norms agree on both, and a phase of the ket is lost.  An
  experiment that does not keep kets therefore has the same
  outcomes from a ket, from its density matrix and from the
  ket with another phase.

  Key definitions include:
    * `Plan.Restates`

  Main statements:
    * `Guarded.evolveState_outer`, `Guarded.expectation_outer`
      and `Guarded.trace_outer` say that operations on density
      matrices are those on kets.
    * `Mat.outer_scale` says that a phase is lost.
    * `Plan.ket_agrees_with_density` says all of this, and
      that experiments cannot tell the states apart.
-/

------------------------------------------------------------
-- Density matrices of kets
------------------------------------------------------------

namespace QuantumLab

open Matrix

variable
  {n : Nat}
  {u o : Mat ℝ}
  {v : Vec ℝ}

/- A ket times a scalar of modulus one has the same density matrix. -/
theorem Mat.outer_scale
    {c : Scalar ℝ}
    (hPhase : ‖c.toComplex‖ = 1) :
    outer (v.scale c) (v.scale c) = outer v v := by
  have hSize : (v.scale c).size = v.size := Vec.size_scale c v
  have hModulus : c.toComplex * star c.toComplex = 1 := by
    rw [Complex.star_def, Complex.mul_conj, Complex.normSq_eq_norm_sq,
      hPhase]
    simp
  refine ext_entry hSize hSize fun i hRow j hCol => ?_
  have hI : i < v.size := hSize ▸ hRow
  have hJ : j < v.size := hSize ▸ hCol
  apply Scalar.toComplex_injective
  rw [entry_outer _ _ hRow hCol, entry_outer _ _ hI hJ,
    Vec.entry_scale c v hI, Vec.entry_scale c v hJ]
  simp only [Scalar.toComplex_mul, Scalar.toComplex_conj, star_mul']
  calc
    _ = c.toComplex * star c.toComplex *
          ((v.entry i).toComplex * star (v.entry j).toComplex) := by ring
    _ = (v.entry i).toComplex * star (v.entry j).toComplex := by
      rw [hModulus, one_mul]

namespace Guarded

/- The density matrix of a ket after a unitary. -/
theorem evolveState_outer
    (hUnitary : u.HasExtents n n)
    (hSize : v.size = n) :
    evolveState u (Mat.outer v v) =
      .ok (Mat.outer (u.mulVec v) (u.mulVec v)) := by
  have hState : (Mat.outer v v).HasExtents n n := Mat.hasExtents_outer hSize
  have hNext : (u.mulVec v).size = n :=
    (Mat.size_mulVec u v).trans hUnitary.rows
  have hFits : (u.isSquare && u.cols == (Mat.outer v v).rows &&
      (Mat.outer v v).cols == u.cols) = true := by
    simp [Mat.isSquare, hUnitary.rows, hUnitary.cols, hSize]
  rw [evolveState, if_pos hFits]
  refine congrArg Except.ok (Mat.ext_toMatrix
    ((hUnitary.mul hState).mul hUnitary.dagger)
    (Mat.hasExtents_outer hNext) ?_)
  rw [Mat.toMatrix_mul (hUnitary.mul hState) hUnitary.dagger,
    Mat.toMatrix_mul hUnitary hState, Mat.toMatrix_dagger hUnitary,
    Mat.toMatrix_outer hSize, Mat.toMatrix_outer hNext,
    Mat.toVector_mulVec hUnitary, Matrix.mul_vecMulVec,
    Matrix.vecMulVec_mul, Matrix.star_mulVec]

/- The expectation of an observable in the state of a ket. -/
theorem expectation_outer
    (hObservable : o.HasExtents n n)
    (hSize : v.size = n) :
    expectation o (Mat.outer v v) = .ok (o * Mat.outer v v).trace := by
  have hShape : o.shape = .matrix n n :=
    congrArg₂ Shape.matrix hObservable.rows hObservable.cols
  have hState : (Mat.outer v v).shape = .matrix n n :=
    congrArg₂ Shape.matrix hSize hSize
  rw [expectation, requireSameSquare_of_shape hShape hState]
  rfl

/- The trace of the density matrix of a ket is its squared norm. -/
theorem trace_outer
    (v : Vec ℝ) :
    trace (Mat.outer v v) = .ok ⟨v.squaredNorm, 0⟩ := by
  have hTrace : (Mat.outer v v).trace.toComplex = (v.squaredNorm : ℂ) := by
    rw [Mat.toComplex_trace (n := v.size) rfl, Mat.toMatrix_outer rfl,
      Matrix.trace_vecMulVec, Mat.squaredNorm_eq_dotProduct rfl,
      dotProduct_comm]
  have hReal : (Mat.outer v v).trace = ⟨v.squaredNorm, 0⟩ :=
    Scalar.toComplex_injective hTrace
  exact trace_eq_ok_iff.2 ⟨rfl, hReal⟩

end Guarded

/- A ket is accepted if and only if its density matrix is. -/
theorem requireNormalized_iff_requireUnitTrace
    (tolerance : ℝ)
    (ket density : String)
    (v : Vec ℝ) :
    requireNormalized tolerance ket v = .ok () ↔
      ∃ z, requireUnitTrace tolerance density (Mat.outer v v) = .ok z := by
  rw [requireNormalized, requireWithin_eq_ok_iff, requireUnitTrace,
    Guarded.trace_outer, ok_bind]
  simp only [unit_bind_eq_ok_iff, requireWithin_eq_ok_iff, pure_eq_ok_iff,
    exists_and_left, exists_eq', and_true]

end QuantumLab

------------------------------------------------------------
-- Experiments
------------------------------------------------------------

namespace QuantumLab

namespace Plan

open Matrix

/-
  The state of a ket by other means: its density matrix, or
  the ket with another phase.
-/
inductive Restates (v : Vec ℝ) : Value ℝ → Prop
  | density : Restates v (.matrix (Mat.outer v v))
  | phase
      (c : Scalar ℝ)
      (hPhase : ‖c.toComplex‖ = 1) :
      Restates v (.vector (v.scale c))

variable
  {plan plan' : Plan ℝ}
  {e e' : PlannedExperiment ℝ}
  {v : Vec ℝ}
  {value : Value ℝ}

theorem Restates.densityOf?_eq
    (hRestates : Restates v value) :
    densityOf? value = some (Mat.outer v v) := by
  cases hRestates with
  | density => rfl
  | phase c hPhase => exact congrArg some (Mat.outer_scale hPhase)

/- A node that evaluates to a state has its density matrix. -/
theorem EvaluatesTo.hasDensity
    {id : NodeId}
    {rho : Mat ℝ}
    (hValue : plan.EvaluatesTo id value)
    (hDensity : densityOf? value = some rho) :
    Operands.HasDensity plan.answer id rho :=
  ⟨value, answer_eq_ok_iff.2 (evaluatesTo_iff.1 hValue), hDensity⟩

/-
  An experiment without a unitary evolution has the same
  outcomes if it starts from a restated ket.
-/
theorem resultOf_restated
    (hRestarts : Operands.Restarts plan.answer plan'.answer e e')
    (hOpen : ∀ evolution, e.evolution = some evolution →
      evolution.method = .lindblad)
    (hKet : plan.EvaluatesTo e.initialState (.vector v))
    (hState : plan'.EvaluatesTo e'.initialState value)
    (hRestates : Restates v value)
    (tolerance : ℝ) :
    plan'.resultOf tolerance e' = plan.resultOf tolerance e := by
  have hInside : e.initialState < plan.size :=
    lt_size_of_denote (evaluatesTo_iff.1 hKet)
  have hInside' : e'.initialState < plan'.size :=
    lt_size_of_denote (evaluatesTo_iff.1 hState)
  rw [resultOf, resultOf, if_neg (Nat.not_le.2 hInside),
    if_neg (Nat.not_le.2 hInside')]
  exact hRestarts.runExperiment_eq (hKet.hasDensity rfl)
    (hState.hasDensity hRestates.densityOf?_eq) hOpen tolerance

/-
  A ket and its density matrix are one state.  A unitary
  takes the density matrix of a ket to that of the ket that
  it takes the ket to; the expectation of an operator is its
  form on the ket; the trace is the squared norm, and one of
  the two is accepted exactly if the other one is.  An
  experiment that does not evolve, or evolves by the Lindblad
  equation, ends with the same outcomes or the same fault
  when its initial ket is replaced by its density matrix or
  has its phase changed, whatever was computed before.
-/
theorem ket_agrees_with_density
    {n : Nat}
    {u o : Mat ℝ}
    {v : Vec ℝ}
    (hUnitary : u.HasExtents n n)
    (hObservable : o.HasExtents n n)
    (hSize : v.size = n) :
    (∃ w, Guarded.vectorProduct u v = .ok w ∧
      Guarded.evolveState u (Mat.outer v v) = .ok (Mat.outer w w)) ∧
    (∃ z, Guarded.expectation o (Mat.outer v v) = .ok z ∧
      z.toComplex =
        star (v.toVector n) ⬝ᵥ o.toMatrix n n *ᵥ v.toVector n) ∧
    (∃ z, Guarded.trace (Mat.outer v v) = .ok z ∧
      z.toComplex = (v.squaredNorm : ℂ)) ∧
    (∀ (tolerance : ℝ) (ket density : String),
      requireNormalized tolerance ket v = .ok () ↔
        ∃ z, requireUnitTrace tolerance density (Mat.outer v v) = .ok z) ∧
    ∀ (plan plan' : Plan ℝ) (e e' : PlannedExperiment ℝ)
        (value : Value ℝ),
      (∀ evolution, e.evolution = some evolution →
        evolution.method = .lindblad) →
      Operands.Restarts plan.answer plan'.answer e e' →
      plan.EvaluatesTo e.initialState (.vector v) →
      plan'.EvaluatesTo e'.initialState value →
      Restates v value →
      ∀ (tolerance : ℝ) (memo memo' : Memo ℝ),
        plan.Reachable memo → plan'.Reachable memo' →
          ((plan'.runExperiment tolerance e').run memo').1 =
            ((plan.runExperiment tolerance e).run memo).1 := by
  refine ⟨?_, ?_, ?_, ?_, ?_⟩
  · have hFits : u.cols = v.size := hUnitary.cols.trans hSize.symm
    exact ⟨_, Guarded.vectorProduct_eq_ok_iff.2 ⟨hFits, rfl⟩,
      Guarded.evolveState_outer hUnitary hSize⟩
  · exact ⟨_, Guarded.expectation_outer hObservable hSize,
      Mat.trace_mul_outer hObservable hSize⟩
  · exact ⟨_, Guarded.trace_outer v, rfl⟩
  · exact fun tolerance ket density =>
      requireNormalized_iff_requireUnitTrace tolerance ket density v
  · intro plan plan' e e' value hOpen hRestarts hKet hState hRestates
      tolerance memo memo' hReachable hReachable'
    rw [runExperiment_eq hReachable', runExperiment_eq hReachable]
    exact resultOf_restated hRestarts hOpen hKet hState hRestates tolerance

/- The plan of the damped spin with another initial state. -/
noncomputable def restatedSpin (state : Operation ℝ) : Plan ℝ :=
  { nodes := (tiltedReadout.nodes.pop.push state).push
      (.loadMatrix "lower" lowering)
    experiments := [decay] }

theorem restarts_restatedSpin
    (state : Operation ℝ) :
    Operands.Restarts dampedSpin.answer (restatedSpin state).answer decay
      decay := by
  have hLoaded (plan : Plan ℝ) (id : NodeId) (name : String) (a : Mat ℝ)
      (hLoads : plan.operation? id = some (.loadMatrix name a)) :
      plan.answer id = .ok (.matrix a) :=
    answer_eq_ok_iff.2 (evaluatesTo_iff.1 (evaluatesTo_loadMatrix hLoads))
  have hUp : (restatedSpin state).answer 0 = dampedSpin.answer 0 :=
    (hLoaded _ 0 _ _ rfl).trans (hLoaded _ 0 _ _ rfl).symm
  have hLower : (restatedSpin state).answer 3 = dampedSpin.answer 3 :=
    (hLoaded _ 3 _ _ rfl).trans (hLoaded _ 3 _ _ rfl).symm
  constructor
  · rfl
  · rfl
  · rfl
  · rintro _ ⟨⟩
    exact hUp
  · rintro _ ⟨⟩ jump hJump
    cases List.mem_singleton.1 hJump
    exact hLower
  · intro m hMember id hId
    cases List.mem_singleton.1 hMember
    cases List.mem_singleton.1 hId
    exact hUp

/-
  The decay of a spin is the same from its ket and from its
  density matrix.
-/
theorem ket_agrees_with_density_decay :
    (∃ w, Guarded.vectorProduct lowering tiltedSpin = .ok w ∧
      Guarded.evolveState lowering (Mat.outer tiltedSpin tiltedSpin) =
        .ok (Mat.outer w w)) ∧
    ∀ tolerance : ℝ,
      let density : Plan ℝ := restatedSpin
        (.loadMatrix "tilted" (Mat.outer tiltedSpin tiltedSpin))
      let turned : Plan ℝ := restatedSpin
        (.loadVector "tilted" (tiltedSpin.scale ⟨0, 1⟩))
      ((density.runExperiment tolerance decay).run
          (.initial density)).1 =
        ((dampedSpin.runExperiment tolerance decay).run
          (.initial dampedSpin)).1 ∧
      ((turned.runExperiment tolerance decay).run
          (.initial turned)).1 =
        ((dampedSpin.runExperiment tolerance decay).run
          (.initial dampedSpin)).1 := by
  have hAgrees := ket_agrees_with_density (n := 2) (u := lowering)
    (o := basisProjector 0) (v := tiltedSpin) ⟨rfl, rfl⟩ ⟨rfl, rfl⟩ rfl
  have hOpen : ∀ evolution, decay.evolution = some evolution →
      evolution.method = .lindblad := by
    rintro _ ⟨⟩
    rfl
  have hPhase : ‖(⟨0, 1⟩ : Scalar ℝ).toComplex‖ = 1 := Complex.norm_I
  have hKet : dampedSpin.EvaluatesTo decay.initialState
      (.vector tiltedSpin) := evaluatesTo_loadVector rfl
  refine ⟨hAgrees.1, fun tolerance => ⟨?_, ?_⟩⟩
  · exact hAgrees.2.2.2.2 _ _ _ _ _ hOpen (restarts_restatedSpin _) hKet
      (evaluatesTo_loadMatrix rfl) .density tolerance _ _ .initial .initial
  · exact hAgrees.2.2.2.2 _ _ _ _ _ hOpen (restarts_restatedSpin _) hKet
      (evaluatesTo_loadVector rfl) (.phase _ hPhase) tolerance _ _ .initial
      .initial

end Plan

end QuantumLab
