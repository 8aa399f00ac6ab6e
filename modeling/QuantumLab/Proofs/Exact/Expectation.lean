import QuantumLab.Proofs.Exact.Lindblad
import QuantumLab.Proofs.Exact.Measurement
import QuantumLab.Proofs.Execution.Experiments
import QuantumLab.Proofs.Execution.Faults
import QuantumLab.Proofs.Lowering.Nodes

/-
  This file proves that Hermitian observables have real
  expectations.  In exact arithmetic the states of an open
  system that starts from a ket or from a Hermitian state are
  Hermitian at all times, and the trace of a product of two
  Hermitian matrices is real.  An expectation is then never
  refused, and it is the whole trace.

  Key definitions include:
    * `Cause.isHermiticity`
    * `Plan.OpenSystem`, `Plan.Observes`, `Plan.Reports`
    * `Plan.trajectory`

  Main statements:
    * `Mat.SelfAdjoint.im_trace_mul` says that the trace of a
      product of Hermitian matrices is real.
    * `Plan.OpenSystem.states_meets` says what the states of
      a trajectory are.
    * `Plan.expectation_real` says what a measurement of an
      observable reports, and the experiments that make it.
-/

------------------------------------------------------------
-- Expectations
------------------------------------------------------------

namespace QuantumLab

open Matrix

variable {n : Nat}

namespace Mat

variable {a rho : Mat ℝ}

/- The trace of a product of Hermitian matrices is its own conjugate. -/
theorem SelfAdjoint.im_trace_mul
    (hObservable : a.SelfAdjoint n)
    (hState : rho.SelfAdjoint n) :
    (a.toMatrix n n * rho.toMatrix n n).trace.im = 0 := by
  rw [← Complex.conj_eq_iff_im, ← Complex.star_def,
    ← Matrix.trace_conjTranspose, Matrix.conjTranspose_mul,
    hObservable.hermitian.eq, hState.hermitian.eq, Matrix.trace_mul_comm]

theorem SelfAdjoint.shape_eq
    (hAdjoint : a.SelfAdjoint n) :
    a.shape = .matrix n n :=
  hasExtents_iff_shape.1 hAdjoint.extents

end Mat

/- An expectation is the whole trace, whatever tolerance there is. -/
theorem Plan.realExpectation_of_selfAdjoint
    {a rho : Mat ℝ}
    {tolerance : ℝ}
    (hObservable : a.SelfAdjoint n)
    (hState : rho.SelfAdjoint n)
    (hTolerance : 0 ≤ tolerance)
    (name : String) :
    ∃ x : ℝ, realExpectation tolerance name a rho = .ok x ∧
      (x : ℂ) = (a.toMatrix n n * rho.toMatrix n n).trace := by
  have hSame := Guarded.requireSameSquare_of_shape hObservable.shape_eq
    hState.shape_eq "expectation value"
  have hProduct := hObservable.extents.mul hState.extents
  have hTrace : (a * rho).trace.toComplex =
      (a.toMatrix n n * rho.toMatrix n n).trace := by
    rw [Mat.toComplex_trace hProduct.rows,
      Mat.toMatrix_mul hObservable.extents hState.extents]
  have hReal : (a * rho).trace.im = 0 := by
    rw [← Scalar.im_toComplex, hTrace]
    exact hObservable.im_trace_mul hState
  have hClose : ¬ Arithmetic.less tolerance
      (Arithmetic.abs (a * rho).trace.im) = true := by
    rw [hReal, Arithmetic.abs_real, Arithmetic.less_real, abs_zero,
      decide_eq_true_eq, not_lt]
    exact hTolerance
  refine ⟨(a * rho).trace.re, ?_, ?_⟩
  · rw [realExpectation, Guarded.expectation, hSame, ok_bind]
    exact if_neg hClose
  · rw [← hTrace]
    exact Complex.ext rfl hReal.symm

end QuantumLab

------------------------------------------------------------
-- Faults that are not about Hermiticity
------------------------------------------------------------

namespace QuantumLab

/- Whether something was turned down because it is not Hermitian. -/
def Cause.isHermiticity {R : Type} : Cause R → Bool
  | .violation .hermiticity _ _ _ => true
  | _ => false

section Faults

variable {R : Type} [Arithmetic R]

omit [Arithmetic R] in
theorem Cause.isHermiticity_of_isOperational
    {cause : Cause R}
    (hOperational : cause.isOperational = true) :
    cause.isHermiticity = false := by
  cases cause with
  | violation => cases hOperational
  | _ => rfl

theorem Plan.Failure.isHermiticity_eq_false
    {plan : Plan R}
    {id : NodeId}
    {fault : Fault R}
    (hFailure : plan.Failure id fault) :
    fault.cause.isHermiticity = false := by
  cases hFailure with
  | missing _ => rfl
  | forward _ _ _ _ => rfl
  | @compute node _ _ _ hOperation hOperands hFault =>
      have hArises := (Operation.operates_compute fun operand hOperand =>
        (hOperands operand hOperand).2).of_error hFault
      exact Cause.isHermiticity_of_isOperational hArises.operational

theorem Plan.evaluateMatrix_not_hermiticity
    (plan : Plan R)
    (id : NodeId) :
    Session.Meets (Memo.Valid plan) (fun _ => True)
      (fun fault => fault.cause.isHermiticity = false)
      (plan.evaluateMatrix id) := by
  have hEvaluate := (plan.evaluate_meets id).weaken
    (fun _ _ => trivial) fun _ hFailure => hFailure.isHermiticity_eq_false
  refine hEvaluate.bind fun value _ => ?_
  cases value with
  | matrix a => exact Session.Meets.pure trivial
  | scalar z => exact Session.Meets.lift rfl
  | vector v => exact Session.Meets.lift rfl

theorem Plan.evaluateChannels_not_hermiticity
    (plan : Plan R)
    (jumps : List (Jump R)) :
    Session.Meets (Memo.Valid plan) (fun _ => True)
      (fun fault => fault.cause.isHermiticity = false)
      (plan.evaluateChannels jumps) :=
  Session.Meets.mapM_trivial fun jump _ =>
    (plan.evaluateMatrix_not_hermiticity jump.operator).bind fun _ _ =>
      Session.Meets.pure trivial

end Faults

end QuantumLab

------------------------------------------------------------
-- Trajectories of open systems
------------------------------------------------------------

namespace QuantumLab

namespace Plan

/-
  An experiment of a system of `n` dimensions that is open or
  does not evolve: it starts from a ket or a Hermitian state,
  and its Hamiltonian is Hermitian.  Nothing is asked of its
  jump operators.
-/
structure OpenSystem
    (plan : Plan ℝ)
    (e : PlannedExperiment ℝ)
    (n : Nat) : Prop where
  initial :
    (∃ ket, plan.EvaluatesTo e.initialState (.vector ket) ∧
      ket.size = n) ∨
    ∃ rho, plan.EvaluatesTo e.initialState (.matrix rho) ∧
      rho.SelfAdjoint n
  evolution : ∀ evolution, e.evolution = some evolution →
    evolution.method = .lindblad ∧
      ∃ h k, plan.EvaluatesTo evolution.hamiltonian (.matrix h) ∧
        h.SelfAdjoint k

/- The states of an experiment, from no values kept. -/
noncomputable def trajectory
    (plan : Plan ℝ)
    (e : PlannedExperiment ℝ) :
    Except (Fault ℝ) (StateType × List (Mat ℝ)) :=
  ((plan.states e).run (.initial plan)).1

variable
  {plan : Plan ℝ}
  {e : PlannedExperiment ℝ}
  {n : Nat}

/- A trajectory has a Hermitian state for each of its times. -/
structure IsHermitianTrajectory
    (e : PlannedExperiment ℝ)
    (n : Nat)
    (trajectory : StateType × List (Mat ℝ)) : Prop where
  length : trajectory.2.length = (timesOf e).length
  hermitian : ∀ rho ∈ trajectory.2, rho.SelfAdjoint n

theorem OpenSystem.density_meets
    (hOpen : plan.OpenSystem e n)
    {E : Fault ℝ → Prop} :
    Session.Meets (Memo.Valid plan)
      (fun value => ∃ rho, densityOf? value = some rho ∧
        rho.SelfAdjoint n) E
      (plan.evaluate e.initialState) := by
  rcases hOpen.initial with ⟨ket, hKet, hSize⟩ | ⟨rho, hRho, hAdjoint⟩
  · refine hKet.meets.weaken ?_ fun _ hFault => hFault
    rintro _ rfl
    exact ⟨_, rfl, Mat.selfAdjoint_outer hSize⟩
  · refine hRho.meets.weaken ?_ fun _ hFault => hFault
    rintro _ rfl
    exact ⟨_, rfl, hAdjoint⟩

/-
  The states of an open system are one Hermitian state, or
  come from an integration that starts from one.
-/
theorem OpenSystem.states_meets_of
    {P : StateType × List (Mat ℝ) → Prop}
    {E : Fault ℝ → Prop}
    (hOpen : plan.OpenSystem e n)
    (hStill : ∀ rho, rho.SelfAdjoint n → e.evolution = none →
      P (.density, [rho]))
    (hMoves : ∀ rho evolution h k, rho.SelfAdjoint n →
      e.evolution = some evolution →
      plan.EvaluatesTo evolution.hamiltonian (.matrix h) →
      h.SelfAdjoint k →
      Session.Meets (Memo.Valid plan) P E (do
        let channels ← plan.evaluateChannels evolution.jumps
        let states ← Session.lift
          ((Lindblad.mk h channels).integrate rho evolution.times)
        return (.density, states))) :
    Session.Meets (Memo.Valid plan) P E (plan.states e) := by
  refine hOpen.density_meets.bind fun value hValue => ?_
  rcases hValue with ⟨rho, hDensity, hState⟩
  rw [hDensity]
  cases hEvolution : e.evolution with
  | none => exact Session.Meets.pure (hStill rho hState hEvolution)
  | some evolution =>
      rcases hOpen.evolution evolution hEvolution with
        ⟨hMethod, h, k, hHamiltonian, hAdjoint⟩
      refine hHamiltonian.matrix_meets.bind fun h' hSame => ?_
      rw [hSame, hMethod]
      exact hMoves rho evolution h k hState hEvolution hHamiltonian
        hAdjoint

/- An integration that succeeds has a Hermitian state at each time. -/
theorem ends_integrate
    {h rho : Mat ℝ}
    {k : Nat}
    {times : List ℝ}
    (hHamiltonian : h.SelfAdjoint k)
    (hState : rho.SelfAdjoint n)
    (channels : List (Channel ℝ)) :
    Ends
      (fun states : List (Mat ℝ) => states.length = times.length ∧
        ∀ state ∈ states, state.SelfAdjoint n)
      (fun fault => fault.cause.isHermiticity = false)
      ((Lindblad.mk h channels).integrate rho times) := by
  have hOperates : Operates 0
      ((Lindblad.mk h channels).integrate rho times) :=
    Lindblad.operates_integrate _ rho times
  have hFails := hOperates.imp_error fun fault hArises =>
    Cause.isHermiticity_of_isOperational hArises.operational
  refine hFails.of_result fun states hStates => ⟨?_, ?_⟩
  · rcases unit_bind_eq_ok_iff.1 hStates with ⟨hAscending, hRest⟩
    rcases unit_bind_eq_ok_iff.1 hRest with ⟨_, hDone⟩
    rcases exists_cons_of_requireAscending hAscending with
      ⟨first, rest, rfl⟩
    rw [← pure_eq_ok_iff.1 hDone, List.length_cons,
      Lindblad.length_statesAfter, List.length_cons]
  · exact Lindblad.selfAdjoint_integrate hStates hHamiltonian hState

/- The states of an open system are Hermitian. -/
theorem OpenSystem.states_meets
    (hOpen : plan.OpenSystem e n) :
    Session.Meets (Memo.Valid plan) (IsHermitianTrajectory e n)
      (fun fault => fault.cause.isHermiticity = false)
      (plan.states e) := by
  refine hOpen.states_meets_of ?_ ?_
  · intro rho hState hStill
    refine ⟨?_, by simpa using hState⟩
    rw [timesOf, hStill]
    rfl
  · intro rho evolution h k hState hEvolution _ hHamiltonian
    refine (plan.evaluateChannels_not_hermiticity _).bind
      fun channels _ => ?_
    refine (Session.Meets.lift
      (ends_integrate hHamiltonian hState channels)).bind
        fun states hStates => Session.Meets.pure ⟨?_, hStates.2⟩
    rw [timesOf, hEvolution]
    exact hStates.1

/- The states of an experiment are the same from all values kept. -/
theorem OpenSystem.trajectory_meets
    (hOpen : plan.OpenSystem e n) :
    Session.Meets (Memo.Valid plan)
      (fun states => plan.trajectory e = .ok states ∧
        IsHermitianTrajectory e n states)
      (fun fault => fault.cause.isHermiticity = false)
      (plan.states e) := by
  intro memo hValid
  have hRun := hOpen.states_meets memo hValid
  have hSame := (settles_states plan.settles_evaluate e).result_eq
    (Memo.valid_initial plan) hValid
  refine ⟨hRun.1, hRun.2.of_result fun states hStates => ?_⟩
  have hHermitian := hRun.2
  rw [hStates] at hHermitian
  exact ⟨hSame.trans hStates, hHermitian⟩

end Plan

end QuantumLab

------------------------------------------------------------
-- Trajectories that exist
------------------------------------------------------------

namespace QuantumLab

namespace Plan

variable
  {plan : Plan ℝ}
  {e : PlannedExperiment ℝ}
  {n : Nat}

/-
  The times of an evolution ascend, and its operators are
  matrices on the space of the system.
-/
structure EvolvesOn
    (plan : Plan ℝ)
    (evolution : PlannedEvolution ℝ)
    (n : Nat) : Prop where
  ascending : requireAscending evolution.times = .ok ()
  hamiltonian : ∀ h, plan.EvaluatesTo evolution.hamiltonian (.matrix h) →
    h.shape = .matrix n n
  jumps : ∀ jump ∈ evolution.jumps, ∃ l,
    plan.EvaluatesTo jump.operator (.matrix l) ∧ l.shape = .matrix n n

theorem EvolvesOn.channels_meet
    {evolution : PlannedEvolution ℝ}
    (hEvolves : plan.EvolvesOn evolution n)
    {E : Fault ℝ → Prop} :
    Session.Meets (Memo.Valid plan)
      (fun channels => ∀ channel ∈ channels,
        channel.operator.shape = .matrix n n) E
      (plan.evaluateChannels evolution.jumps) := by
  have hEach : ∀ jump ∈ evolution.jumps, Session.Meets (Memo.Valid plan)
      (fun channel : Channel ℝ => channel.operator.shape = .matrix n n) E
      (do
        let operator ← plan.evaluateMatrix jump.operator
        return ⟨operator, jump.rate⟩) := by
    intro jump hMember
    rcases hEvolves.jumps jump hMember with ⟨l, hNode, hShape⟩
    refine hNode.matrix_meets.bind fun operator hSame => ?_
    exact Session.Meets.pure (hSame ▸ hShape)
  refine (Session.Meets.mapM hEach).weaken ?_ fun _ hFault => hFault
  intro channels hChannels channel hMember
  rcases exists_of_forall₂_right hChannels channel hMember with
    ⟨_, _, hShape⟩
  exact hShape

/- An open system whose operators fit has a trajectory. -/
theorem OpenSystem.exists_trajectory
    (hOpen : plan.OpenSystem e n)
    (hFits : ∀ evolution, e.evolution = some evolution →
      plan.EvolvesOn evolution n) :
    ∃ stateType states, plan.trajectory e = .ok (stateType, states) := by
  have hMeets : Session.Meets (Memo.Valid plan) (fun _ => True)
      (fun _ => False) (plan.states e) := by
    refine hOpen.states_meets_of (fun _ _ _ => trivial) ?_
    intro rho evolution h k hState hEvolution hNode _
    have hEvolves := hFits evolution hEvolution
    refine hEvolves.channels_meet.bind fun channels hChannels => ?_
    have hShape : (Lindblad.mk h channels).hamiltonian.shape =
        .matrix n n := hEvolves.hamiltonian h hNode
    rcases Lindblad.integrate_eq_ok hShape hState.shape_eq hChannels
      hEvolves.ascending with ⟨states, hStates, _⟩
    have hIntegral : Session.Meets (Memo.Valid plan) (fun _ => True)
        (fun _ => False) (Session.lift
          ((Lindblad.mk h channels).integrate rho evolution.times)) :=
      Session.Meets.lift (.of_ok hStates trivial)
    exact hIntegral.bind fun _ _ => Session.Meets.pure trivial
  rcases (hMeets _ (Memo.valid_initial plan)).2.cases with
    ⟨⟨stateType, states⟩, hStates, _⟩ | ⟨_, _, hNever⟩
  · exact ⟨stateType, states, hStates⟩
  · exact absurd hNever id

end Plan

end QuantumLab

------------------------------------------------------------
-- Measurements of observables
------------------------------------------------------------

namespace QuantumLab

namespace Plan

/-
  A measurement of an observable at a point of the time grid
  of an experiment, whose one node evaluates to a Hermitian
  matrix of the dimension of the system.
-/
structure Observes
    (plan : Plan ℝ)
    (e : PlannedExperiment ℝ)
    (n : Nat)
    (m : PlannedMeasurement)
    (a : Mat ℝ) : Prop where
  kind : m.kind = .observable
  node : ∃ id, m.operators = [id] ∧ plan.EvaluatesTo id (.matrix a)
  hermitian : a.SelfAdjoint n
  inside : m.timeIndex < (timesOf e).length

/-
  What a measurement of an observable reports: the trace of
  the observable in the state at its time.
-/
def Reports
    (e : PlannedExperiment ℝ)
    (n : Nat)
    (states : List (Mat ℝ))
    (m : PlannedMeasurement)
    (a : Mat ℝ)
    (outcome : Outcome ℝ) : Prop :=
  ∃ time rho x, (timesOf e)[m.timeIndex]? = some time ∧
    states[m.timeIndex]? = some rho ∧
    outcome = ⟨m.name, .observable, m.timeIndex, time, [], some x⟩ ∧
    (x : ℂ) = (a.toMatrix n n * rho.toMatrix n n).trace

variable
  {plan : Plan ℝ}
  {e : PlannedExperiment ℝ}
  {n : Nat}
  {stateType : StateType}
  {states : List (Mat ℝ)}
  {m : PlannedMeasurement}
  {a : Mat ℝ}
  {tolerance : ℝ}

/- A measurement of a Hermitian observable reports one outcome. -/
theorem Observes.measure_meets
    (hObserves : plan.Observes e n m a)
    (hStates : IsHermitianTrajectory e n (stateType, states))
    (hTolerance : 0 ≤ tolerance) :
    ∃ outcome, Reports e n states m a outcome ∧
      ∀ E : Fault ℝ → Prop, Session.Meets (Memo.Valid plan)
        (· = outcome) E
        (plan.measure tolerance (timesOf e) states m) := by
  rcases hObserves.node with ⟨id, hOperators, hNode⟩
  have hInside : m.timeIndex < states.length :=
    hStates.length ▸ hObserves.inside
  obtain ⟨time, hTime⟩ : ∃ time, (timesOf e)[m.timeIndex]? = some time :=
    ⟨_, List.getElem?_eq_getElem hObserves.inside⟩
  obtain ⟨rho, hState⟩ : ∃ rho, states[m.timeIndex]? = some rho :=
    ⟨_, List.getElem?_eq_getElem hInside⟩
  have hMeasurable : requireMeasurable m (timesOf e) states =
      .ok (time, rho) := by
    rw [requireMeasurable, hTime, hState]
    simp [hOperators]
  rcases realExpectation_of_selfAdjoint hObserves.hermitian
    (hStates.hermitian rho (List.mem_of_getElem? hState)) hTolerance
      m.name with ⟨x, hReal, hTrace⟩
  refine ⟨_, ⟨time, rho, x, hTime, hState, rfl, hTrace⟩, fun E => ?_⟩
  rw [measure, hMeasurable]
  refine (Session.Meets.lift (.of_ok rfl rfl)).bind fun point hPoint => ?_
  have hNodes : List.Forall₂
      (fun id p => plan.EvaluatesTo id (.matrix p)) m.operators [a] := by
    rw [hOperators]
    exact .cons hNode .nil
  refine (operators_meet hNodes).bind fun operators hSame => ?_
  rw [← hPoint, hSame, hObserves.kind]
  have hReported : Session.Meets (Memo.Valid plan) (· = x) E
      (Session.lift (realExpectation tolerance m.name a rho)) :=
    Session.Meets.lift (.of_ok hReal rfl)
  refine hReported.bind fun y hSame => ?_
  rw [hSame]
  exact Session.Meets.pure rfl

/- A measurement observes one matrix. -/
theorem Observes.unique
    {a b : Mat ℝ}
    (hObserves : plan.Observes e n m a)
    (hOther : plan.Observes e n m b) :
    a = b := by
  rcases hObserves.node with ⟨id, hOperators, hNode⟩
  rcases hOther.node with ⟨id', hOperators', hNode'⟩
  cases hOperators.symm.trans hOperators'
  cases hNode.unique hNode'
  rfl

/-
  What a measurement does that may be one of a Hermitian
  observable or not.
-/
theorem measure_meets_of_trajectory
    (hStates : IsHermitianTrajectory e n (stateType, states))
    (hTolerance : 0 ≤ tolerance)
    (m : PlannedMeasurement) :
    Session.Meets (Memo.Valid plan)
      (fun outcome => ∀ a, plan.Observes e n m a →
        Reports e n states m a outcome)
      (fun _ => ∀ a, ¬ plan.Observes e n m a)
      (plan.measure tolerance (timesOf e) states m) := by
  by_cases hSome : ∃ a, plan.Observes e n m a
  · rcases hSome with ⟨a, hObserves⟩
    rcases hObserves.measure_meets hStates hTolerance with
      ⟨outcome, hReports, hMeets⟩
    refine (hMeets _).weaken ?_ fun _ hFault => hFault
    rintro _ rfl b hOther
    rw [← hObserves.unique hOther]
    exact hReports
  · rw [not_exists] at hSome
    intro memo hValid
    refine ⟨(settles_measure plan.settles_evaluate tolerance
      (timesOf e) states m).keeps hValid, ?_⟩
    cases ((plan.measure tolerance (timesOf e) states m).run memo).1 with
    | ok outcome => exact fun a hObserves => absurd hObserves (hSome a)
    | error fault => exact hSome

/-
  An experiment of an open system reports the traces of the
  Hermitian observables that it measures.  It is refused on
  account of Hermiticity only if it measures something else.
-/
theorem OpenSystem.runExperiment_meets
    (hOpen : plan.OpenSystem e n)
    (hTolerance : 0 ≤ tolerance) :
    Session.Meets (Memo.Valid plan)
      (fun result => ∃ stateType states,
        plan.trajectory e = .ok (stateType, states) ∧
        List.Forall₂
          (fun m outcome => ∀ a, plan.Observes e n m a →
            Reports e n states m a outcome)
          e.measurements result.outcomes)
      (fun fault => fault.cause.isHermiticity = false ∨
        ∃ m ∈ e.measurements, ∀ a, ¬ plan.Observes e n m a)
      (plan.runExperiment tolerance e) := by
  have hInside : ¬ plan.size ≤ e.initialState := by
    rcases hOpen.initial with ⟨_, hValue, _⟩ | ⟨_, hValue, _⟩
    · exact Nat.not_le.2 (lt_size_of_denote (evaluatesTo_iff.1 hValue))
    · exact Nat.not_le.2 (lt_size_of_denote (evaluatesTo_iff.1 hValue))
  rw [runExperiment, if_neg hInside]
  refine Session.Meets.bind (hOpen.trajectory_meets.weaken
    (fun _ hStates => hStates) fun _ hFault => .inl hFault) ?_
  rintro ⟨stateType, states⟩ ⟨hTrajectory, hStates⟩
  have hEach : ∀ m ∈ e.measurements, Session.Meets (Memo.Valid plan)
      (fun outcome => ∀ a, plan.Observes e n m a →
        Reports e n states m a outcome)
      (fun fault => fault.cause.isHermiticity = false ∨
        ∃ m ∈ e.measurements, ∀ a, ¬ plan.Observes e n m a)
      (plan.measure tolerance (timesOf e) states m) :=
    fun m hMember => (measure_meets_of_trajectory hStates hTolerance
      m).weaken (fun _ hOutcome => hOutcome) fun _ hNone =>
        .inr ⟨m, hMember, hNone⟩
  refine (Session.Meets.mapM hEach).bind fun outcomes hOutcomes => ?_
  exact Session.Meets.pure ⟨stateType, states, hTrajectory, hOutcomes⟩

/-
  Hermitian observables have real expectations.  At every
  time of an open system that starts from a ket or from a
  Hermitian state, the measurement of a Hermitian observable
  reports the whole trace, whatever the jump operators and
  the tolerance are.  An experiment that makes such
  measurements alone is never refused on account of
  Hermiticity.
-/
theorem expectation_real
    (hOpen : plan.OpenSystem e n)
    (hTolerance : 0 ≤ tolerance) :
    (∀ stateType states, plan.trajectory e = .ok (stateType, states) →
      (∀ rho ∈ states, rho.SelfAdjoint n) ∧
      ∀ m a, plan.Observes e n m a →
        ∃ outcome, Reports e n states m a outcome ∧
          ∀ memo, plan.Reachable memo →
            ((plan.measure tolerance (timesOf e) states m).run memo).1 =
              .ok outcome) ∧
      ∀ memo, plan.Reachable memo →
        Ends
          (fun result => ∃ stateType states,
            plan.trajectory e = .ok (stateType, states) ∧
            List.Forall₂
              (fun m outcome => ∀ a, plan.Observes e n m a →
                Reports e n states m a outcome)
              e.measurements result.outcomes)
          (fun fault => fault.cause.isHermiticity = false ∨
            ∃ m ∈ e.measurements, ∀ a, ¬ plan.Observes e n m a)
          ((plan.runExperiment tolerance e).run memo).1 := by
  constructor
  · intro stateType states hTrajectory
    have hStart := (hOpen.states_meets _ (Memo.valid_initial plan)).2
    rw [trajectory] at hTrajectory
    rw [hTrajectory] at hStart
    refine ⟨hStart.hermitian, fun m a hObserves => ?_⟩
    rcases hObserves.measure_meets hStart hTolerance with
      ⟨outcome, hReports, hMeets⟩
    refine ⟨outcome, hReports, fun memo hReachable => ?_⟩
    rcases (hMeets (fun _ => False) memo hReachable.valid).2.cases with
      ⟨other, hResult, rfl⟩ | ⟨_, _, hNever⟩
    · exact hResult
    · exact absurd hNever id
  · intro memo hReachable
    exact (hOpen.runExperiment_meets hTolerance memo hReachable.valid).2

/- The operator that takes the second basis state to the first. -/
noncomputable def lowering : Mat ℝ :=
  .ofFn 2 2 fun i j =>
    if i = 0 ∧ j = 1 then Scalar.one else Scalar.zero

/- An experiment in which a tilted spin decays. -/
noncomputable def decay : PlannedExperiment ℝ :=
  ⟨"decay", 2, some ⟨.lindblad, 0, [⟨3, 1⟩], [0, 1]⟩,
    [⟨"up", 1, .observable, [0]⟩]⟩

/- The plan of the experiment, with the nodes of the readout. -/
noncomputable def dampedSpin : Plan ℝ :=
  { nodes := tiltedReadout.nodes.push (.loadMatrix "lower" lowering)
    experiments := [decay] }

theorem selfAdjoint_basisProjector
    (k : Fin 2) :
    (basisProjector k).SelfAdjoint 2 :=
  ⟨(projects_basisProjector k).extents,
    (projects_basisProjector k).hermitian⟩

theorem openSystem_dampedSpin : dampedSpin.OpenSystem decay 2 where
  initial := .inl ⟨tiltedSpin, evaluatesTo_loadVector rfl, rfl⟩
  evolution := by
    rintro _ ⟨⟩
    exact ⟨rfl, basisProjector 0, 2, evaluatesTo_loadMatrix rfl,
      selfAdjoint_basisProjector 0⟩

theorem observes_dampedSpin :
    dampedSpin.Observes decay 2 ⟨"up", 1, .observable, [0]⟩
      (basisProjector 0) where
  kind := rfl
  node := ⟨0, rfl, evaluatesTo_loadMatrix rfl⟩
  hermitian := selfAdjoint_basisProjector 0
  inside := by decide

theorem evolvesOn_dampedSpin :
    dampedSpin.EvolvesOn ⟨.lindblad, 0, [⟨3, 1⟩], [0, 1]⟩ 2 where
  ascending := by
    simp [requireAscending, firstUnordered?, firstUnorderedFrom?]
  hamiltonian := by
    intro h hNode
    cases hNode.unique (evaluatesTo_loadMatrix rfl)
    rfl
  jumps := by
    intro jump hMember
    cases List.mem_singleton.1 hMember
    exact ⟨lowering, evaluatesTo_loadMatrix rfl, rfl⟩

/- The decaying spin is found up with a probability that is real. -/
theorem expectation_real_dampedSpin :
    ∃ stateType states outcome,
      dampedSpin.trajectory decay = .ok (stateType, states) ∧
      Reports decay 2 states ⟨"up", 1, .observable, [0]⟩
        (basisProjector 0) outcome ∧
      ((dampedSpin.measure 0 (timesOf decay) states
        ⟨"up", 1, .observable, [0]⟩).run (.initial dampedSpin)).1 =
          .ok outcome := by
  have hFits : ∀ evolution, decay.evolution = some evolution →
      dampedSpin.EvolvesOn evolution 2 := by
    rintro _ ⟨⟩
    exact evolvesOn_dampedSpin
  rcases openSystem_dampedSpin.exists_trajectory hFits with
    ⟨stateType, states, hTrajectory⟩
  rcases ((expectation_real openSystem_dampedSpin le_rfl).1 stateType
    states hTrajectory).2 _ _ observes_dampedSpin with
    ⟨outcome, hReports, hMeasures⟩
  exact ⟨stateType, states, outcome, hTrajectory, hReports,
    hMeasures _ .initial⟩

end Plan

end QuantumLab
