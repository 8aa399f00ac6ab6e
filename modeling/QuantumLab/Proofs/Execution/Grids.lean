import QuantumLab.Proofs.Execution.Faults
import QuantumLab.Proofs.Execution.History
import QuantumLab.Proofs.Execution.Results

/-
  This file says when an execution cannot fail because of a
  time grid: when all grids of the plan ascend.

  Key definitions include:
    * `Timely`
    * `PlannedExperiment.Ascends`, `Plan.Ascends`

  Main statements:
    * `Operands.timely_runExperiment` says that an experiment
      fails because of a grid only if its own grid or the
      evaluation of a node does.
    * `Plan.Ascends.timely_resultOf` and
      `Plan.Ascends.timely_execute` say that experiments and
      executions do not fail because of grids that ascend.
-/

------------------------------------------------------------
-- Faults of grids
------------------------------------------------------------

namespace QuantumLab

variable {R α : Type}

/- A computation that does not fail because of a time grid. -/
abbrev Timely (x : Except (Fault R) α) : Prop :=
  Fails (fun fault => fault.cause.isTimeGrid = false) x

/- Computations on values other than times are not about grids. -/
theorem OffGrid.timely
    {node : NodeId}
    {x : Except (Fault R) α}
    (hOffGrid : OffGrid node x) :
    Timely x :=
  hOffGrid.imp_error fun _ hArises => hArises.offGrid

variable [Arithmetic R] {times : List R}

/- Neither evolution fails because of times that ascend. -/
theorem Unitary.timely_evolve
    (hAscending : requireAscending times = .ok ())
    (h : Mat R)
    (ket : Vec R) :
    Timely (evolve h ket times) := by
  have hOffGrid : OffGrid 0 (evolve h ket times) :=
    offGrid_evolve hAscending h ket
  exact hOffGrid.timely

theorem Lindblad.timely_integrate
    (hAscending : requireAscending times = .ok ())
    (system : Lindblad R)
    (rho : Mat R) :
    Timely (system.integrate rho times) := by
  have hOffGrid : OffGrid 0 (system.integrate rho times) :=
    offGrid_integrate hAscending system rho
  exact hOffGrid.timely

end QuantumLab

------------------------------------------------------------
-- Experiments on values
------------------------------------------------------------

namespace QuantumLab

variable {R : Type} [Arithmetic R]

/- The time grid of an experiment ascends, if it has one. -/
def PlannedExperiment.Ascends (e : PlannedExperiment R) : Prop :=
  ∀ evolution, e.evolution = some evolution →
    requireAscending evolution.times = .ok ()

namespace Operands

section Experiments

variable
  {values : Operands R}
  (hValues : ∀ id, Timely (values id))

include hValues

omit [Arithmetic R] in
theorem timely_ownMatrix
    (id : NodeId) :
    Timely (values.ownMatrix id) := by
  refine (hValues id).bind fun value => ?_
  cases value with
  | matrix a => exact trivial
  | scalar z => exact rfl
  | vector v => exact rfl

/- An evolution over times that ascend. -/
theorem timely_evolve
    {evolution : PlannedEvolution R}
    (hAscending : requireAscending evolution.times = .ok ())
    (e : PlannedExperiment R)
    (initial : Value R)
    (rho : Mat R) :
    Timely (values.evolve e evolution initial rho) := by
  refine (timely_ownMatrix hValues evolution.hamiltonian).bind
    fun h => ?_
  cases evolution.method with
  | schrodinger =>
      cases initial with
      | vector ket =>
          exact (Unitary.timely_evolve hAscending h ket).bind
            fun _ => trivial
      | scalar z => exact rfl
      | matrix a => exact rfl
  | lindblad =>
      have hChannels : Timely (values.ownChannels evolution.jumps) :=
        Fails.mapM fun jump _ =>
          (timely_ownMatrix hValues jump.operator).bind fun _ => trivial
      refine hChannels.bind fun channels => ?_
      exact (Lindblad.timely_integrate hAscending ⟨h, channels⟩ rho).bind
        fun _ => trivial

theorem timely_states
    {e : PlannedExperiment R}
    (hAscends : e.Ascends) :
    Timely (values.states e) := by
  refine (hValues e.initialState).bind fun initial => ?_
  cases Plan.densityOf? initial with
  | none => exact rfl
  | some rho =>
      cases hEvolution : e.evolution with
      | none => exact trivial
      | some evolution =>
          exact timely_evolve hValues (hAscends evolution hEvolution) e
            initial rho

omit hValues in
theorem timely_outcomeOf
    (tolerance : R)
    (m : PlannedMeasurement)
    (time : R)
    (rho : Mat R)
    (operators : List (Mat R)) :
    Timely (outcomeOf tolerance m time rho operators) := by
  have hProbabilities : OffGrid 0
      (Guarded.probabilities operators rho) :=
    Guarded.offGrid_probabilities operators rho
  unfold outcomeOf
  split
  · next a _ _ =>
    have hExpectation : OffGrid 0 (Guarded.expectation a rho) :=
      Guarded.offGrid_expectation a rho
    have hReal : Timely (Plan.realExpectation tolerance m.name a rho) :=
      hExpectation.timely.bind fun _ => Fails.ite rfl trivial
    exact hReal.bind fun _ => trivial
  · exact hProbabilities.timely.bind fun _ => trivial

theorem timely_measure
    (tolerance : R)
    (times : List R)
    (states : List (Mat R))
    (m : PlannedMeasurement) :
    Timely (values.measure tolerance times states m) := by
  have hMeasurable : Timely (Plan.requireMeasurable m times states) := by
    unfold Plan.requireMeasurable
    split
    · exact Fails.ite rfl (Fails.ite rfl trivial)
    · exact rfl
  refine hMeasurable.bind fun point => ?_
  refine Fails.bind
    (Fails.mapM fun id _ => timely_ownMatrix hValues id)
    fun operators => ?_
  exact timely_outcomeOf tolerance m point.1 point.2 operators

/-
  An experiment fails because of a time grid only if it has
  one that does not ascend, or if the evaluation of a node
  fails in this way.
-/
theorem timely_runExperiment
    {e : PlannedExperiment R}
    (hAscends : e.Ascends)
    (tolerance : R) :
    Timely (values.runExperiment tolerance e) := by
  refine (timely_states hValues hAscends).bind fun trajectory => ?_
  refine Fails.bind
    (Fails.mapM fun m _ =>
      timely_measure hValues tolerance _ trajectory.2 m)
    fun outcomes => ?_
  exact trivial

end Experiments

end Operands

end QuantumLab

------------------------------------------------------------
-- Plans
------------------------------------------------------------

namespace QuantumLab

variable {R : Type} [Arithmetic R]

namespace Plan

/- All time grids of a plan ascend, of its nodes and experiments. -/
structure Ascends (plan : Plan R) : Prop where
  nodes : ∀ operation ∈ plan.nodes, ∀ times,
    operation.grid? = some times → requireAscending times = .ok ()
  experiments : ∀ e ∈ plan.experiments, e.Ascends

namespace Ascends

variable
  {plan : Plan R}
  {e : PlannedExperiment R}

theorem timely_answer
    (hAscends : plan.Ascends)
    (id : NodeId) :
    Timely (plan.answer id) := by
  have hEnds : Fails (plan.Failure id) (plan.answer id) :=
    (plan.ends_answer id).of_result fun _ _ => trivial
  refine hEnds.imp_error fun fault hFailure => ?_
  cases hFailure with
  | missing _ => rfl
  | forward _ _ _ _ => rfl
  | @compute node operation fault _ hOperation hOperands hFault =>
      have hComputes : OffGrid node
          (operation.compute plan.denote node) :=
        Operation.offGrid_compute
          (hAscends.nodes operation (Array.mem_of_getElem? hOperation))
          fun operand hOperand => (hOperands operand hOperand).2
      exact (hComputes.of_error hFault).offGrid

/- No experiment of the plan fails because of its grid. -/
theorem timely_resultOf
    (hAscends : plan.Ascends)
    (hMember : e ∈ plan.experiments)
    (tolerance : R) :
    Timely (plan.resultOf tolerance e) :=
  Fails.ite rfl (Operands.timely_runExperiment hAscends.timely_answer
    (hAscends.experiments e hMember) tolerance)

/- No execution of the plan fails because of a grid. -/
theorem timely_execute
    (hAscends : plan.Ascends)
    (config : BackendConfig)
    (tolerance : R) :
    Fails (fun stop => stop.fault.cause.isTimeGrid = false)
      (plan.execute config tolerance) := by
  have hAlone : Fails
      (fun stop : ExecutionStop R =>
        stop.fault.cause.isTimeGrid = false)
      (plan.experiments.mapM (plan.runAlone tolerance)) := by
    refine Fails.mapM fun e hMember => ?_
    rw [runAlone, runExperiment_eq .initial]
    exact (hAscends.timely_resultOf hMember tolerance).mapError
      fun _ hFault => hFault
  rw [← runAll_eq (Memo.valid_initial plan)] at hAlone
  unfold execute
  cases config.backend with
  | cpuDense =>
      cases hRun : plan.runAll tolerance (.initial plan)
          plan.experiments with
      | ok results => exact trivial
      | error stop =>
          rw [hRun] at hAlone
          exact hAlone
  | _ => exact rfl

end Ascends

end Plan

end QuantumLab
