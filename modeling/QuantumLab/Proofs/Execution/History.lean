import QuantumLab.Double
import QuantumLab.Proofs.Execution.Memoization

/-
  This file compares computations on one plan that were
  preceded by different ones.

  Key definitions include:
    * `Plan.runAlone`

  Main statements:
    * `Plan.runAll_eq` says that experiments on shared values
      have the outcomes that each of them has alone.
    * `Plan.results_independent_of_history` says that the
      results of evaluations and experiments do not depend on
      what was computed before, nor on what failed.
-/

namespace QuantumLab

variable {R : Type} [Arithmetic R]

namespace Plan

/- What an experiment ends with on values of its own. -/
def runAlone
    (plan : Plan R)
    (tolerance : R)
    (e : PlannedExperiment R) :
    Except (ExecutionStop R) (ExperimentResult R) :=
  (((plan.runExperiment tolerance e).run (.initial plan)).1).mapError
    (.experiment e.name)

/-
  Experiments on shared values end as they do alone, with
  the fault of the first that fails alone.
-/
theorem runAll_eq
    {plan : Plan R}
    {memo : Memo R}
    (hValid : memo.Valid plan)
    (tolerance : R)
    (experiments : List (PlannedExperiment R)) :
    (plan.runAll tolerance memo experiments).map Prod.fst =
      experiments.mapM (plan.runAlone tolerance) := by
  induction experiments generalizing memo with
  | nil => rfl
  | cons e rest ih =>
      have hSettles := settles_runExperiment plan.settles_evaluate
        tolerance e
      have hLater := hSettles.keeps hValid
      have hAlone : plan.runAlone tolerance e =
          ((plan.runExperiment tolerance e).run memo).1.mapError
            (.experiment e.name) := by
        rw [runAlone, hSettles.result_eq (Memo.valid_initial plan) hValid]
      rw [List.mapM_cons, hAlone]
      unfold runAll
      rcases hRun : (plan.runExperiment tolerance e).run memo with
        ⟨result, later⟩
      rw [hRun] at hLater
      cases result with
      | error fault => rfl
      | ok result =>
          have hRest := ih hLater
          simp only [Except.mapError, ok_bind]
          rw [← hRest]
          cases plan.runAll tolerance later rest with
          | error stop => rfl
          | ok results => rfl

/-
  Whatever evaluations and experiments came before, and
  whichever of them failed, the next one ends with the same
  result or fault.  An execution therefore ends with the
  outcomes that each experiment has alone, or with the fault
  of the first experiment that fails alone.
-/
theorem results_independent_of_history
    {plan : Plan R}
    {memo memo' : Memo R}
    (hReachable : plan.Reachable memo)
    (hReachable' : plan.Reachable memo') :
    (∀ id, ((plan.evaluate id).run memo).1 =
      ((plan.evaluate id).run memo').1) ∧
    (∀ tolerance e, ((plan.runExperiment tolerance e).run memo).1 =
      ((plan.runExperiment tolerance e).run memo').1) ∧
    ∀ config tolerance, config.backend = .cpuDense →
      (plan.execute config tolerance).map
          (fun result => result.1.experiments) =
        plan.experiments.mapM (plan.runAlone tolerance) := by
  refine ⟨fun id => ?_, fun tolerance e => ?_,
    fun config tolerance hBackend => ?_⟩
  · exact (plan.settles_evaluate id).result_eq hReachable.valid
      hReachable'.valid
  · exact (settles_runExperiment plan.settles_evaluate
      tolerance e).result_eq hReachable.valid hReachable'.valid
  · rw [execute, hBackend,
      ← runAll_eq (Memo.valid_initial plan) tolerance plan.experiments]
    simp only
    cases plan.runAll tolerance (.initial plan) plan.experiments with
    | error stop => rfl
    | ok results => rfl

/- A plan whose node 2 multiplies a scalar by a matrix. -/
def scalarTimesMatrix : Plan Float where
  nodes := #[
    .scalar "half" ⟨0.5, 0⟩,
    .loadMatrix "identity" (Mat.identity 2),
    .matrixMul 0 1]
  experiments := [⟨"still", 1, none, []⟩, ⟨"broken", 2, none, []⟩]

/-
  A node that failed once fails again in the same way, after
  both of its operands were kept, and the execution ends
  with the fault of the experiment that starts from it.
-/
theorem results_independent_of_history_scalarTimesMatrix :
    let first := (scalarTimesMatrix.evaluate 2).run
      (.initial scalarTimesMatrix)
    first.2.computed = 2 ∧
    ((scalarTimesMatrix.evaluate 2).run first.2).1 = first.1 ∧
    (∀ tolerance e,
      ((scalarTimesMatrix.runExperiment tolerance e).run first.2).1 =
        ((scalarTimesMatrix.runExperiment tolerance e).run
          (.initial scalarTimesMatrix)).1) ∧
    (scalarTimesMatrix.execute {} Plan.defaultImaginaryTolerance).map
        (fun result => result.1.experiments) =
      scalarTimesMatrix.experiments.mapM
        (scalarTimesMatrix.runAlone Plan.defaultImaginaryTolerance) := by
  rcases results_independent_of_history
      (.evaluate 2 (.initial : scalarTimesMatrix.Reachable _))
      (.initial : scalarTimesMatrix.Reachable _) with
    ⟨hEvaluate, hRun, hExecute⟩
  exact ⟨by decide +kernel, hEvaluate 2, hRun, hExecute {} _ rfl⟩

end Plan

end QuantumLab
