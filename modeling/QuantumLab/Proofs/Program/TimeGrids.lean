import QuantumLab.Double
import QuantumLab.Proofs.Exact.Reals
import QuantumLab.Proofs.Execution.Grids
import QuantumLab.Proofs.Program.WellFormedness

/-
  This file follows time grids through the stages: the plan
  of a validated program has no grid that an evolution turns
  down, and in exact arithmetic the grids that pass are those
  whose points ascend.

  Key definitions include:
    * `Lowering.Gridless`

  Main statements:
    * `Program.ascends_of_walks` says that the grids of a
      plan ascend if the program is validated.
    * `requireAscending_regular_iff` says which regular grids
      ascend.
    * `TimeGrid.checks_agree` says that the checks of the
      stages agree, what they accept and what they report.
-/

------------------------------------------------------------
-- Nodes of programs
------------------------------------------------------------

namespace QuantumLab

variable {R : Type} [Arithmetic R]

namespace Lowering

variable {s next : Lowering R}

omit [Arithmetic R] in
/- No node of a lowering integrates over a time grid. -/
def Gridless (s : Lowering R) : Prop :=
  ∀ operation ∈ s.plan.nodes, operation.grid? = none

omit [Arithmetic R] in
theorem Gridless.emit
    {operation : Operation R}
    (hGridless : s.Gridless)
    (hNone : operation.grid? = none)
    (shape : Shape) :
    (s.emit operation shape).2.Gridless := by
  intro other hMember
  rcases Array.mem_push.1 hMember with hOld | rfl
  · exact hGridless other hOld
  · exact hNone

/- Expressions, states and operators are lowered to such nodes. -/
theorem isKept_gridless : IsKept (Gridless : Lowering R → Prop) where
  emit hGridless operation shape hNone := hGridless.emit hNone shape
  resolve {s later name id} hGridless hResolve := by
    unfold resolve at hResolve
    split at hResolve
    · cases hResolve
      exact hGridless
    · split at hResolve
      · exact absurd hResolve refuse_ne_ok
      · split at hResolve
        · next a _ =>
          cases hResolve
          have hNone := Operation.grid?_constant name (.matrix a)
          exact hGridless.emit hNone (Value.matrix a).shape
        · exact absurd hResolve refuse_ne_ok

theorem Gridless.after
    {d : Statement R}
    (hGridless : s.Gridless)
    (hAdd : s.addStatement d = .ok next) :
    next.Gridless := by
  have hKept := isKept_gridless (R := R)
  cases adds_of_addStatement hAdd with
  | symbol _ _ => exact hGridless
  | undefined _ _ => exact hGridless
  | @loaded _ e value _ _ _ =>
      have hDefined : (s.define d.name value).Gridless := hGridless
      exact hKept.emitConstant hDefined d.name value
  | @lowered _ e value id later _ _ _ hLower =>
      have hDefined : (s.define d.name value).Gridless := hGridless
      have hLater := hKept.lowers (lowers_of_lower hLower) hDefined
      exact hLater
  | measurement hMeasurement =>
      rcases loads_addMeasurement hMeasurement with
        ⟨last, ids, hLoads, rfl⟩
      have hLast := hKept.loads hLoads hGridless
      exact hLast
  | experiment hExperiment =>
      rcases loads_addExperiment hExperiment with
        ⟨last, planned, hLoads, rfl⟩
      have hLast := hKept.loads hLoads hGridless
      exact hLast

end Lowering

end QuantumLab

------------------------------------------------------------
-- Grids of plans
------------------------------------------------------------

namespace QuantumLab

variable {R : Type} [Arithmetic R] {tolerance : R}

namespace Lowering

variable
  {s next : Lowering R}
  {m : Meaning R}

/- An experiment that is validated has a plan whose grid ascends. -/
theorem PlansExperiment.ascends
    {exact : Prop}
    {table : Table (OutcomeKind × List NodeId)}
    {x : Experiment R}
    {planned : PlannedExperiment R}
    {v v' : Validator R}
    (hPlans : s.PlansExperiment exact m table x planned)
    (hCheck : Validator.checkExperiment tolerance v x = .ok v') :
    planned.Ascends := by
  intro plannedEvolution hPlanned
  rcases Validator.admits_of_checkExperiment hCheck with ⟨_, hAdmits⟩
  have hEvolution := hPlans.evolution
  rw [hPlanned] at hEvolution
  cases hSome : x.evolution with
  | none =>
      rw [hSome] at hEvolution
      cases hEvolution
  | some evolution =>
      rw [hSome] at hEvolution
      rcases hEvolution with ⟨hBoth⟩
      rw [hBoth.times]
      exact Validator.requireAscendingGrid_eq_ok_iff.1
        (hAdmits.grid evolution hSome)

/- The grids of experiments still ascend after a statement. -/
theorem Follows.ascends_after
    {d : Statement R}
    {v v' : Validator R}
    (hFollows : s.Follows False m)
    (hCheck : Validator.check tolerance v d = .ok v')
    (hAdd : s.addStatement d = .ok next)
    (hAscend : ∀ e ∈ s.plan.experiments, e.Ascends) :
    ∀ e ∈ next.plan.experiments, e.Ascends := by
  refine hFollows.forall_experiments (fun h => h.elim) hAdd hAscend ?_
  rintro x planned rfl hPlans
  exact hPlans.ascends hCheck

end Lowering

namespace Program

/- All grids of the plan of a validated program ascend. -/
theorem ascends_of_walks
    {program : Program R}
    {v : Validator R}
    {s : Lowering R}
    (hValidated : program.walk (Validator.check tolerance) .initial =
      .ok v)
    (hLowered : program.walk Lowering.addStatement .initial = .ok s) :
    s.plan.Ascends := by
  have hGridless : s.Gridless := by
    refine walk_induction (I := fun _ s => s.Gridless) ?_ ?_ hLowered
    · exact fun operation hMember => absurd hMember (Array.not_mem_empty _)
    · exact fun _ s d next hGridless hAdd => hGridless.after hAdd
  have hExperiments : ∀ e ∈ s.plan.experiments, e.Ascends := by
    refine (walk_induction₂
      (I := fun pre _ s => s.Follows False (Program.meaning pre) ∧
        ∀ e ∈ s.plan.experiments, e.Ascends)
      ⟨Lowering.follows_initial, nofun⟩ ?_ hValidated hLowered).2
    rintro pre v s d v' next ⟨hFollows, hAscend⟩ hCheck hAdd
    rw [meaning_append]
    exact ⟨(Lowering.advances_addStatement hFollows (fun h => h.elim)
      hAdd).follows, hFollows.ascends_after hCheck hAdd hAscend⟩
  refine ⟨fun operation hMember times hTimes => ?_, hExperiments⟩
  rw [hGridless operation hMember] at hTimes
  cases hTimes

end Program

/- So do those of the plan that the lowering reports. -/
theorem TypedProgram.ascends_of_plan
    {typed : TypedProgram R}
    {p : ValidatedProgram R}
    {plan : Plan R}
    (hValidated : typed.validated tolerance = .ok p)
    (hPlan : p.plan = .ok plan) :
    plan.Ascends := by
  rcases bind_eq_ok_iff.1 hValidated with ⟨v, hWalked, hResults⟩
  cases pure_eq_ok_iff.1 hResults
  rcases ValidatedProgram.lowered_of_plan hPlan with
    ⟨s, hLowered, rfl, _⟩
  exact Program.ascends_of_walks hWalked hLowered

end QuantumLab

------------------------------------------------------------
-- Exact arithmetic
------------------------------------------------------------

namespace QuantumLab

theorem isForward_iff
    (a b : ℝ) :
    IsForward a b ↔ a < b := by
  simp [IsForward]

/- Exact times pass if each of them is before all later ones. -/
theorem requireAscending_real_iff
    {times : List ℝ} :
    requireAscending times = .ok () ↔
      times ≠ [] ∧ times.Pairwise (· < ·) := by
  have hOrder : (IsForward : ℝ → ℝ → Prop) = (· < ·) :=
    funext₂ fun a b => propext (isForward_iff a b)
  rw [requireAscending_eq_ok_iff, hOrder, List.isChain_iff_pairwise]

/- A regular grid ascends if it has one point or a positive step. -/
theorem requireAscending_regular_iff
    (start step : ℝ)
    (steps : Nat) :
    requireAscending (TimeGrid.regular start step steps).times = .ok () ↔
      steps = 0 ∨ 0 < step := by
  rw [requireAscending_real_iff]
  constructor
  · rintro ⟨_, hPairwise⟩
    cases steps with
    | zero => exact .inl rfl
    | succ n =>
        -- The first two points are one step apart.
        have hFirst := List.pairwise_iff_getElem.1 hPairwise 0 1
          (by simp [TimeGrid.times]) (by simp [TimeGrid.times])
          Nat.zero_lt_one
        simp only [TimeGrid.times, List.getElem_map, List.getElem_range]
          at hFirst
        right
        simpa [Arithmetic.ofNat] using hFirst
  · intro hSteps
    refine ⟨by simp [TimeGrid.times], ?_⟩
    rcases hSteps with rfl | hStep
    · simp [TimeGrid.times]
    · refine List.pairwise_map.2 (List.pairwise_lt_range.imp ?_)
      intro j k hLess
      have hCast : (j : ℝ) < k := Nat.cast_lt.2 hLess
      have hScaled := mul_lt_mul_of_pos_right hCast hStep
      exact (add_lt_add_iff_left start).2 hScaled

/-
  The validation accepts a time grid if and only if the check
  before an evolution accepts its points.  No experiment of a
  program that is validated and lowered therefore fails
  because of its grid, whatever is computed before and
  however its state evolves, and no execution does.  Both
  checks turn down a grid because it is empty, or they report
  the first pair of neighbours that does not increase.  In
  exact arithmetic the grids that are accepted are the points
  that are each before all later ones, and there is at least
  one of them; and the regular grids without steps or with
  steps of positive length.
-/
theorem TimeGrid.checks_agree {R : Type} [Arithmetic R] :
    (∀ (experiment : String) (grid : TimeGrid R),
      Validator.requireAscendingGrid experiment grid = .ok () ↔
        requireAscending grid.times = .ok ()) ∧
    (∀ (tolerance : R) (typed : TypedProgram R) p plan,
      typed.validated tolerance = .ok p → p.plan = .ok plan →
      (∀ e ∈ plan.experiments, ∀ evolution,
        e.evolution = some evolution →
          requireAscending evolution.times = .ok () ∧
          (∀ h ket, Timely (Unitary.evolve h ket evolution.times)) ∧
          ∀ system rho,
            Timely (Lindblad.integrate system rho evolution.times)) ∧
      (∀ memo, plan.Reachable memo →
        ∀ tolerance', ∀ e ∈ plan.experiments, ∀ fault,
          ((plan.runExperiment tolerance' e).run memo).1 =
              .error fault →
            fault.cause.isTimeGrid = false) ∧
      ∀ config tolerance' stop,
        plan.execute config tolerance' = .error stop →
          stop.fault.cause.isTimeGrid = false) ∧
    (∀ (experiment : String) (grid : TimeGrid R) (fault : Fault R),
      (Validator.requireAscendingGrid experiment grid =
          .error fault ↔
        (grid.times = [] ∧
          fault = ⟨.violation .timeOrdering experiment 0.0
            "time grid of evolution must not be empty", none⟩) ∨
        ∃ k a b, FirstBreak IsForward grid.times k a b ∧
          fault = ⟨.violation .timeOrdering experiment (b - a)
            (unorderedStepText (k + 1)), none⟩) ∧
      (requireAscending grid.times = .error fault ↔
        (grid.times = [] ∧ fault = ⟨.emptyTimeGrid, none⟩) ∨
        ∃ k a b, FirstBreak IsForward grid.times k a b ∧
          fault = ⟨.unorderedTimeGrid (k + 1) (b - a), none⟩)) ∧
    (∀ a b : ℝ, IsForward a b ↔ a < b) ∧
    (∀ (experiment : String) (times : List ℝ),
      Validator.requireAscendingGrid experiment (.points times) =
          .ok () ↔
        times ≠ [] ∧ times.Pairwise (· < ·)) ∧
    ∀ (experiment : String) (start step : ℝ) (steps : Nat),
      Validator.requireAscendingGrid experiment
          (.regular start step steps) = .ok () ↔
        steps = 0 ∨ 0 < step := by
  refine ⟨fun _ _ => Validator.requireAscendingGrid_eq_ok_iff, ?_,
    fun _ grid fault => ⟨?_, ?_⟩, isForward_iff, fun _ times => ?_,
    fun _ start step steps => ?_⟩
  · intro tolerance typed p plan hValidated hPlan
    have hAscends := TypedProgram.ascends_of_plan hValidated hPlan
    refine ⟨fun e hMember evolution hEvolution => ?_,
      fun memo hReachable tolerance' e hMember fault hFault => ?_,
      fun config tolerance' stop hStop => ?_⟩
    · have hAscending :=
        hAscends.experiments e hMember evolution hEvolution
      exact ⟨hAscending, Unitary.timely_evolve hAscending,
        Lindblad.timely_integrate hAscending⟩
    · rw [Plan.runExperiment_eq hReachable] at hFault
      exact (hAscends.timely_resultOf hMember tolerance').of_error hFault
    · exact (hAscends.timely_execute config tolerance').of_error hStop
  · rw [Validator.requireAscendingGrid_eq, checkTimes_eq_error_iff]
  · rw [requireAscending_eq, checkTimes_eq_error_iff]
  · exact Validator.requireAscendingGrid_eq_ok_iff.trans
      requireAscending_real_iff
  · exact Validator.requireAscendingGrid_eq_ok_iff.trans
      (requireAscending_regular_iff start step steps)

/- A qubit under a Hamiltonian that acts on one dimension. -/
def narrowField : TypedProgram Float where
  program := [
    .matrix "field" (.matrix [[.number ⟨1, 0⟩]]),
    .experiment ⟨"qubit",
      some ⟨.ket, .vector [.number ⟨1, 0⟩, .number ⟨0, 0⟩]⟩,
      some ⟨"qubit", "field", .regular 0 0.5 2, []⟩, []⟩]
  shapes := .empty

/-
  The evolution of the qubit fails, but not because of its
  grid, and the second step is reported of exact points that
  go back in time.
-/
theorem TimeGrid.checks_agree_narrowField :
    (∃ p plan stop,
      narrowField.validated defaultValidationTolerance = .ok p ∧
      p.plan = .ok plan ∧
      plan.execute {} Plan.defaultImaginaryTolerance = .error stop ∧
      stop.fault.cause.isTimeGrid = false) ∧
    Validator.requireAscendingGrid "decay" (.points [(0 : ℝ), 2, 1]) =
      .error ⟨.violation .timeOrdering "decay" (1 - 2)
        (unorderedStepText 2), none⟩ := by
  have hStops : (do
      let p ← (narrowField.validated defaultValidationTolerance).toOption
      let plan ← p.plan.toOption
      guard ((plan.execute {}
        Plan.defaultImaginaryTolerance).toOption.isNone = true)) =
      some () := by
    decide +kernel
  simp only [Option.bind_eq_bind, Option.bind_eq_some_iff,
    toOption_eq_some_iff, Option.guard_eq_some'] at hStops
  rcases hStops with ⟨p, hValidated, plan, hPlan, hNone⟩
  constructor
  · cases hRun : plan.execute {} Plan.defaultImaginaryTolerance with
    | ok result =>
        rw [hRun] at hNone
        cases hNone
    | error stop =>
        have hRuns := (TimeGrid.checks_agree (R := Float)).2.1 _ _ p plan
          hValidated hPlan
        exact ⟨p, plan, stop, hValidated, hPlan, hRun,
          hRuns.2.2 {} _ stop hRun⟩
  · have hReports := (TimeGrid.checks_agree (R := ℝ)).2.2.1 "decay"
      (.points [0, 2, 1])
    refine (hReports _).1.2 (.inr ⟨1, 2, 1, ?_, rfl⟩)
    refine .later ?_ (.here ?_)
    · norm_num [IsForward]
    · norm_num [IsForward]

end QuantumLab
