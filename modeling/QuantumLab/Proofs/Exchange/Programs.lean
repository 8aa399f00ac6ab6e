import QuantumLab.Proofs.Exchange.Lowering
import QuantumLab.Proofs.Exchange.Scopes
import QuantumLab.Proofs.Exchange.Validation
import QuantumLab.Proofs.Irrelevance.Programs
import QuantumLab.Proofs.Lowering.Programs

/-
  This file says that two adjacent experiments of a program
  may be exchanged: the program runs if and only if it did
  before, as many nodes are computed, and only the results of
  the two experiments are exchanged.

  Main statements:
    * `Program.passes_exchange` says that a program passes
      the stages before its execution in either order.
    * `Program.names_of_run` says that the results are those
      of the experiments of a program, in order.
    * `Program.run_exchange` says what becomes of a run.
-/

------------------------------------------------------------
-- Names of results
------------------------------------------------------------

namespace QuantumLab

variable {R : Type} [Arithmetic R]

namespace Plan

variable {plan : Plan R}

/- The result of an experiment has the name of the experiment. -/
theorem name_of_runAlone
    {tolerance : R}
    {e : PlannedExperiment R}
    {result : ExperimentResult R}
    (hResult : plan.runAlone tolerance e = .ok result) :
    result.name = e.name := by
  have hMeets : Session.Meets (fun _ => True)
      (fun result => result.name = e.name) (fun _ => True)
      (plan.runExperiment tolerance e) := by
    unfold runExperiment
    split
    · exact Session.Meets.fail trivial
    · refine (Session.meets_trivial _).bind fun states _ => ?_
      refine (Session.meets_trivial _).bind fun outcomes _ => ?_
      exact Session.Meets.pure rfl
  have hEnds := (hMeets (.initial plan) trivial).2
  rw [mapError_eq_ok_iff.1 hResult] at hEnds
  exact hEnds

theorem names_of_execute
    {config : BackendConfig}
    {tolerance : R}
    {result : ExecutionResult R}
    {count : Nat}
    (hResult : plan.execute config tolerance = .ok (result, count)) :
    result.experiments.map ExperimentResult.name =
      plan.experiments.map PlannedExperiment.name := by
  unfold execute at hResult
  cases hBackend : config.backend with
  | cpuDense =>
      rw [hBackend] at hResult
      rcases bind_eq_ok_iff.1 hResult with
        ⟨⟨results, memo⟩, hAll, hDone⟩
      cases pure_eq_ok_iff.1 hDone
      have hAlone := runAll_eq (Memo.valid_initial plan) tolerance
        plan.experiments
      rw [hAll] at hAlone
      have hPartners := (mapM_eq_ok_iff.1 hAlone.symm).imp
        fun _ _ hResult => (name_of_runAlone hResult).symm
      have hNames := List.forall₂_map_left_iff.2
        (List.forall₂_map_right_iff.2 hPartners)
      rw [List.forall₂_eq_eq_eq] at hNames
      exact hNames.symm
  | _ =>
      rw [hBackend] at hResult
      cases hResult

end Plan

/- A lowering plans the experiments of a program, in order. -/
theorem Lowering.names_of_walk
    {s t : Lowering R}
    {program : Program R}
    (hWalk : program.walk addStatement s = .ok t) :
    t.plan.experiments.map PlannedExperiment.name =
      s.plan.experiments.map PlannedExperiment.name ++
        program.experiments.map Experiment.name := by
  induction program generalizing s with
  | nil =>
      cases hWalk
      simp [Program.experiments]
  | cons d rest ih =>
      rcases Program.walk_cons.1 hWalk with ⟨next, hAdd, hRest⟩
      rw [ih hRest, Program.experiments_cons, List.map_append,
        ← List.append_assoc]
      cases hExperiment : d.experiment? with
      | none =>
          rw [experiments_of_addStatement hExperiment hAdd]
          simp
      | some x =>
          cases Statement.experiment?_eq_some_iff.1 hExperiment
          rcases addExperiment_eq_ok_iff.1 hAdd with
            ⟨constant, value, mid, planned, _, hAll, hReads, _, rfl⟩
          have hBefore : mid.plan.experiments = s.plan.experiments :=
            hAll.appends.experiments
          simp [Plan.addExperiment, hBefore, hReads.name]

end QuantumLab

------------------------------------------------------------
-- Stages with two experiments exchanged
------------------------------------------------------------

namespace QuantumLab

variable {R : Type} [Arithmetic R]

/- Lowerings agree about all names but one, up to two experiments. -/
def Lowering.Rearranges
    (name : String)
    (k : Nat)
    (s s' : Lowering R) : Prop :=
  ∃ mid, Simulates name s mid ∧ Exchanged k mid s'

theorem Lowering.tracks_addStatement_of_rearranges
    {name : String}
    {k : Nat}
    {s s' : Lowering R}
    {d : Statement R}
    (hRearranges : Rearranges name k s s')
    (hAvoids : d.Avoids name) :
    Tracks (Rearranges name k) (s.addStatement d) (s'.addStatement d) := by
  rcases hRearranges with ⟨mid, hSimulates, hExchanged⟩
  intro t hAdd
  rcases tracks_addStatement hSimulates hAvoids t hAdd with
    ⟨t', hAdd', hFirst⟩
  rcases tracks_addStatement_of_exchanged hExchanged d t' hAdd' with
    ⟨t'', hAdd'', hSecond⟩
  exact ⟨t'', hAdd'', t', hFirst, hSecond⟩

namespace Program

variable
  {options : Options R}
  {p q : Program R}
  {x y : Experiment R}
  {plan : Plan R}
  {scope : Scope}
  {v : Validator R}
  {s : Lowering R}

/- Two adjacent experiments of a program are lowered in either order. -/
theorem lowered_exchange
    {name : String}
    (hAvoids : ∀ d ∈ p ++ .experiment x :: .experiment y :: q,
      d.Avoids name)
    (hLowered : Program.walk Lowering.addStatement .initial
      (p ++ .experiment x :: .experiment y :: q) = .ok s) :
    ∃ s', Program.walk Lowering.addStatement .initial
        (p ++ .experiment y :: .experiment x :: q) = .ok s' ∧
      s.Rearranges name p.experiments.length s' := by
  simp only [List.forall_mem_append, List.forall_mem_cons] at hAvoids
  rcases hAvoids with ⟨hBefore, hAvoidsX, hAvoidsY, hAfter⟩
  rcases walk_adjacent.1 hLowered with
    ⟨first, second, third, hFirst, hSecond, hThird, hLast⟩
  have hSelf : Lowering.Simulates name first first := by
    refine related_self_of_walk (Lowering.simulates_initial name) ?_ hFirst
    exact fun d hMember _ _ hSimulates =>
      Lowering.tracks_addStatement hSimulates (hBefore d hMember)
  rcases hSelf with ⟨ρ, hSelf⟩
  have hPlace : first.plan.experiments.length =
      p.experiments.length := by
    simpa [Lowering.initial, Plan.empty] using
      congrArg List.length (Lowering.names_of_walk hFirst)
  rcases Lowering.exchange_addExperiment hSelf hAvoidsX hAvoidsY hSecond
      hThird with ⟨second', third', mid, hSecond', hThird', hSimulates,
    hExchanged⟩
  rw [hPlace] at hExchanged
  have hRearranges : third.Rearranges name p.experiments.length third' :=
    ⟨mid, hSimulates, hExchanged⟩
  have hRest : Tracks (Lowering.Rearranges name p.experiments.length)
      (q.walk Lowering.addStatement third)
      (q.walk Lowering.addStatement third') := by
    refine tracks_walk hRearranges ?_
    exact fun d hMember _ _ hRelated =>
      Lowering.tracks_addStatement_of_rearranges hRelated
        (hAfter d hMember)
  rcases hRest s hLast with ⟨s', hLast', hRearranges⟩
  exact ⟨s', walk_adjacent.2
    ⟨first, second', third', hFirst, hSecond', hThird', hLast'⟩,
    hRearranges⟩

/-
  Two adjacent experiments of a program pass the stages in
  either order, with the same nodes in another order.
-/
theorem passes_exchange
    (hPasses : Program.Passes options
      (p ++ .experiment x :: .experiment y :: q) plan scope v s) :
    ∃ plan' v' s', Program.Passes options
        (p ++ .experiment y :: .experiment x :: q) plan' scope v' s' ∧
      ∃ ρ mid, plan.Corresponds ρ mid ∧ mid.IsBackward ∧
        mid.Exchanged p.experiments.length plan' := by
  rcases hPasses with ⟨hChecked, hValidated, hLowered, rfl, hVerified⟩
  rcases exists_avoided (p ++ .experiment x :: .experiment y :: q) with
    ⟨name, hAvoids⟩
  rcases walk_adjacent.1 hChecked with
    ⟨scope₀, scope₁, scope₂, hScope, hScopeX, hScopeY, hScopeRest⟩
  rcases walk_adjacent.1 hValidated with
    ⟨v₀, v₁, v₂, hBefore, hValidX, hValidY, hValidRest⟩
  rcases walk_adjacent.1 hLowered with
    ⟨s₀, s₁, s₂, hStart, hAddX, hAddY, _⟩
  rcases avoids_of_adjacent hScope hScopeX hScopeY hStart hAddX hAddY with
    ⟨hLacks, hAvoidsY, hAvoidsX, hDifferent⟩
  -- shapes
  rcases Scope.exchange_checkExperiment hAvoidsY hAvoidsX hDifferent
      hScopeX hScopeY with ⟨scope', hScopeY', hScopeX'⟩
  have hChecked' : Program.walk Scope.check .initial
      (p ++ .experiment y :: .experiment x :: q) = .ok scope :=
    walk_adjacent.2
      ⟨scope₀, scope', scope₂, hScope, hScopeY', hScopeX', hScopeRest⟩
  -- values
  have hEnvironment : v₀.environment = s₀.environment := by
    rw [environment_of_validation hBefore, ← names_meaning]
    exact (Lowering.follows_of_prefix hStart).environment.symm
  have hUnknown := hLacks.environment
  rw [← hEnvironment] at hUnknown
  rcases Validator.exchange_checkExperiment hUnknown hValidX hValidY with
    ⟨v', v'', hValidY', hValidX', hNames, hMeasured, hCovers⟩
  have hAgrees : Validator.AgreesOff name v₂ v'' := by
    refine ⟨?_, ?_, hCovers⟩
    · rw [hNames]
      exact .refl name _
    · rw [hMeasured]
      exact .refl _
  have hRest : Tracks (Validator.AgreesOff name)
      (q.walk (Validator.check options.validationTolerance) v₂)
      (q.walk (Validator.check options.validationTolerance) v'') := by
    refine tracks_walk hAgrees ?_
    exact fun d hMember _ _ hRelated => Validator.tracks_check hRelated
      (hAvoids d (List.mem_append_right _ (.tail _ (.tail _ hMember))))
  rcases hRest v hValidRest with ⟨last, hLast, _⟩
  have hValidated' : Program.walk
      (Validator.check options.validationTolerance) .initial
        (p ++ .experiment y :: .experiment x :: q) = .ok last :=
    walk_adjacent.2 ⟨v₀, v', v'', hBefore, hValidY', hValidX', hLast⟩
  -- nodes
  rcases lowered_exchange hAvoids hLowered with
    ⟨s', hLowered', mid, ⟨ρ, hEmbeds⟩, hExchanged⟩
  have hPlaced : s'.WellPlaced :=
    Lowering.wellPlaced_initial.runs
      (Lowering.runs_of_walk Lowering.wellPlaced_initial hLowered')
  have hBackward : mid.plan.IsBackward := by
    intro id operation hOperation
    rw [← hExchanged.plans.operation?_eq] at hOperation
    exact hPlaced.backward id operation hOperation
  have hWellFormed := hEmbeds.plans.wellFormed
    (Plan.verify_eq_ok_iff.1 hVerified) hBackward
  have hVerified' := Plan.verify_eq_ok_iff.2
    (hExchanged.plans.wellFormed hWellFormed)
  exact ⟨s'.plan, last, s',
    ⟨hChecked', hValidated', hLowered', rfl, hVerified'⟩, ρ, mid.plan,
    hEmbeds.plans, hBackward, hExchanged.plans⟩

end Program

end QuantumLab

------------------------------------------------------------
-- Runs with two experiments exchanged
------------------------------------------------------------

namespace QuantumLab

variable {R : Type} [Arithmetic R]

namespace Program

variable
  {options : Options R}
  {p q : Program R}
  {x y : Experiment R}
  {result : ExecutionResult R}
  {count : Nat}

/- The results of a run are those of the experiments, in order. -/
theorem names_of_run
    {program : Program R}
    (hRun : program.run options = .ok (result, count)) :
    result.experiments.map ExperimentResult.name =
      program.experiments.map Experiment.name := by
  rcases bind_eq_ok_iff.1 hRun with ⟨plan, hPlan, hExecuted⟩
  rcases stages_of_plan hPlan with
    ⟨scope, v, s, _, _, hLowered, rfl, _⟩
  rw [Plan.executionStage, mapError_eq_ok_iff] at hExecuted
  rw [Plan.names_of_execute hExecuted, Lowering.names_of_walk hLowered]
  rfl

/-
  The results are those of the program, with the results of
  the two experiments exchanged.
-/
theorem run_of_adjacent
    (hRun : Program.run options
      (p ++ .experiment x :: .experiment y :: q) =
        .ok (result, count)) :
    ∃ before r r' after,
      result.experiments = before ++ r :: r' :: after ∧
      before.length = p.experiments.length ∧
      r.name = x.name ∧ r'.name = y.name ∧
      Program.run options (p ++ .experiment y :: .experiment x :: q) =
        .ok (⟨before ++ r' :: r :: after⟩, count) := by
  have hNames := names_of_run hRun
  rcases bind_eq_ok_iff.1 hRun with ⟨plan, hPlan, hExecuted⟩
  rcases stages_of_plan hPlan with ⟨scope, v, s, hPasses⟩
  rcases passes_exchange hPasses with
    ⟨plan', v', s', hPasses', ρ, mid, hSame, hBackward, hExchanged⟩
  rw [Plan.executionStage, mapError_eq_ok_iff] at hExecuted
  rcases hExchanged.execute (hSame.execute_eq hBackward hExecuted) with
    ⟨result', hResults, hExecuted'⟩
  rcases hResults.split with
    ⟨before, r, r', after, hLength, hFirst, hSecond⟩
  have hResult' : result' = ⟨before ++ r' :: r :: after⟩ := by
    rw [← hSecond]
  rw [hResult'] at hExecuted'
  rw [hFirst] at hNames
  have hInOrder : before.map ExperimentResult.name ++
      (r.name :: r'.name :: after.map ExperimentResult.name) =
        p.experiments.map Experiment.name ++
          (x.name :: y.name :: q.experiments.map Experiment.name) := by
    simpa [Program.experiments, Statement.experiment?] using hNames
  rcases List.append_inj hInOrder (by simp [hLength]) with ⟨_, hRest⟩
  rcases List.cons.inj hRest with ⟨hName, hRest⟩
  rcases List.cons.inj hRest with ⟨hName', _⟩
  refine ⟨before, r, r', after, hFirst, hLength, hName, hName', ?_⟩
  rw [Program.run, hPasses'.plan_eq_ok, ok_bind, Plan.executionStage,
    hExecuted']
  rfl

/-
  The order of two adjacent experiments does not matter: the
  program runs in either order or in neither.  If it runs,
  then only the results of the two experiments are exchanged,
  and as many nodes are computed.
-/
theorem run_exchange
    (options : Options R)
    (p q : Program R)
    (x y : Experiment R) :
    ((∃ outcome, Program.run options
        (p ++ .experiment x :: .experiment y :: q) = .ok outcome) ↔
      ∃ outcome, Program.run options
        (p ++ .experiment y :: .experiment x :: q) = .ok outcome) ∧
    ∀ result count,
      Program.run options (p ++ .experiment x :: .experiment y :: q) =
          .ok (result, count) →
        ∃ before r r' after,
          result.experiments = before ++ r :: r' :: after ∧
          before.length = p.experiments.length ∧
          r.name = x.name ∧ r'.name = y.name ∧
          Program.run options
              (p ++ .experiment y :: .experiment x :: q) =
            .ok (⟨before ++ r' :: r :: after⟩, count) := by
  refine ⟨⟨?_, ?_⟩, fun _ _ hRun => run_of_adjacent hRun⟩
  · rintro ⟨⟨result, count⟩, hRun⟩
    rcases run_of_adjacent hRun with ⟨_, _, _, _, _, _, _, _, hRun'⟩
    exact ⟨_, hRun'⟩
  · rintro ⟨⟨result, count⟩, hRun⟩
    rcases run_of_adjacent hRun with ⟨_, _, _, _, _, _, _, _, hRun'⟩
    exact ⟨_, hRun'⟩

/- A spin that is known, measured along its axis. -/
def knownSpin : Experiment Float :=
  ⟨"known", some ⟨.ket, .vector [.identifier "up", .number ⟨0, 0⟩]⟩,
    none, [⟨0, "sigma_z"⟩]⟩

/- A spin that is not known, measured along the same axis. -/
def mixedSpin : Experiment Float :=
  ⟨"mixed",
    some ⟨.rho, .matrix
      [[.number ⟨0.5, 0⟩, .number ⟨0, 0⟩],
        [.number ⟨0, 0⟩, .number ⟨0.5, 0⟩]]⟩,
    none, [⟨0, "sigma_z"⟩]⟩

/- The first experiment gives the axis its node, in either order. -/
theorem run_exchange_sharedAxis :
    ∃ r r' after count,
      Program.run Options.default
          ([amplitude] ++ .experiment knownSpin ::
            .experiment mixedSpin :: []) =
        .ok (⟨r :: r' :: after⟩, count) ∧
      Program.run Options.default
          ([amplitude] ++ .experiment mixedSpin ::
            .experiment knownSpin :: []) =
        .ok (⟨r' :: r :: after⟩, count) := by
  have hRuns : (Program.run Options.default
      ([amplitude] ++ .experiment knownSpin ::
        .experiment mixedSpin :: [])).toOption.isSome = true := by
    decide +kernel
  rcases Option.isSome_iff_exists.1 hRuns with ⟨⟨result, count⟩, hRun⟩
  rw [toOption_eq_some_iff] at hRun
  rcases (run_exchange Options.default [amplitude] [] knownSpin
      mixedSpin).2 result count hRun with
    ⟨before, r, r', after, hResult, hLength, _, _, hRun'⟩
  have hBefore : before = [] := List.length_eq_zero_iff.1 hLength
  rw [hBefore] at hResult hRun'
  refine ⟨r, r', after, count, ?_, hRun'⟩
  rw [hRun, ← List.nil_append (r :: r' :: after), ← hResult]

end Program

end QuantumLab
