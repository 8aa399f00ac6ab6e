import QuantumLab.Proofs.Lowering.Declarations

/-
  This file says what the plan of an experiment refers to,
  and that every statement is lowered as planned.

  Key definitions include:
    * `Lowering.Refers`
    * `Lowering.PlansExperiment`

  Main statements:
    * `Lowering.plans_addExperiment` says that an experiment
      is planned over nodes that stand for its operators.
    * `Lowering.advances_addStatement` says that a lowering
      keeps to what is planned, statement by statement.
    * `Lowering.experiments_addStatement` says which
      experiments a statement adds.
-/

------------------------------------------------------------
-- Planned experiments
------------------------------------------------------------

namespace QuantumLab

variable {R : Type} [Arithmetic R]

namespace Lowering

/- A node stands for a name that is not only a symbol. -/
structure Refers
    (s : Lowering R)
    (exact : Prop)
    (m : Meaning R)
    (name : String)
    (id : NodeId) : Prop where
  known : m.names.isSymbolic name = false
  stands : ∀ v, m.names.lookup name = some v →
    s.Yields exact id v.shape (m.nodes name)

/- A node stands for the initial state of an experiment. -/
def PlansState
    (s : Lowering R)
    (exact : Prop)
    (m : Meaning R)
    (x : Experiment R)
    (id : NodeId) : Prop :=
  ∃ state value, x.initialState = some state ∧
    m.names.evaluate state.value = .ok value ∧
    value.shape.kind = state.kind.valueKind ∧
    s.Yields exact id value.shape (some value)

/- A channel stands for a dissipation term. -/
structure PlansTerm
    (s : Lowering R)
    (exact : Prop)
    (m : Meaning R)
    (term : LindbladTerm R)
    (jump : Jump R) : Prop where
  operator : s.Refers exact m term.operator jump.operator
  rate : m.names.evaluateReal (Validator.rateUsage term.operator)
    term.rate = .ok jump.rate

/- An evolution of a plan stands for that of an experiment. -/
structure PlansEvolution
    (s : Lowering R)
    (exact : Prop)
    (m : Meaning R)
    (evolution : Evolution R)
    (planned : PlannedEvolution R) : Prop where
  method : planned.method =
    if planned.jumps.isEmpty then .schrodinger else .lindblad
  hamiltonian :
    s.Refers exact m evolution.hamiltonian planned.hamiltonian
  jumps :
    List.Forall₂ (s.PlansTerm exact m) evolution.terms planned.jumps
  times : planned.times = evolution.grid.times

/-
  A planned measurement stands for an event: for a
  measurement in the table or for an observable.
-/
inductive PlansEvent
    (s : Lowering R)
    (exact : Prop)
    (m : Meaning R)
    (table : Table (OutcomeKind × List NodeId))
    (times : List R)
    (event : Event R) : PlannedMeasurement → Prop where
  | measurement
      {kind : OutcomeKind}
      {operators : List NodeId}
      (hFound : table.find? event.measurement =
        some (kind, operators)) :
      PlansEvent s exact m table times event
        ⟨event.measurement, nearestIndex times event.time, kind,
          operators⟩
  | observable
      {operator : NodeId}
      (hNone : table.find? event.measurement = none)
      (hOperator : s.Refers exact m event.measurement operator) :
      PlansEvent s exact m table times event
        ⟨event.measurement, nearestIndex times event.time,
          .observable, [operator]⟩

/- An experiment of a plan stands for an experiment of a program. -/
structure PlansExperiment
    (s : Lowering R)
    (exact : Prop)
    (m : Meaning R)
    (table : Table (OutcomeKind × List NodeId))
    (x : Experiment R)
    (planned : PlannedExperiment R) : Prop where
  name : planned.name = x.name
  initialState : s.PlansState exact m x planned.initialState
  evolution : Option.Rel (s.PlansEvolution exact m)
    x.evolution planned.evolution
  schedule : List.Forall₂
    (s.PlansEvent exact m table (timesOf planned.evolution))
    x.schedule planned.measurements

section Later

variable
  {s last : Lowering R}
  {exact : Prop}
  {m : Meaning R}

variable
  (hAligned : s.Aligned)
  (hGrows : s.Grows last)

include hAligned hGrows

theorem Refers.later
    {name : String}
    {id : NodeId}
    (hRefers : s.Refers exact m name id) :
    last.Refers exact m name id where
  known := hRefers.known
  stands v hName := (hRefers.stands v hName).later hAligned hGrows

theorem PlansState.later
    {x : Experiment R}
    {id : NodeId}
    (hState : s.PlansState exact m x id) :
    last.PlansState exact m x id := by
  rcases hState with ⟨state, value, hState, hValue, hKind, hYields⟩
  exact ⟨state, value, hState, hValue, hKind,
    hYields.later hAligned hGrows⟩

theorem PlansTerm.later
    {term : LindbladTerm R}
    {jump : Jump R}
    (hTerm : s.PlansTerm exact m term jump) :
    last.PlansTerm exact m term jump where
  operator := hTerm.operator.later hAligned hGrows
  rate := hTerm.rate

theorem PlansEvolution.later
    {evolution : Evolution R}
    {planned : PlannedEvolution R}
    (hEvolution : s.PlansEvolution exact m evolution planned) :
    last.PlansEvolution exact m evolution planned where
  method := hEvolution.method
  hamiltonian := hEvolution.hamiltonian.later hAligned hGrows
  jumps := hEvolution.jumps.imp fun _ _ hTerm =>
    hTerm.later hAligned hGrows
  times := hEvolution.times

theorem evolution_later
    {evolution : Option (Evolution R)}
    {planned : Option (PlannedEvolution R)}
    (hEvolution :
      Option.Rel (s.PlansEvolution exact m) evolution planned) :
    Option.Rel (last.PlansEvolution exact m) evolution planned := by
  cases hEvolution with
  | none => exact .none
  | some hBoth => exact .some (hBoth.later hAligned hGrows)

theorem PlansEvent.later
    {table : Table (OutcomeKind × List NodeId)}
    {times : List R}
    {event : Event R}
    {planned : PlannedMeasurement}
    (hEvent : s.PlansEvent exact m table times event planned) :
    last.PlansEvent exact m table times event planned := by
  cases hEvent with
  | measurement hFound => exact .measurement hFound
  | observable hNone hOperator =>
      exact .observable hNone (hOperator.later hAligned hGrows)

/- Later nodes do not matter to an experiment. -/
theorem PlansExperiment.later
    {table : Table (OutcomeKind × List NodeId)}
    {x : Experiment R}
    {planned : PlannedExperiment R}
    (hPlans : s.PlansExperiment exact m table x planned) :
    last.PlansExperiment exact m table x planned where
  name := hPlans.name
  initialState := hPlans.initialState.later hAligned hGrows
  evolution :=
    evolution_later hAligned hGrows hPlans.evolution
  schedule := hPlans.schedule.imp fun _ _ hEvent =>
    hEvent.later hAligned hGrows

end Later

end Lowering

end QuantumLab

------------------------------------------------------------
-- Lowering of experiments
------------------------------------------------------------

namespace QuantumLab

variable {R : Type} [Arithmetic R]

namespace Lowering

variable
  {s later : Lowering R}
  {exact : Prop}
  {m : Meaning R}

/- A name that is resolved is more than a symbol. -/
theorem Follows.refers
    {name : String}
    {id : NodeId}
    (hFollows : s.Follows exact m)
    (hResolve : s.resolve name = .ok (id, later)) :
    s.Appends later ∧ later.Follows exact m ∧
      later.Refers exact m name id := by
  rcases hFollows.resolve hResolve with ⟨hAppends, hLater, hStands⟩
  refine ⟨hAppends, hLater, ?_, hStands⟩
  rw [← Bool.not_eq_true]
  intro hSymbolic
  exact (hFollows.unresolvable name hSymbolic).resolve_ne_ok _ hResolve

theorem follows_lowerInitialState
    {x : Experiment R}
    {id : NodeId}
    (hFollows : s.Follows exact m)
    (hLower : s.lowerInitialState x = .ok (id, later)) :
    s.Appends later ∧ later.Follows exact m ∧
      later.PlansState exact m x id := by
  rcases value_of_lowerInitialState hLower with
    ⟨state, value, name, hState, hValue, hKind, hEmit⟩
  rw [hFollows.environment] at hValue
  have hConstant := hFollows.emitConstant name value
  have hEmits :=
    emits_constant exact hFollows.binds.aligned name value
  have hYields := hEmits.yields
  rw [hEmit] at hConstant hYields
  refine ⟨hConstant.1, hConstant.2, state, value, hState, hValue, ?_,
    hYields⟩
  rw [Value.kind_shape]
  exact hKind

theorem follows_lowerTerms
    {terms : List (LindbladTerm R)}
    {jumps : List (Jump R)}
    (hFollows : s.Follows exact m)
    (hLower : s.lowerTerms terms = .ok (jumps, later)) :
    s.Appends later ∧ later.Follows exact m ∧
      List.Forall₂ (later.PlansTerm exact m) terms jumps := by
  induction terms generalizing s jumps with
  | nil =>
      cases hLower
      exact ⟨Appends.refl _, hFollows, .nil⟩
  | cons term rest ih =>
      rcases bind_eq_ok_iff.1 hLower with
        ⟨⟨operator, first⟩, hResolve, hRest⟩
      rcases hFollows.refers hResolve with
        ⟨hFirst, hFollowsFirst, hRefers⟩
      revert hRest
      simp only
      split
      · next rate hRate =>
        intro hRest
        rcases bind_eq_ok_iff.1 hRest with
          ⟨⟨others, last⟩, hTail, hDone⟩
        cases pure_eq_ok_iff.1 hDone
        rcases ih hFollowsFirst hTail with ⟨hLast, hLater, hOthers⟩
        rw [hFollowsFirst.environment] at hRate
        refine ⟨hFirst.trans hLast, hLater, .cons ⟨?_, hRate⟩ hOthers⟩
        exact hRefers.later hFollowsFirst.binds.aligned hLast.toGrows
      · next fault hRate =>
        intro hRest
        split at hRest
        · exact absurd hRest refuse_ne_ok
        · cases hRest

theorem follows_lowerEvolution
    {evolution : Option (Evolution R)}
    {planned : Option (PlannedEvolution R)}
    (hFollows : s.Follows exact m)
    (hLower : s.lowerEvolution evolution = .ok (planned, later)) :
    s.Appends later ∧ later.Follows exact m ∧
      Option.Rel (later.PlansEvolution exact m) evolution planned := by
  cases evolution with
  | none =>
      cases hLower
      exact ⟨Appends.refl _, hFollows, .none⟩
  | some evolution =>
      rcases bind_eq_ok_iff.1 hLower with
        ⟨⟨hamiltonian, first⟩, hResolve, hRest⟩
      rcases hFollows.refers hResolve with
        ⟨hFirst, hFollowsFirst, hRefers⟩
      rcases bind_eq_ok_iff.1 hRest with ⟨⟨jumps, last⟩, hTerms, hDone⟩
      cases pure_eq_ok_iff.1 hDone
      rcases follows_lowerTerms hFollowsFirst hTerms with
        ⟨hLast, hLater, hJumps⟩
      refine ⟨hFirst.trans hLast, hLater, .some ⟨rfl, ?_, hJumps, rfl⟩⟩
      exact hRefers.later hFollowsFirst.binds.aligned hLast.toGrows

theorem follows_lowerEvent
    {times : List R}
    {event : Event R}
    {planned : PlannedMeasurement}
    (hFollows : s.Follows exact m)
    (hLower : s.lowerEvent times event = .ok (planned, later)) :
    s.Appends later ∧ later.Follows exact m ∧
      later.PlansEvent exact m s.measurements times event planned := by
  unfold lowerEvent at hLower
  cases hFound : s.measurements.find? event.measurement with
  | some entry =>
      rw [hFound] at hLower
      cases hLower
      exact ⟨Appends.refl _, hFollows, .measurement hFound⟩
  | none =>
      simp only [hFound] at hLower
      rcases bind_eq_ok_iff.1 hLower with
        ⟨⟨operator, last⟩, hResolve, hDone⟩
      cases pure_eq_ok_iff.1 hDone
      rcases hFollows.refers hResolve with ⟨hLast, hLater, hRefers⟩
      exact ⟨hLast, hLater, .observable hFound hRefers⟩

theorem follows_lowerSchedule
    {times : List R}
    {schedule : List (Event R)}
    {planned : List PlannedMeasurement}
    (hFollows : s.Follows exact m)
    (hLower : s.lowerSchedule times schedule = .ok (planned, later)) :
    s.Appends later ∧ later.Follows exact m ∧
      List.Forall₂ (later.PlansEvent exact m s.measurements times)
        schedule planned := by
  induction schedule generalizing s planned with
  | nil =>
      cases hLower
      exact ⟨Appends.refl _, hFollows, .nil⟩
  | cons event rest ih =>
      rcases bind_eq_ok_iff.1 hLower with ⟨⟨first, mid⟩, hEvent, hRest⟩
      rcases follows_lowerEvent hFollows hEvent with
        ⟨hMid, hFollowsMid, hFirst⟩
      rcases bind_eq_ok_iff.1 hRest with ⟨⟨others, last⟩, hTail, hDone⟩
      cases pure_eq_ok_iff.1 hDone
      rcases ih hFollowsMid hTail with ⟨hLast, hLater, hOthers⟩
      rw [hMid.measurements] at hOthers
      refine ⟨hMid.trans hLast, hLater, .cons ?_ hOthers⟩
      exact hFirst.later hFollowsMid.binds.aligned hLast.toGrows

/- An experiment is planned over nodes that stand for its operators. -/
theorem plans_addExperiment
    {x : Experiment R}
    {next : Lowering R}
    (hFollows : s.Follows exact m)
    (hAdd : s.addExperiment x = .ok next) :
    s.Grows next ∧ next.Follows exact m ∧
      next.measurements = s.measurements ∧
      ∃ planned,
        next.plan.experiments = s.plan.experiments ++ [planned] ∧
        next.PlansExperiment exact m s.measurements x planned := by
  rcases bind_eq_ok_iff.1 hAdd with ⟨⟨id, first⟩, hState, hRest⟩
  rcases follows_lowerInitialState hFollows hState with
    ⟨hFirst, hFollowsFirst, hPlansState⟩
  rcases bind_eq_ok_iff.1 hRest with
    ⟨⟨evolution, second⟩, hEvolution, hRest⟩
  rcases follows_lowerEvolution hFollowsFirst hEvolution with
    ⟨hSecond, hFollowsSecond, hPlansEvolution⟩
  rcases bind_eq_ok_iff.1 hRest with
    ⟨⟨measurements, last⟩, hSchedule, hDone⟩
  rcases follows_lowerSchedule hFollowsSecond hSchedule with
    ⟨hLast, hFollowsLast, hPlansSchedule⟩
  have hBefore := hFirst.trans hSecond
  have hAppends := hBefore.trans hLast
  rw [hBefore.measurements] at hPlansSchedule
  have hPlans : last.PlansExperiment exact m s.measurements x
      ⟨x.name, id, evolution, measurements⟩ := by
    refine ⟨rfl, ?_, ?_, hPlansSchedule⟩
    · exact hPlansState.later hFollowsFirst.binds.aligned
        (hSecond.trans hLast).toGrows
    · exact evolution_later hFollowsSecond.binds.aligned
        hLast.toGrows hPlansEvolution
  rw [← pure_eq_ok_iff.1 hDone]
  refine ⟨hAppends.toGrows.trans (.of_eq rfl rfl),
    hFollowsLast.of_eq rfl rfl rfl rfl rfl, hAppends.measurements,
    ⟨x.name, id, evolution, measurements⟩, ?_, ?_⟩
  · rw [← hAppends.experiments]
    rfl
  · apply hPlans.later hFollowsLast.binds.aligned
    exact .of_eq rfl rfl

end Lowering

end QuantumLab

------------------------------------------------------------
-- Statements
------------------------------------------------------------

namespace QuantumLab

variable {R : Type} [Arithmetic R]

/- The Kronecker products of a statement fit into machine words. -/
def Environment.StatementFits
    (names : Environment R)
    (d : Statement R) : Prop :=
  ∀ e ∈ d.evaluated, names.TensorsFit e

namespace Lowering

/- Every statement is lowered as planned. -/
theorem advances_addStatement
    {s next : Lowering R}
    {exact : Prop}
    {m : Meaning R}
    {d : Statement R}
    (hFollows : s.Follows exact m)
    (hFits : exact → m.names.StatementFits d)
    (hAdd : s.addStatement d = .ok next) :
    s.Advances exact m d next := by
  cases adds_of_addStatement hAdd with
  | symbol hDefinition hSymbol =>
      refine advances_symbolic hFollows ?_ ?_
      · rw [Environment.after, hDefinition]
        simp [hSymbol]
      · intro e value hOther
        rw [hDefinition] at hOther
        cases hOther
  | undefined hDefinition hNone =>
      exact advances_undefined hFollows hDefinition hNone
  | loaded hDefinition hLoaded hValue =>
      rw [hFollows.environment] at hValue
      exact advances_loaded hFollows hDefinition hLoaded hValue
  | @lowered d e value id later hDefinition hLoaded hValue hLower =>
      rw [hFollows.environment] at hValue
      refine advances_lowered hFollows hDefinition hLoaded hValue ?_
        hLower
      intro h
      exact hFits h e (Statement.mem_evaluated_of_definition hDefinition)
  | measurement hMeasurement =>
      exact advances_addMeasurement hFollows hMeasurement
  | experiment hExperiment =>
      rcases plans_addExperiment hFollows hExperiment with
        ⟨hGrows, hNext, hMeasurements, _⟩
      refine advances_other rfl rfl hGrows hNext
        (fun _ => hMeasurements) ?_
      intro hOther
      cases hOther

/- A statement adds the plan of the experiment that it is, if any. -/
theorem experiments_addStatement
    {s next : Lowering R}
    {exact : Prop}
    {m : Meaning R}
    {d : Statement R}
    (hFollows : s.Follows exact m)
    (hFits : exact → m.names.StatementFits d)
    (hAdd : s.addStatement d = .ok next) :
    ∃ added, next.plan.experiments = s.plan.experiments ++ added ∧
      List.Forall₂ (next.PlansExperiment exact m s.measurements)
        d.experiment?.toList added := by
  cases hExperiment : d.experiment? with
  | none =>
      have hAdvances := advances_addStatement hFollows hFits hAdd
      refine ⟨[], ?_, .nil⟩
      rw [hAdvances.experiments hExperiment, List.append_nil]
  | some x =>
      rw [Statement.experiment?_eq_some_iff.1 hExperiment] at hAdd
      rcases plans_addExperiment hFollows hAdd with
        ⟨_, _, _, planned, hPlanned, hPlans⟩
      exact ⟨[planned], hPlanned, .cons hPlans .nil⟩

/-
  What holds of the experiments before a statement and of the
  plan of the experiment that it is holds of all after it.
-/
theorem Follows.forall_experiments
    {s next : Lowering R}
    {exact : Prop}
    {m : Meaning R}
    {d : Statement R}
    {P : PlannedExperiment R → Prop}
    (hFollows : s.Follows exact m)
    (hFits : exact → m.names.StatementFits d)
    (hAdd : s.addStatement d = .ok next)
    (hEarlier : ∀ e ∈ s.plan.experiments, P e)
    (hAdded : ∀ x planned, d = .experiment x →
      next.PlansExperiment exact m s.measurements x planned →
        P planned) :
    ∀ e ∈ next.plan.experiments, P e := by
  rcases experiments_addStatement hFollows hFits hAdd with
    ⟨added, hAppended, hPlans⟩
  rw [hAppended]
  intro e hMember
  rcases List.mem_append.1 hMember with hOld | hNew
  · exact hEarlier e hOld
  · rcases exists_of_forall₂_right hPlans e hNew with
      ⟨x, hSome, hPlan⟩
    have hExperiment := Option.mem_toList.1 hSome
    exact hAdded x e (Statement.experiment?_eq_some_iff.1 hExperiment)
      hPlan

end Lowering

end QuantumLab
