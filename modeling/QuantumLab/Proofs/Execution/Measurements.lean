import QuantumLab.Proofs.Execution.Results
import QuantumLab.Proofs.Execution.Verification

/-
  This file says that measurements may be made by nodes or by
  experiments.  A node that integrates the Lindblad equation
  has the last state of the experiment that does, and a node
  that measures this state succeeds whenever the experiment
  does, with the same numbers, if both nodes come after their
  operands.  An experiment does not ask for that.

  Key definitions include:
    * `Plan.HasAllocated`
    * `Plan.EndsAt`
    * `Plan.LastState`
    * `Plan.MeasuresInOrder`

  Main statements:
    * `Plan.EndsAt.hasDensity_iff` says that the node has the
      last state of the experiment.
    * `Plan.exists_resultOf_eq` says what an experiment with
      one measurement of its last state ends with.
    * `Plan.EndsAt.denote_projective_iff` says when the node
      that measures this state succeeds.
    * `Plan.measurement_nodes_agree` compares nodes and
      experiments, and `Plan.reversed_nodes_refused` says that
      the order of the nodes matters.
-/

------------------------------------------------------------
-- Answers and plain values
------------------------------------------------------------

namespace QuantumLab

/- Computations with the same results have the same on lists. -/
theorem mapM_eq_ok_congr
    {ε α β : Type}
    {f g : α → Except ε β}
    {xs : List α}
    {ys : List β}
    (hSame : ∀ x y, f x = .ok y ↔ g x = .ok y) :
    xs.mapM f = .ok ys ↔ xs.mapM g = .ok ys := by
  simp only [mapM_eq_ok_iff, hSame]

variable {R : Type} [Arithmetic R]

namespace Plan

variable
  {plan : Plan R}
  {id node : NodeId}

/- The matrix of an operand is that of the node itself. -/
theorem denote_matrix_eq_ok_iff
    {a : Mat R} :
    Operands.matrix plan.denote node id = .ok a ↔
      Operands.ownMatrix plan.answer id = .ok a := by
  rw [Operands.ownMatrix, Operands.matrix_eq_ok_iff,
    Operands.matrix_eq_ok_iff, answer_eq_ok_iff]

theorem denote_channels_eq_ok_iff
    {jumps : List (Jump R)}
    {channels : List (Channel R)} :
    Operands.channels plan.denote node jumps = .ok channels ↔
      Operands.ownChannels plan.answer jumps = .ok channels := by
  refine mapM_eq_ok_congr fun jump channel => ?_
  simp only [bind_eq_ok_iff, denote_matrix_eq_ok_iff]

theorem denote_density_eq_ok_iff
    {rho : Mat R} :
    Operands.density plan.denote node id = .ok rho ↔
      Operands.HasDensity plan.answer id rho := by
  rw [Operands.density_eq_ok_iff]
  constructor
  · rintro (hMatrix | ⟨ket, hKet, rfl⟩)
    · exact ⟨_, answer_eq_ok_iff.2 hMatrix, rfl⟩
    · exact ⟨_, answer_eq_ok_iff.2 hKet, rfl⟩
  · rintro ⟨value, hAnswer, hDensity⟩
    have hValue := answer_eq_ok_iff.1 hAnswer
    cases value with
    | scalar z => cases hDensity
    | vector ket => exact .inr ⟨ket, hValue, Option.some.inj hDensity⟩
    | matrix a =>
        cases hDensity
        exact .inl hValue

/- The operands of a node were allocated before it. -/
def HasAllocated
    {R : Type}
    (plan : Plan R)
    (id : NodeId) : Prop :=
  ∀ operation, plan.operation? id = some operation →
    ∀ operand ∈ operation.operands, operand < id

/- A node with an operation is computed from what was allocated before. -/
theorem denote_of_operation_eq_ok_iff
    {operation : Operation R}
    {value : Value R}
    (hOperation : plan.operation? id = some operation) :
    plan.denote id = .ok value ↔
      plan.HasAllocated id ∧
        operation.compute plan.denote id = .ok value := by
  rw [denote_eq_ok_iff]
  constructor
  · rintro ⟨found, hFound, hBefore, hComputed⟩
    cases hOperation.symm.trans hFound
    refine ⟨fun other hOther => ?_, hComputed⟩
    cases hOperation.symm.trans hOther
    exact hBefore
  · rintro ⟨hAllocated, hComputed⟩
    exact ⟨operation, hOperation, hAllocated operation hOperation,
      hComputed⟩

end Plan

------------------------------------------------------------
-- Last states
------------------------------------------------------------

namespace Plan

/-
  A node that stands for the last state of an experiment: the
  initial state, if there is no evolution, or the integration
  of the Lindblad equation of the evolution.
-/
inductive EndsAt
    (plan : Plan R)
    (e : PlannedExperiment R) : NodeId → Prop
  | still
      (hStill : e.evolution = none) :
      plan.EndsAt e e.initialState
  | evolved
      {node hamiltonian : NodeId}
      {jumps : List (Jump R)}
      {times : List R}
      (hEvolution : e.evolution =
        some ⟨.lindblad, hamiltonian, jumps, times⟩)
      (hNode : plan.operation? node =
        some (.integrateLindblad hamiltonian e.initialState jumps times)) :
      plan.EndsAt e node

/- The states of an experiment, one for each point, end with a given one. -/
def LastState
    (plan : Plan R)
    (e : PlannedExperiment R)
    (rho : Mat R) : Prop :=
  ∃ before,
    Operands.states plan.answer e = .ok (.density, before ++ [rho]) ∧
      (before ++ [rho]).length = e.points

/-
  A node that measures the last state of an experiment comes
  after its operands, and so does the node that integrates to
  this state, if there is an evolution.
-/
structure MeasuresInOrder
    {R : Type}
    (plan : Plan R)
    (e : PlannedExperiment R)
    (node state : NodeId) : Prop where
  measuring : plan.HasAllocated node
  integrating : e.evolution ≠ none → plan.HasAllocated state

variable
  {plan : Plan R}
  {e : PlannedExperiment R}
  {node : NodeId}
  {rho : Mat R}

/- What the states of an open system are computed from. -/
theorem states_lindblad_eq_ok_iff
    {values : Operands R}
    {hamiltonian : NodeId}
    {jumps : List (Jump R)}
    {times : List R}
    {trajectory : StateType × List (Mat R)}
    (hEvolution : e.evolution =
      some ⟨.lindblad, hamiltonian, jumps, times⟩) :
    values.states e = .ok trajectory ↔
      ∃ initial h channels states,
        values.HasDensity e.initialState initial ∧
        values.ownMatrix hamiltonian = .ok h ∧
        values.ownChannels jumps = .ok channels ∧
        (Lindblad.mk h channels).integrate initial times = .ok states ∧
        (.density, states) = trajectory := by
  rw [Operands.states, bind_eq_ok_iff]
  constructor
  · rintro ⟨value, hValue, hRest⟩
    cases hDensity : densityOf? value with
    | none => simp [hDensity] at hRest
    | some initial =>
        rw [hDensity, hEvolution] at hRest
        rcases bind_eq_ok_iff.1 hRest with ⟨h, hMatrix, hRest⟩
        rcases bind_eq_ok_iff.1 hRest with ⟨channels, hChannels, hRest⟩
        rcases bind_eq_ok_iff.1 hRest with ⟨states, hStates, hDone⟩
        exact ⟨initial, h, channels, states, ⟨value, hValue, hDensity⟩,
          hMatrix, hChannels, hStates, pure_eq_ok_iff.1 hDone⟩
  · rintro ⟨initial, h, channels, states, ⟨value, hValue, hDensity⟩,
      hMatrix, hChannels, hStates, rfl⟩
    refine ⟨value, hValue, ?_⟩
    simp only [hDensity, hEvolution, Operands.evolve, hMatrix, hChannels,
      hStates, ok_bind]
    rfl

/- What the value of an integration is computed from. -/
theorem compute_integrateLindblad_eq_ok_iff
    {hamiltonian initialState : NodeId}
    {jumps : List (Jump R)}
    {times : List R}
    {value : Value R} :
    (Operation.integrateLindblad hamiltonian initialState jumps
        times).compute plan.denote node = .ok value ↔
      ∃ initial h channels states,
        Operands.HasDensity plan.answer initialState initial ∧
        Operands.ownMatrix plan.answer hamiltonian = .ok h ∧
        Operands.ownChannels plan.answer jumps = .ok channels ∧
        (Lindblad.mk h channels).integrate initial times = .ok states ∧
        .matrix (states.getLastD initial) = value := by
  simp only [Operation.compute, bind_eq_ok_iff, denote_matrix_eq_ok_iff,
    denote_density_eq_ok_iff, denote_channels_eq_ok_iff, pure_eq_ok_iff]
  constructor
  · rintro ⟨h, hMatrix, initial, hInitial, channels, hChannels, states,
      hStates, hValue⟩
    exact ⟨initial, h, channels, states, hInitial, hMatrix, hChannels,
      hStates, hValue⟩
  · rintro ⟨initial, h, channels, states, hInitial, hMatrix, hChannels,
      hStates, hValue⟩
    exact ⟨h, hMatrix, initial, hInitial, channels, hChannels, states,
      hStates, hValue⟩

/- An integration that succeeds has a last state. -/
theorem exists_last_of_integrate
    {system : Lindblad R}
    {initial : Mat R}
    {times : List R}
    {states : List (Mat R)}
    (hStates : system.integrate initial times = .ok states) :
    ∃ before rho, states = before ++ [rho] := by
  rcases unit_bind_eq_ok_iff.1 hStates with ⟨_, hRest⟩
  rcases unit_bind_eq_ok_iff.1 hRest with ⟨_, hCons⟩
  have hNonempty : states ≠ [] := by
    rw [← pure_eq_ok_iff.1 hCons]
    exact List.cons_ne_nil _ _
  exact ⟨states.dropLast, states.getLast hNonempty,
    (List.dropLast_append_getLast hNonempty).symm⟩

/- Without an evolution the states are that of the initial node alone. -/
theorem states_still_eq_ok_iff
    {values : Operands R}
    {trajectory : StateType × List (Mat R)}
    (hStill : e.evolution = none) :
    values.states e = .ok trajectory ↔
      ∃ initial, values.HasDensity e.initialState initial ∧
        (.density, [initial]) = trajectory := by
  rw [Operands.states, bind_eq_ok_iff]
  constructor
  · rintro ⟨value, hValue, hRest⟩
    cases hDensity : densityOf? value with
    | none => simp [hDensity] at hRest
    | some initial =>
        rw [hDensity, hStill] at hRest
        exact ⟨initial, ⟨value, hValue, hDensity⟩,
          pure_eq_ok_iff.1 hRest⟩
  · rintro ⟨initial, ⟨value, hValue, hDensity⟩, rfl⟩
    refine ⟨value, hValue, ?_⟩
    simp only [hDensity, hStill]
    rfl

namespace EndsAt

/- An experiment that has states has a last one. -/
theorem exists_lastState
    {trajectory : StateType × List (Mat R)}
    (hEnds : plan.EndsAt e node)
    (hStates : Operands.states plan.answer e = .ok trajectory) :
    ∃ rho, plan.LastState e rho := by
  cases hEnds with
  | still hStill =>
      rcases (states_still_eq_ok_iff hStill).1 hStates with
        ⟨initial, _, rfl⟩
      have hPoints : 1 = e.points := by
        rw [PlannedExperiment.points, hStill]
      exact ⟨initial, [], hStates, hPoints⟩
  | evolved hEvolution hNode =>
      rcases (states_lindblad_eq_ok_iff hEvolution).1 hStates with
        ⟨initial, h, channels, states, _, _, _, hIntegrate, rfl⟩
      rcases exists_last_of_integrate hIntegrate with ⟨before, rho, rfl⟩
      refine ⟨rho, before, hStates, ?_⟩
      rw [PlannedExperiment.points, hEvolution]
      exact Lindblad.length_integrate hIntegrate

/- The node has the last state of the experiment. -/
theorem hasDensity_iff
    (hEnds : plan.EndsAt e node) :
    Operands.HasDensity plan.answer node rho ↔
      (e.evolution ≠ none → plan.HasAllocated node) ∧
        plan.LastState e rho := by
  cases hEnds with
  | still hStill =>
      have hPoints : [rho].length = e.points := by
        rw [PlannedExperiment.points, hStill]
        rfl
      constructor
      · intro hDensity
        have hStates : Operands.states plan.answer e =
            .ok (.density, [rho]) :=
          (states_still_eq_ok_iff hStill).2 ⟨rho, hDensity, rfl⟩
        exact ⟨fun hEvolves => absurd hStill hEvolves, [], hStates,
          hPoints⟩
      · rintro ⟨_, before, hStates, _⟩
        rcases (states_still_eq_ok_iff hStill).1 hStates with
          ⟨initial, hInitial, hSame⟩
        have hList : [initial] = before ++ [rho] :=
          congrArg Prod.snd hSame
        have hLast : initial = rho := by
          simpa using congrArg List.getLast? hList
        exact hLast ▸ hInitial
  | evolved hEvolution hNode =>
      constructor
      · rintro ⟨value, hAnswer, hDensity⟩
        rcases (denote_of_operation_eq_ok_iff hNode).1
          (answer_eq_ok_iff.1 hAnswer) with ⟨hAllocated, hComputed⟩
        rcases compute_integrateLindblad_eq_ok_iff.1 hComputed with
          ⟨initial, h, channels, states, hInitial, hMatrix, hChannels,
            hIntegrate, rfl⟩
        rcases exists_last_of_integrate hIntegrate with
          ⟨before, last, rfl⟩
        have hLast : last = rho := by
          simpa [densityOf?] using hDensity
        subst hLast
        refine ⟨fun _ => hAllocated, before, ?_, ?_⟩
        · exact (states_lindblad_eq_ok_iff hEvolution).2
            ⟨initial, h, channels, _, hInitial, hMatrix, hChannels,
              hIntegrate, rfl⟩
        · rw [PlannedExperiment.points, hEvolution]
          exact Lindblad.length_integrate hIntegrate
      · rintro ⟨hIntegrating, before, hStates, _⟩
        have hEvolves : e.evolution ≠ none := by
          rw [hEvolution]
          exact Option.some_ne_none _
        have hAllocated := hIntegrating hEvolves
        rcases (states_lindblad_eq_ok_iff hEvolution).1 hStates with
          ⟨initial, h, channels, states, hInitial, hMatrix, hChannels,
            hIntegrate, hSame⟩
        have hList : states = before ++ [rho] := congrArg Prod.snd hSame
        have hValue := (denote_of_operation_eq_ok_iff hNode).2
          ⟨hAllocated, compute_integrateLindblad_eq_ok_iff.2
            ⟨initial, h, channels, states, hInitial, hMatrix, hChannels,
              hIntegrate, rfl⟩⟩
        refine ⟨_, answer_eq_ok_iff.2 hValue, ?_⟩
        simp [densityOf?, hList]

end EndsAt

end Plan

end QuantumLab

------------------------------------------------------------
-- Measurements of the last state
------------------------------------------------------------

namespace QuantumLab

variable {R : Type} [Arithmetic R]

/- Real numbers as a vector: their parts are known. -/
theorem eq_realVector_iff
    {v : Vec R}
    {xs : List R} :
    v = Operation.realVector xs ↔
      v.entries.toList.map Scalar.re = xs ∧
        ∀ z ∈ v.entries.toList, z.im = 0.0 := by
  constructor
  · rintro rfl
    simp [Operation.realVector, Scalar.ofReal, Function.comp_def]
  · rintro ⟨rfl, hImaginary⟩
    have hEntries :
        (v.entries.toList.map Scalar.re).map Scalar.ofReal =
          v.entries.toList := by
      rw [List.map_map]
      refine (List.map_congr_left fun z hMember => ?_).trans (List.map_id _)
      exact congrArg (Scalar.mk z.re) (hImaginary z hMember).symm
    rw [Operation.realVector, hEntries]

namespace Plan

variable
  {plan : Plan R}
  {e : PlannedExperiment R}
  {m : PlannedMeasurement}
  {k node : NodeId}
  {rho : Mat R}

omit [Arithmetic R] in
/- A proper measurement of the last state can be made. -/
theorem requireMeasurable_last
    {times : List R}
    {before : List (Mat R)}
    (hLast : m.timeIndex = times.length - 1)
    (hLength : (before ++ [rho]).length = times.length)
    (hOperators : m.operators ≠ [])
    (hSingle : m.kind = .observable → m.operators.length = 1) :
    ∃ time, requireMeasurable m times (before ++ [rho]) =
      .ok (time, rho) := by
  have hBefore : before.length = m.timeIndex := by
    simp at hLength
    omega
  have hInside : m.timeIndex < times.length := by
    simp at hLength
    omega
  have hState : (before ++ [rho])[m.timeIndex]? = some rho := by
    rw [← hBefore]
    exact List.getElem?_concat_length
  have hTime := List.getElem?_eq_getElem hInside
  have hProper : ¬ (m.kind = .observable ∧ m.operators.length ≠ 1) :=
    fun hBoth => hBoth.2 (hSingle hBoth.1)
  refine ⟨times[m.timeIndex], ?_⟩
  rw [requireMeasurable, hTime, hState]
  simp only [List.isEmpty_iff, hOperators, if_false, if_neg hProper]

/- An experiment has states only of a node that is there. -/
theorem lt_size_of_states
    {trajectory : StateType × List (Mat R)}
    (hStates : Operands.states plan.answer e = .ok trajectory) :
    e.initialState < plan.size := by
  rcases bind_eq_ok_iff.1 hStates with ⟨value, hAnswer, _⟩
  exact lt_size_of_denote (answer_eq_ok_iff.1 hAnswer)

/-
  An experiment with one measurement, of its last state,
  ends as the measurement of the state does.
-/
theorem exists_resultOf_eq
    {operators : List (Mat R)}
    (hOnly : e.measurements = [m])
    (hLast : m.timeIndex = e.points - 1)
    (hOperators : m.operators ≠ [])
    (hSingle : m.kind = .observable → m.operators.length = 1)
    (hState : plan.LastState e rho)
    (hMatrices : m.operators.mapM (Operands.ownMatrix plan.answer) =
      .ok operators)
    (tolerance : R) :
    ∃ time, plan.resultOf tolerance e =
      (fun outcome => ⟨e.name, timesOf e, .density, [outcome]⟩) <$>
        Operands.outcomeOf tolerance m time rho operators := by
  rcases hState with ⟨before, hStates, hLength⟩
  rw [← length_timesOf] at hLast hLength
  rcases requireMeasurable_last hLast hLength hOperators hSingle with
    ⟨time, hMeasurable⟩
  refine ⟨time, ?_⟩
  have hMeasure : Operands.measure plan.answer tolerance (timesOf e)
      (before ++ [rho]) m =
        Operands.outcomeOf tolerance m time rho operators := by
    simp only [Operands.measure, hMeasurable, hMatrices, ok_bind]
  rw [resultOf, if_neg (Nat.not_le.2 (lt_size_of_states hStates))]
  simp only [Operands.runExperiment, hStates, ok_bind, hOnly,
    List.mapM_cons, hMeasure]
  cases Operands.outcomeOf tolerance m time rho operators with
  | ok outcome => rfl
  | error fault => rfl

/-
  An experiment that only takes the expectation of one
  observable, in its last state, ends as this expectation.
-/
theorem exists_resultOf_observable
    {o : NodeId}
    {a : Mat R}
    (hOnly : e.measurements = [m])
    (hLast : m.timeIndex = e.points - 1)
    (hKind : m.kind = .observable)
    (hOperators : m.operators = [o])
    (hState : plan.LastState e rho)
    (hMatrix : Operands.ownMatrix plan.answer o = .ok a)
    (tolerance : R) :
    ∃ time, plan.resultOf tolerance e =
      (fun x => ⟨e.name, timesOf e, .density,
        [⟨m.name, m.kind, m.timeIndex, time, [], some x⟩]⟩) <$>
        realExpectation tolerance m.name a rho := by
  have hMatrices : m.operators.mapM (Operands.ownMatrix plan.answer) =
      .ok [a] := by
    rw [hOperators, List.mapM_cons, hMatrix]
    rfl
  have hNonempty : m.operators ≠ [] :=
    hOperators ▸ List.cons_ne_nil _ _
  have hSingle : m.operators.length = 1 := congrArg List.length hOperators
  rcases exists_resultOf_eq hOnly hLast hNonempty (fun _ => hSingle)
    hState hMatrices tolerance with ⟨time, hResult⟩
  rw [Operands.outcomeOf_expectation hKind, Functor.map_map] at hResult
  exact ⟨time, hResult⟩

/- An experiment that succeeds has a last state and its operators. -/
theorem EndsAt.exists_of_resultOf
    {tolerance : R}
    {result : ExperimentResult R}
    (hEnds : plan.EndsAt e k)
    (hOnly : e.measurements = [m])
    (hResult : plan.resultOf tolerance e = .ok result) :
    (∃ rho, plan.LastState e rho) ∧
      ∃ operators, m.operators.mapM (Operands.ownMatrix plan.answer) =
        .ok operators := by
  rw [resultOf] at hResult
  by_cases hOutside : plan.size ≤ e.initialState
  · rw [if_pos hOutside] at hResult
    cases hResult
  · rw [if_neg hOutside] at hResult
    rcases bind_eq_ok_iff.1 hResult with ⟨trajectory, hStates, hRest⟩
    refine ⟨hEnds.exists_lastState hStates, ?_⟩
    simp only [hOnly, List.mapM_cons] at hRest
    rcases exists_of_bind_ok hRest with ⟨outcomes, hOutcomes⟩
    rcases exists_of_bind_ok hOutcomes with ⟨outcome, hOutcome⟩
    rcases bind_eq_ok_iff.1 hOutcome with ⟨point, _, hMeasured⟩
    exact exists_of_bind_ok hMeasured

------------------------------------------------------------
-- Nodes that measure
------------------------------------------------------------

theorem denote_measureProjective_eq_ok_iff
    {ids : List NodeId}
    {value : Value R}
    (hNode : plan.operation? node = some (.measureProjective ids k)) :
    plan.denote node = .ok value ↔
      plan.HasAllocated node ∧ ∃ operators rho ps,
        ids.mapM (Operands.ownMatrix plan.answer) = .ok operators ∧
        Operands.HasDensity plan.answer k rho ∧
        Guarded.probabilities operators rho = .ok ps ∧
        value = .vector (Operation.realVector ps) := by
  rw [denote_of_operation_eq_ok_iff hNode]
  refine and_congr_right fun _ => ?_
  simp only [Operation.compute, bind_eq_ok_iff, denote_density_eq_ok_iff,
    pure_eq_ok_iff, mapM_eq_ok_congr fun _ _ => denote_matrix_eq_ok_iff]
  constructor
  · rintro ⟨operators, hMatrices, rho, hState, ps, hProbabilities, rfl⟩
    exact ⟨operators, rho, ps, hMatrices, hState, hProbabilities, rfl⟩
  · rintro ⟨operators, rho, ps, hMatrices, hState, hProbabilities, rfl⟩
    exact ⟨operators, hMatrices, rho, hState, ps, hProbabilities, rfl⟩

theorem denote_measureExpectation_eq_ok_iff
    {o : NodeId}
    {value : Value R}
    (hNode : plan.operation? node = some (.measureExpectation o k)) :
    plan.denote node = .ok value ↔
      plan.HasAllocated node ∧ ∃ a rho z,
        Operands.ownMatrix plan.answer o = .ok a ∧
        Operands.HasDensity plan.answer k rho ∧
        Guarded.expectation a rho = .ok z ∧ value = .scalar z := by
  rw [denote_of_operation_eq_ok_iff hNode]
  refine and_congr_right fun _ => ?_
  simp only [Operation.compute, bind_eq_ok_iff, denote_density_eq_ok_iff,
    denote_matrix_eq_ok_iff, map_eq_ok_iff]
  constructor
  · rintro ⟨a, hMatrix, rho, hState, z, hExpectation, rfl⟩
    exact ⟨a, rho, z, hMatrix, hState, hExpectation, rfl⟩
  · rintro ⟨a, rho, z, hMatrix, hState, hExpectation, rfl⟩
    exact ⟨a, hMatrix, rho, hState, z, hExpectation, rfl⟩

namespace EndsAt

/-
  A node with probabilities has those of the experiment, and
  there are such probabilities if the experiment succeeds.
-/
theorem denote_projective_iff
    {value : Value R}
    (hEnds : plan.EndsAt e k)
    (hOnly : e.measurements = [m])
    (hLast : m.timeIndex = e.points - 1)
    (hKind : m.kind ≠ .observable)
    (hOperators : m.operators ≠ [])
    (hNode : plan.operation? node =
      some (.measureProjective m.operators k))
    (tolerance : R) :
    plan.denote node = .ok value ↔
      plan.MeasuresInOrder e node k ∧
        ∃ result outcome, plan.resultOf tolerance e = .ok result ∧
          result.outcomes = [outcome] ∧
          value = .vector (Operation.realVector outcome.probabilities) := by
  have hSingle : m.kind = .observable → m.operators.length = 1 :=
    fun hObservable => absurd hObservable hKind
  rw [denote_measureProjective_eq_ok_iff hNode]
  constructor
  · rintro ⟨hAllocated, operators, rho, ps, hMatrices, hDensity,
      hProbabilities, rfl⟩
    rcases hEnds.hasDensity_iff.1 hDensity with ⟨hIntegrating, hState⟩
    rcases exists_resultOf_eq hOnly hLast hOperators hSingle hState
      hMatrices tolerance with ⟨time, hResult⟩
    rw [Operands.outcomeOf_probabilities hKind, hProbabilities] at hResult
    exact ⟨⟨hAllocated, hIntegrating⟩, _, _, hResult, rfl, rfl⟩
  · rintro ⟨hOrder, result, outcome, hResult, hOutcome, rfl⟩
    rcases hEnds.exists_of_resultOf hOnly hResult with
      ⟨⟨rho, hState⟩, operators, hMatrices⟩
    rcases exists_resultOf_eq hOnly hLast hOperators hSingle hState
      hMatrices tolerance with ⟨time, hMade⟩
    rw [hMade, Operands.outcomeOf_probabilities hKind] at hResult
    rcases map_eq_ok_iff.1 hResult with ⟨made, hMeasured, rfl⟩
    rcases map_eq_ok_iff.1 hMeasured with ⟨ps, hProbabilities, rfl⟩
    cases hOutcome
    exact ⟨hOrder.measuring, operators, rho, ps, hMatrices,
      hEnds.hasDensity_iff.2 ⟨hOrder.integrating, hState⟩,
      hProbabilities, rfl⟩

/-
  A node with an expectation has that of the experiment,
  unless the experiment refuses its imaginary part.
-/
theorem resultOf_of_denote_expectation
    {o : NodeId}
    {value : Value R}
    (hEnds : plan.EndsAt e k)
    (hOnly : e.measurements = [m])
    (hLast : m.timeIndex = e.points - 1)
    (hKind : m.kind = .observable)
    (hOperators : m.operators = [o])
    (hNode : plan.operation? node = some (.measureExpectation o k))
    (tolerance : R)
    (hValue : plan.denote node = .ok value) :
    ∃ z, value = .scalar z ∧
      if Arithmetic.less tolerance (Arithmetic.abs z.im) then
        plan.resultOf tolerance e =
          .error ⟨.violation .hermiticity m.name (Arithmetic.abs z.im)
            "expectation value has a non-negligible imaginary part", none⟩
      else
        ∃ result outcome, plan.resultOf tolerance e = .ok result ∧
          result.outcomes = [outcome] ∧
          outcome.expectation = some z.re := by
  rcases (denote_measureExpectation_eq_ok_iff hNode).1 hValue with
    ⟨_, a, rho, z, hMatrix, hDensity, hExpectation, rfl⟩
  have hState := (hEnds.hasDensity_iff.1 hDensity).2
  rcases exists_resultOf_observable hOnly hLast hKind hOperators hState
    hMatrix tolerance with ⟨time, hResult⟩
  rw [realExpectation, hExpectation, ok_bind] at hResult
  refine ⟨z, rfl, ?_⟩
  by_cases hImaginary :
      Arithmetic.less tolerance (Arithmetic.abs z.im) = true
  · rw [if_pos hImaginary] at hResult ⊢
    exact hResult
  · rw [if_neg hImaginary] at hResult ⊢
    exact ⟨_, _, hResult, rfl, rfl⟩

/- There is an expectation if the experiment succeeds. -/
theorem exists_denote_expectation
    {o : NodeId}
    {tolerance : R}
    {result : ExperimentResult R}
    (hEnds : plan.EndsAt e k)
    (hOnly : e.measurements = [m])
    (hLast : m.timeIndex = e.points - 1)
    (hKind : m.kind = .observable)
    (hOperators : m.operators = [o])
    (hNode : plan.operation? node = some (.measureExpectation o k))
    (hOrder : plan.MeasuresInOrder e node k)
    (hResult : plan.resultOf tolerance e = .ok result) :
    ∃ value, plan.denote node = .ok value := by
  rcases hEnds.exists_of_resultOf hOnly hResult with
    ⟨⟨rho, hState⟩, operators, hMatrices⟩
  rw [hOperators, List.mapM_cons] at hMatrices
  rcases exists_of_bind_ok hMatrices with ⟨a, hMatrix⟩
  rcases exists_resultOf_observable hOnly hLast hKind hOperators hState
    hMatrix tolerance with ⟨time, hMade⟩
  rcases map_eq_ok_iff.1 (hMade.symm.trans hResult) with ⟨x, hReal, _⟩
  rcases exists_of_bind_ok hReal with ⟨z, hExpectation⟩
  exact ⟨.scalar z, (denote_measureExpectation_eq_ok_iff hNode).2
    ⟨hOrder.measuring, a, rho, z, hMatrix,
      hEnds.hasDensity_iff.2 ⟨hOrder.integrating, hState⟩,
      hExpectation, rfl⟩⟩

end EndsAt

/-
  Measurements by nodes and by experiments agree.  A node
  stands for the last state of an experiment, which makes one
  measurement there.  From whatever was computed before, a
  node with the probabilities of this state has a value if
  and only if the experiment succeeds, provided that the two
  nodes come after their operands; otherwise it has none.  The
  entries of the value are the probabilities of the outcome,
  as real numbers.  A node with the expectation of an
  observable has the reported expectation for a real part,
  unless the experiment refuses the imaginary part.  In that
  order it has a value whenever the experiment succeeds.
-/
theorem measurement_nodes_agree
    {memo memo' : Memo R}
    (hEnds : plan.EndsAt e k)
    (hOnly : e.measurements = [m])
    (hLast : m.timeIndex = e.points - 1)
    (hReachable : plan.Reachable memo)
    (hReachable' : plan.Reachable memo')
    (tolerance : R) :
    (m.kind ≠ .observable → m.operators ≠ [] →
      plan.operation? node = some (.measureProjective m.operators k) →
      ∀ value, ((plan.evaluate node).run memo).1 = .ok value ↔
        plan.MeasuresInOrder e node k ∧
          ∃ result outcome v,
            ((plan.runExperiment tolerance e).run memo').1 =
              .ok result ∧
            result.outcomes = [outcome] ∧ value = .vector v ∧
            v.entries.toList.map Scalar.re = outcome.probabilities ∧
            ∀ z ∈ v.entries.toList, z.im = 0.0) ∧
    ∀ o, m.kind = .observable → m.operators = [o] →
      plan.operation? node = some (.measureExpectation o k) →
      (∀ value, ((plan.evaluate node).run memo).1 = .ok value →
        ∃ z, value = .scalar z ∧
          if Arithmetic.less tolerance (Arithmetic.abs z.im) then
            ((plan.runExperiment tolerance e).run memo').1 =
              .error ⟨.violation .hermiticity m.name
                (Arithmetic.abs z.im)
                "expectation value has a non-negligible imaginary part",
                none⟩
          else
            ∃ result outcome,
              ((plan.runExperiment tolerance e).run memo').1 =
                .ok result ∧
              result.outcomes = [outcome] ∧
              outcome.expectation = some z.re) ∧
      (plan.MeasuresInOrder e node k → ∀ result,
        ((plan.runExperiment tolerance e).run memo').1 = .ok result →
          ∃ value, ((plan.evaluate node).run memo).1 = .ok value) := by
  simp only [evaluate_eq hReachable, runExperiment_eq hReachable',
    answer_eq_ok_iff]
  constructor
  · intro hKind hOperators hNode value
    rw [hEnds.denote_projective_iff hOnly hLast hKind hOperators hNode
      tolerance]
    refine and_congr_right fun _ => ?_
    constructor
    · rintro ⟨result, outcome, hResult, hOutcome, rfl⟩
      exact ⟨result, outcome, _, hResult, hOutcome, rfl,
        eq_realVector_iff.1 rfl⟩
    · rintro ⟨result, outcome, v, hResult, hOutcome, rfl, hEntries⟩
      exact ⟨result, outcome, hResult, hOutcome,
        congrArg Value.vector (eq_realVector_iff.2 hEntries)⟩
  · intro o hKind hOperators hNode
    constructor
    · intro value hValue
      exact hEnds.resultOf_of_denote_expectation hOnly hLast hKind
        hOperators hNode tolerance hValue
    · intro hOrder result hResult
      exact hEnds.exists_denote_expectation hOnly hLast hKind hOperators
        hNode hOrder hResult

/- An integration by a node, and the nodes that measure its state. -/
def measuredSpin : Plan Float where
  nodes := #[
    .loadVector "up" ⟨#[Scalar.one, Scalar.zero]⟩,
    .loadMatrix "identity" (Mat.identity 2),
    .integrateLindblad 1 0 [⟨1, 0.25⟩] [0.0],
    .measureProjective [1] 2,
    .measureExpectation 1 2]
  experiments := []

/- The experiment that makes a measurement of the same state. -/
def spinExperiment (kind : OutcomeKind) : PlannedExperiment Float :=
  ⟨"decay", 0, some ⟨.lindblad, 1, [⟨1, 0.25⟩], [0.0]⟩,
    [⟨"total", 0, kind, [1]⟩]⟩

/-
  The probability that the node measures is that of the
  experiment, also if the experiment is made first, and the
  node that takes the expectation has a scalar.
-/
theorem measurement_nodes_agree_measuredSpin :
    (∃ result outcome v,
      ((measuredSpin.evaluate 3).run (.initial measuredSpin)).1 =
        .ok (.vector v) ∧
      ((measuredSpin.runExperiment 0 (spinExperiment .povm)).run
        (.initial measuredSpin)).1 = .ok result ∧
      result.outcomes = [outcome] ∧
      v.entries.toList.map Scalar.re = outcome.probabilities) ∧
    ∃ z, ((measuredSpin.evaluate 4).run
      ((measuredSpin.evaluate 3).run (.initial measuredSpin)).2).1 =
        .ok (.scalar z) := by
  have hEnds (kind : OutcomeKind) :
      measuredSpin.EndsAt (spinExperiment kind) 2 := .evolved rfl rfl
  have hProbabilities :=
    @measurement_nodes_agree Float _ measuredSpin _ _ 2 3 _ _
      (hEnds .povm) rfl rfl .initial .initial 0
  have hExpectation :=
    @measurement_nodes_agree Float _ measuredSpin _ _ 2 4 _ _
      (hEnds .observable) rfl rfl (.evaluate 3 .initial) .initial 0
  constructor
  · have hValue : ∃ value,
        ((measuredSpin.evaluate 3).run (.initial measuredSpin)).1 =
          .ok value := ⟨_, rfl⟩
    rcases hValue with ⟨value, hValue⟩
    have hMeasured := (hProbabilities.1 nofun (List.cons_ne_nil _ _) rfl
      value).1 hValue
    rcases hMeasured.2 with
      ⟨result, outcome, v, hResult, hOutcome, rfl, hEntries, _⟩
    exact ⟨result, outcome, v, hValue, hResult, hOutcome, hEntries⟩
  · have hValue : ∃ value, ((measuredSpin.evaluate 4).run
        ((measuredSpin.evaluate 3).run (.initial measuredSpin)).2).1 =
          .ok value := ⟨_, rfl⟩
    rcases hValue with ⟨value, hValue⟩
    rcases (hExpectation.2 1 rfl rfl rfl).1 value hValue with ⟨z, rfl, _⟩
    exact ⟨z, hValue⟩

/-
  The same nodes with the measurement of the probabilities in
  front of the integration, and the integration in front of
  what it is computed from.
-/
def reversedSpin : Plan Float where
  nodes := #[
    .measureProjective [2] 1,
    .integrateLindblad 2 3 [⟨2, 0.25⟩] [0.0],
    .loadMatrix "identity" (Mat.identity 2),
    .loadVector "up" ⟨#[Scalar.one, Scalar.zero]⟩,
    .measureExpectation 2 1]
  experiments := []

/- The experiment that makes a measurement there. -/
def reversedExperiment (kind : OutcomeKind) : PlannedExperiment Float :=
  ⟨"decay", 3, some ⟨.lindblad, 2, [⟨2, 0.25⟩], [0.0]⟩,
    [⟨"total", 0, kind, [2]⟩]⟩

/-
  All operands exist and the experiments succeed, but neither
  measuring node has a value: the first comes before its
  operands, and the second measures a node that does.
-/
theorem reversed_nodes_refused :
    (∀ operation ∈ reversedSpin.nodes,
      ∀ operand ∈ operation.operands, operand < reversedSpin.size) ∧
    (∀ kind, reversedSpin.EndsAt (reversedExperiment kind) 1) ∧
    reversedSpin.operation? 0 = some (.measureProjective [2] 1) ∧
    reversedSpin.operation? 4 = some (.measureExpectation 2 1) ∧
    (∀ kind, ∃ result,
      ((reversedSpin.runExperiment 0 (reversedExperiment kind)).run
        (.initial reversedSpin)).1 = .ok result) ∧
    ((reversedSpin.evaluate 0).run (.initial reversedSpin)).1 =
      .error ⟨.unallocatedOperand "MeasureProjective" 0 2, some 0⟩ ∧
    ((reversedSpin.evaluate 4).run (.initial reversedSpin)).1 =
      .error ⟨.unallocatedOperand "IntegrateLindblad" 1 2, some 1⟩ := by
  refine ⟨?_, fun kind => .evolved rfl rfl, rfl, rfl, ?_, rfl, rfl⟩
  · decide
  · intro kind
    cases kind with
    | projective => exact ⟨_, rfl⟩
    | povm => exact ⟨_, rfl⟩
    | observable =>
        have hRuns : (((reversedSpin.runExperiment 0
            (reversedExperiment .observable)).run
              (.initial reversedSpin)).1).toOption.isSome = true := by
          decide +kernel
        rcases Option.isSome_iff_exists.1 hRuns with ⟨result, hSome⟩
        exact ⟨result, toOption_eq_some_iff.1 hSome⟩

end Plan

end QuantumLab
