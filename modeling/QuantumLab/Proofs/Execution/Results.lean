import QuantumLab.Proofs.Execution.Memoization

/-
  This file says what experiments give in terms of the values
  of nodes alone.  A session looks up the values kept, and
  keeps more of them; without them an experiment is a plain
  computation on what the evaluations of nodes answer.

  Key definitions include:
    * `Session.Gives`
    * `Operands.states`, `Operands.measure`,
      `Operands.runExperiment`
    * `Plan.resultOf`
    * `Operands.Restarts`

  Main statements:
    * `Session.Gives.bind` and `Session.Gives.mapM` say what
      sequences of computations give.
    * `Plan.runExperiment_eq` says that an experiment ends
      with the result of the plain computation, whatever was
      computed before.
    * `Operands.Restarts.runExperiment_eq` says that two
      experiments which differ in the node of their initial
      state have the same result if the states are the same.
-/

------------------------------------------------------------
-- Known results
------------------------------------------------------------

namespace QuantumLab

namespace Session

variable {R α β : Type}

/-
  A computation keeps an invariant of the values kept and
  ends with a given result or fault from all values that
  satisfy it.
-/
def Gives
    (I : Memo R → Prop)
    (x : Session R α)
    (result : Except (Fault R) α) : Prop :=
  ∀ memo, I memo →
    I (x.run memo).2 ∧ (x.run memo).1 = result

variable {I : Memo R → Prop}

theorem Gives.lift
    (result : Except (Fault R) α) :
    Gives I (Session.lift result) result :=
  fun _ hMemo => ⟨hMemo, rfl⟩

theorem Gives.pure
    (a : α) :
    Gives I (Pure.pure a : Session R α) (.ok a) :=
  fun _ hMemo => ⟨hMemo, rfl⟩

theorem Gives.fail
    (fault : Fault R) :
    Gives I (Session.fail fault : Session R α) (.error fault) :=
  fun _ hMemo => ⟨hMemo, rfl⟩

theorem Gives.bind
    {x : Session R α}
    {f : α → Session R β}
    {first : Except (Fault R) α}
    {g : α → Except (Fault R) β}
    (hFirst : Gives I x first)
    (hSecond : ∀ a, Gives I (f a) (g a)) :
    Gives I (x >>= f) (first >>= g) := by
  intro memo hMemo
  rcases hFirst memo hMemo with ⟨hKept, hResult⟩
  rcases hRun : x.run memo with ⟨result, later⟩
  rw [hRun] at hKept hResult
  cases hResult
  rw [run_bind, hRun]
  cases result with
  | ok a => exact hSecond a later hKept
  | error fault => exact ⟨hKept, rfl⟩

theorem Gives.mapM
    {f : α → Session R β}
    {g : α → Except (Fault R) β}
    (hEach : ∀ x, Gives I (f x) (g x))
    (xs : List α) :
    Gives I (xs.mapM f) (xs.mapM g) := by
  induction xs with
  | nil => exact Gives.pure []
  | cons x xs ih =>
      rw [List.mapM_cons, List.mapM_cons]
      refine (hEach x).bind fun y => ?_
      exact ih.bind fun ys => Gives.pure (y :: ys)

end Session

end QuantumLab

------------------------------------------------------------
-- Experiments on values
------------------------------------------------------------

namespace QuantumLab

variable {R : Type} [Arithmetic R]

namespace Operands

/- The matrix of a node that an experiment refers to. -/
def ownMatrix
    {R : Type}
    (values : Operands R)
    (id : NodeId) : Except (Fault R) (Mat R) :=
  values.matrix id id

/- The dissipation channels of an evolution. -/
def ownChannels
    {R : Type}
    (values : Operands R)
    (jumps : List (Jump R)) : Except (Fault R) (List (Channel R)) :=
  jumps.mapM fun jump => do
    let operator ← values.ownMatrix jump.operator
    return ⟨operator, jump.rate⟩

/- The density matrices of an evolution from an initial state. -/
def evolve
    (values : Operands R)
    (e : PlannedExperiment R)
    (evolution : PlannedEvolution R)
    (initial : Value R)
    (rho : Mat R) : Except (Fault R) (StateType × List (Mat R)) := do
  let h ← values.ownMatrix evolution.hamiltonian
  match evolution.method, initial with
  | .schrodinger, .vector ket =>
      let kets ← Unitary.evolve h ket evolution.times
      return (.pure, kets.map fun ket => Mat.outer ket ket)
  | .schrodinger, _ =>
      .error ⟨.ketRequired e.name, some e.initialState⟩
  | .lindblad, _ =>
      let channels ← values.ownChannels evolution.jumps
      let states ← (Lindblad.mk h channels).integrate rho evolution.times
      return (.density, states)

/- The density matrices of an experiment. -/
def states
    (values : Operands R)
    (e : PlannedExperiment R) :
    Except (Fault R) (StateType × List (Mat R)) := do
  let initial ← values e.initialState
  match Plan.densityOf? initial with
  | none => .error ⟨.scalarInitialState e.name, some e.initialState⟩
  | some rho =>
      match e.evolution with
      | none => return (.density, [rho])
      | some evolution => values.evolve e evolution initial rho

/- The outcome of a measurement of operators in a state. -/
def outcomeOf
    (tolerance : R)
    (m : PlannedMeasurement)
    (time : R)
    (rho : Mat R)
    (operators : List (Mat R)) : Except (Fault R) (Outcome R) :=
  match m.kind, operators with
  | .observable, a :: _ => do
      let x ← Plan.realExpectation tolerance m.name a rho
      return ⟨m.name, m.kind, m.timeIndex, time, [], some x⟩
  | _, _ => do
      let ps ← Guarded.probabilities operators rho
      return ⟨m.name, m.kind, m.timeIndex, time, ps, none⟩

section Outcomes

variable
  {m : PlannedMeasurement}
  {rho : Mat R}

/- A projective or general measurement reports probabilities. -/
theorem outcomeOf_probabilities
    {operators : List (Mat R)}
    (hKind : m.kind ≠ .observable)
    (tolerance time : R) :
    outcomeOf tolerance m time rho operators =
      (fun ps => ⟨m.name, m.kind, m.timeIndex, time, ps, none⟩) <$>
        Guarded.probabilities operators rho := by
  rcases m with ⟨name, index, kind, ids⟩
  cases kind with
  | projective => exact bind_pure_comp _ _
  | povm => exact bind_pure_comp _ _
  | observable => exact absurd rfl hKind

/- The measurement of an observable reports its expectation. -/
theorem outcomeOf_expectation
    {a : Mat R}
    (hKind : m.kind = .observable)
    (tolerance time : R) :
    outcomeOf tolerance m time rho [a] =
      (fun x => ⟨m.name, m.kind, m.timeIndex, time, [], some x⟩) <$>
        Plan.realExpectation tolerance m.name a rho := by
  rcases m with ⟨name, index, kind, ids⟩
  cases hKind
  exact bind_pure_comp _ _

end Outcomes

/- The outcome of a measurement on a trajectory. -/
def measure
    (values : Operands R)
    (tolerance : R)
    (times : List R)
    (states : List (Mat R))
    (m : PlannedMeasurement) : Except (Fault R) (Outcome R) := do
  let (time, rho) ← Plan.requireMeasurable m times states
  let operators ← m.operators.mapM values.ownMatrix
  outcomeOf tolerance m time rho operators

/- The outcomes of an experiment. -/
def runExperiment
    (values : Operands R)
    (tolerance : R)
    (e : PlannedExperiment R) :
    Except (Fault R) (ExperimentResult R) := do
  let (stateType, states) ← values.states e
  let outcomes ← e.measurements.mapM
    (values.measure tolerance (Plan.timesOf e) states)
  return ⟨e.name, Plan.timesOf e, stateType, outcomes⟩

end Operands

namespace Plan

/-
  What an experiment ends with, in terms of the answers of
  nodes alone.
-/
def resultOf
    (plan : Plan R)
    (tolerance : R)
    (e : PlannedExperiment R) :
    Except (Fault R) (ExperimentResult R) :=
  if plan.size ≤ e.initialState then
    .error ⟨.missingInitialState e.name, some e.initialState⟩
  else
    Operands.runExperiment plan.answer tolerance e

variable (plan : Plan R)

/- What a session on valid values gives. -/
abbrev Gives
    {α : Type}
    (x : Session R α)
    (result : Except (Fault R) α) : Prop :=
  Session.Gives (Memo.Valid plan) x result

theorem gives_evaluate
    (id : NodeId) :
    plan.Gives (plan.evaluate id) (plan.answer id) :=
  fun _ hValid => evaluate_spec hValid id

theorem gives_evaluateMatrix
    (id : NodeId) :
    plan.Gives (plan.evaluateMatrix id)
      (Operands.ownMatrix plan.answer id) := by
  refine (plan.gives_evaluate id).bind fun value => ?_
  cases value with
  | matrix a => exact Session.Gives.pure a
  | scalar z => exact Session.Gives.lift _
  | vector v => exact Session.Gives.lift _

theorem gives_evolve
    (e : PlannedExperiment R)
    (evolution : PlannedEvolution R)
    (initial : Value R)
    (rho : Mat R) :
    plan.Gives (plan.evolve e evolution initial rho)
      (Operands.evolve plan.answer e evolution initial rho) := by
  refine (plan.gives_evaluateMatrix _).bind fun h => ?_
  cases evolution.method with
  | schrodinger =>
      cases initial with
      | vector ket =>
          exact (Session.Gives.lift _).bind fun _ => Session.Gives.pure _
      | scalar z => exact Session.Gives.fail _
      | matrix a => exact Session.Gives.fail _
  | lindblad =>
      have hChannels : plan.Gives (plan.evaluateChannels evolution.jumps)
          (Operands.ownChannels plan.answer evolution.jumps) :=
        Session.Gives.mapM (fun jump =>
          (plan.gives_evaluateMatrix _).bind fun _ =>
            Session.Gives.pure _) _
      refine hChannels.bind fun channels => ?_
      exact (Session.Gives.lift _).bind fun _ => Session.Gives.pure _

theorem gives_states
    (e : PlannedExperiment R) :
    plan.Gives (plan.states e) (Operands.states plan.answer e) := by
  refine (plan.gives_evaluate _).bind fun initial => ?_
  cases densityOf? initial with
  | none => exact Session.Gives.fail _
  | some rho =>
      cases e.evolution with
      | none => exact Session.Gives.pure _
      | some evolution => exact plan.gives_evolve e evolution initial rho

theorem gives_measure
    (tolerance : R)
    (times : List R)
    (states : List (Mat R))
    (m : PlannedMeasurement) :
    plan.Gives (plan.measure tolerance times states m)
      (Operands.measure plan.answer tolerance times states m) := by
  refine (Session.Gives.lift _).bind fun point => ?_
  refine (Session.Gives.mapM plan.gives_evaluateMatrix _).bind
    fun operators => ?_
  rcases m with ⟨name, index, kind, ids⟩
  unfold Operands.outcomeOf
  cases kind with
  | projective =>
      exact (Session.Gives.lift _).bind fun _ => Session.Gives.pure _
  | povm =>
      exact (Session.Gives.lift _).bind fun _ => Session.Gives.pure _
  | observable =>
      cases operators with
      | nil =>
          exact (Session.Gives.lift _).bind fun _ => Session.Gives.pure _
      | cons a rest =>
          exact (Session.Gives.lift _).bind fun _ => Session.Gives.pure _

theorem gives_runExperiment
    (tolerance : R)
    (e : PlannedExperiment R) :
    plan.Gives (plan.runExperiment tolerance e)
      (plan.resultOf tolerance e) := by
  unfold Plan.runExperiment resultOf
  by_cases hOutside : plan.size ≤ e.initialState
  · rw [if_pos hOutside, if_pos hOutside]
    exact Session.Gives.fail _
  · rw [if_neg hOutside, if_neg hOutside]
    refine (plan.gives_states e).bind fun trajectory => ?_
    refine (Session.Gives.mapM (plan.gives_measure tolerance _ _) _).bind
      fun outcomes => ?_
    exact Session.Gives.pure _

/- An experiment ends with its result, whatever was computed before. -/
theorem runExperiment_eq
    {plan : Plan R}
    {memo : Memo R}
    (hReachable : plan.Reachable memo)
    (tolerance : R)
    (e : PlannedExperiment R) :
    ((plan.runExperiment tolerance e).run memo).1 =
      plan.resultOf tolerance e :=
  (plan.gives_runExperiment tolerance e memo hReachable.valid).2

theorem evaluate_eq
    {plan : Plan R}
    {memo : Memo R}
    (hReachable : plan.Reachable memo)
    (id : NodeId) :
    ((plan.evaluate id).run memo).1 = plan.answer id :=
  (plan.gives_evaluate id memo hReachable.valid).2

/- The answers that are no faults are the values of nodes. -/
theorem answer_eq_ok_iff
    {plan : Plan R}
    {id : NodeId}
    {value : Value R} :
    plan.answer id = .ok value ↔ plan.denote id = .ok value := by
  constructor
  · intro hAnswer
    have hEnds := plan.ends_answer id
    rw [hAnswer] at hEnds
    exact hEnds
  · exact answer_of_denote

end Plan

end QuantumLab

------------------------------------------------------------
-- Other initial states
------------------------------------------------------------

namespace QuantumLab

variable {R : Type} [Arithmetic R]

namespace Operands

/-
  An experiment that starts from a node of its own, and
  otherwise reads the same values as another one and makes
  the same measurements.
-/
structure Restarts
    {R : Type}
    (values values' : Operands R)
    (e e' : PlannedExperiment R) : Prop where
  name : e'.name = e.name
  evolution : e'.evolution = e.evolution
  measurements : e'.measurements = e.measurements
  hamiltonian : ∀ evolution, e.evolution = some evolution →
    values' evolution.hamiltonian = values evolution.hamiltonian
  jumps : ∀ evolution, e.evolution = some evolution →
    ∀ jump ∈ evolution.jumps,
      values' jump.operator = values jump.operator
  operators : ∀ m ∈ e.measurements, ∀ id ∈ m.operators,
    values' id = values id

/- A node with a density matrix, of a ket or its own. -/
def HasDensity
    (values : Operands R)
    (id : NodeId)
    (rho : Mat R) : Prop :=
  ∃ value, values id = .ok value ∧ Plan.densityOf? value = some rho

namespace Restarts

variable
  {values values' : Operands R}
  {e e' : PlannedExperiment R}
  {rho : Mat R}

/- The trajectories are those of the density matrices. -/
theorem states_eq
    (hRestarts : Restarts values values' e e')
    (hState : values.HasDensity e.initialState rho)
    (hState' : values'.HasDensity e'.initialState rho)
    (hOpen : ∀ evolution, e.evolution = some evolution →
      evolution.method = .lindblad) :
    values'.states e' = values.states e := by
  rcases hState with ⟨initial, hInitial, hDensity⟩
  rcases hState' with ⟨initial', hInitial', hDensity'⟩
  rw [states, states, hInitial, hInitial', ok_bind, ok_bind, hDensity,
    hDensity', hRestarts.evolution]
  cases hEvolution : e.evolution with
  | none => rfl
  | some evolution =>
      have hHamiltonian : values'.ownMatrix evolution.hamiltonian =
          values.ownMatrix evolution.hamiltonian :=
        matrix_congr (hRestarts.hamiltonian evolution hEvolution)
      have hChannels : values'.ownChannels evolution.jumps =
          values.ownChannels evolution.jumps := by
        refine mapM_congr fun jump hJump => ?_
        rw [ownMatrix, ownMatrix,
          matrix_congr (hRestarts.jumps evolution hEvolution jump hJump)]
      simp only [evolve, hOpen evolution hEvolution, hHamiltonian,
        hChannels]

theorem measure_eq
    {m : PlannedMeasurement}
    (hRestarts : Restarts values values' e e')
    (hMember : m ∈ e.measurements)
    (tolerance : R)
    (times : List R)
    (states : List (Mat R)) :
    values'.measure tolerance times states m =
      values.measure tolerance times states m := by
  have hOperators : m.operators.mapM values'.ownMatrix =
      m.operators.mapM values.ownMatrix :=
    mapM_congr fun id hId =>
      matrix_congr (hRestarts.operators m hMember id hId)
  rw [measure, measure, hOperators]

/-
  Without a unitary evolution, experiments that start from
  the same density matrix end with the same outcomes or the
  same fault.
-/
theorem runExperiment_eq
    (hRestarts : Restarts values values' e e')
    (hState : values.HasDensity e.initialState rho)
    (hState' : values'.HasDensity e'.initialState rho)
    (hOpen : ∀ evolution, e.evolution = some evolution →
      evolution.method = .lindblad)
    (tolerance : R) :
    values'.runExperiment tolerance e' =
      values.runExperiment tolerance e := by
  have hTimes : Plan.timesOf e' = Plan.timesOf e := by
    rw [Plan.timesOf, Plan.timesOf, hRestarts.evolution]
  have hOutcomes (trajectory : List (Mat R)) :
      e.measurements.mapM
          (values'.measure tolerance (Plan.timesOf e) trajectory) =
        e.measurements.mapM
          (values.measure tolerance (Plan.timesOf e) trajectory) :=
    mapM_congr fun m hMember =>
      hRestarts.measure_eq hMember tolerance _ trajectory
  simp only [runExperiment, hRestarts.states_eq hState hState' hOpen,
    hTimes, hRestarts.measurements, hRestarts.name, hOutcomes]

end Restarts

end Operands

end QuantumLab
