import QuantumLab.Proofs.Program.Stages

/-
  This file says what each step of a validation does.

  Key definitions include:
    * `Validator.Prepares`
    * `Validator.Observes`
    * `Validator.Checks`, `Validator.Defines`

  Main statements:
    * `Validator.checks_of_check` says what the check of a
      statement leads to.
    * `Program.environment_of_validation` says which values
      names have after a validation.
    * `Program.measures_of_validation` says which
      measurements are known after a validation.
-/

------------------------------------------------------------
-- Experiments
------------------------------------------------------------

namespace QuantumLab

variable {R : Type} [Arithmetic R]

omit [Arithmetic R] in
theorem ValidationResults.contains_noteHermitian
    (results : ValidationResults R)
    (name other : String) :
    (results.noteHermitian name).hermitian.contains other =
      (decide (name = other) || results.hermitian.contains other) :=
  Table.contains_insert _ _ _ _

namespace Validator

/- A validation keeps names and measurements as they are. -/
structure Keeps (v next : Validator R) : Prop where
  environment : next.environment = v.environment
  measurements : next.measurements = v.measurements

omit [Arithmetic R] in
theorem Keeps.trans
    {v mid next : Validator R}
    (hFirst : v.Keeps mid)
    (hSecond : mid.Keeps next) :
    v.Keeps next where
  environment := hSecond.environment.trans hFirst.environment
  measurements := hSecond.measurements.trans hFirst.measurements

/- What the check of an initial state leads to. -/
inductive Prepares
    (tolerance : R)
    (v : Validator R)
    (e : Experiment R)
    (state : InitialState R) : Validator R → Prop where
  | ket
      {ket : Vec R}
      (hKind : state.kind = .ket)
      (hValue : v.environment.evaluate state.value = .ok (.vector ket))
      (hNormalized :
        requireNormalized tolerance (initialStateName e.name) ket =
          .ok ()) :
      Prepares tolerance v e state v
  | rho
      {rho : Mat R}
      {trace : Scalar R}
      (hKind : state.kind = .rho)
      (hValue : v.environment.evaluate state.value = .ok (.matrix rho))
      (hPositive :
        requirePositive tolerance (initialStateName e.name) rho =
          .ok ())
      (hTrace :
        requireUnitTrace tolerance (initialStateName e.name) rho =
          .ok trace) :
      Prepares tolerance v e state
        { v with results :=
            v.results.noteState (initialStateName e.name) trace }

/- An experiment that is checked has an initial state. -/
theorem prepares_of_checkInitialState
    {tolerance : R}
    {v next : Validator R}
    {e : Experiment R}
    (hCheck : checkInitialState tolerance v e = .ok next) :
    ∃ state, e.initialState = some state ∧
      Prepares tolerance v e state next := by
  unfold checkInitialState at hCheck
  cases hState : e.initialState with
  | none =>
      rw [hState] at hCheck
      exact absurd hCheck refuse_ne_ok
  | some state =>
      refine ⟨state, rfl, ?_⟩
      simp only [hState] at hCheck
      rcases bind_eq_ok_iff.1 hCheck with ⟨value, hValue, hRest⟩
      revert hRest
      split
      · next hKind =>
        intro hRest
        rcases unit_bind_eq_ok_iff.1 hRest with ⟨hNormalized, hDone⟩
        rw [← pure_eq_ok_iff.1 hDone]
        exact .ket hKind hValue hNormalized
      · intro hRest
        exact absurd hRest refuse_ne_ok
      · next hKind =>
        intro hRest
        rcases unit_bind_eq_ok_iff.1 hRest with ⟨hPositive, hTraced⟩
        rcases bind_eq_ok_iff.1 hTraced with ⟨trace, hTrace, hDone⟩
        rw [← pure_eq_ok_iff.1 hDone]
        exact .rho hKind hValue hPositive hTrace
      · intro hRest
        exact absurd hRest refuse_ne_ok

theorem keeps_checkInitialState
    {tolerance : R}
    {v next : Validator R}
    {e : Experiment R}
    (hCheck : checkInitialState tolerance v e = .ok next) :
    v.Keeps next := by
  rcases prepares_of_checkInitialState hCheck with
    ⟨state, _, hPrepares⟩
  cases hPrepares with
  | ket hKind hValue hNormalized => exact ⟨rfl, rfl⟩
  | rho hKind hValue hPositive hTrace => exact ⟨rfl, rfl⟩

/-
  What a reference to an operator that has to be Hermitian
  leads to.
-/
inductive Observes
    (tolerance : R)
    (v : Validator R)
    (name : String) : Validator R → Prop where
  | symbolic
      (hSymbolic : v.environment.isSymbolic name = true) :
      Observes tolerance v name v
  | noted
      {a : Mat R}
      (hKnown : v.environment.isSymbolic name = false)
      (hMatrix : v.environment.lookup name = some (.matrix a))
      (hNoted : v.results.hermitian.contains name = true) :
      Observes tolerance v name v
  | checked
      {a : Mat R}
      (hKnown : v.environment.isSymbolic name = false)
      (hMatrix : v.environment.lookup name = some (.matrix a))
      (hHermitian : requireHermitian tolerance name a = .ok ()) :
      Observes tolerance v name
        { v with results := v.results.noteHermitian name }

theorem observes_of_checkObservable
    {tolerance : R}
    {v next : Validator R}
    {usage name : String}
    (hCheck : checkObservable tolerance v usage name = .ok next) :
    Observes tolerance v name next := by
  rcases bind_eq_ok_iff.1 hCheck with ⟨a?, hReferenced, hRest⟩
  unfold referencedMatrix at hReferenced
  by_cases hSymbolic : v.environment.isSymbolic name = true
  · rw [if_pos hSymbolic] at hReferenced
    rw [← Except.ok.inj hReferenced] at hRest
    rw [← pure_eq_ok_iff.1 hRest]
    exact .symbolic hSymbolic
  · rw [if_neg hSymbolic] at hReferenced
    rw [Bool.not_eq_true] at hSymbolic
    cases hMatrix : v.environment.lookup name with
    | none => simp [hMatrix] at hReferenced
    | some value =>
        cases value with
        | scalar z => simp [hMatrix] at hReferenced
        | vector w => simp [hMatrix] at hReferenced
        | matrix a =>
            simp only [hMatrix, Except.ok.injEq] at hReferenced
            rw [← hReferenced] at hRest
            by_cases hNoted : v.results.hermitian.contains name = true
            · simp only [hNoted, if_true] at hRest
              rw [← pure_eq_ok_iff.1 hRest]
              exact .noted hSymbolic hMatrix hNoted
            · simp only [hNoted] at hRest
              rcases unit_bind_eq_ok_iff.1 hRest with
                ⟨hHermitian, hDone⟩
              rw [← pure_eq_ok_iff.1 hDone]
              exact .checked hSymbolic hMatrix hHermitian

theorem Observes.keeps
    {tolerance : R}
    {v next : Validator R}
    {name : String}
    (hObserves : Observes tolerance v name next) :
    v.Keeps next := by
  cases hObserves with
  | symbolic hSymbolic => exact ⟨rfl, rfl⟩
  | noted hKnown hMatrix hNoted => exact ⟨rfl, rfl⟩
  | checked hKnown hMatrix hHermitian => exact ⟨rfl, rfl⟩

theorem keeps_checkEvolution
    {tolerance : R}
    {v next : Validator R}
    {experiment : String}
    {evolution : Option (Evolution R)}
    (hCheck : checkEvolution tolerance v experiment evolution =
      .ok next) :
    v.Keeps next := by
  cases evolution with
  | none =>
      rw [Except.ok.inj hCheck]
      exact ⟨rfl, rfl⟩
  | some evolution =>
      rcases unit_bind_eq_ok_iff.1 hCheck with ⟨_, hRest⟩
      rcases bind_eq_ok_iff.1 hRest with ⟨mid, hObservable, hTerms⟩
      rcases unit_bind_eq_ok_iff.1 hTerms with ⟨_, hDone⟩
      rw [← pure_eq_ok_iff.1 hDone]
      exact (observes_of_checkObservable hObservable).keeps

theorem keeps_checkEvent
    {tolerance : R}
    {v next : Validator R}
    {event : Event R}
    (hCheck : checkEvent tolerance v event = .ok next) :
    v.Keeps next := by
  unfold checkEvent at hCheck
  by_cases hMeasurement :
      v.measurements.contains event.measurement = true
  · rw [if_pos hMeasurement] at hCheck
    rw [Except.ok.inj hCheck]
    exact ⟨rfl, rfl⟩
  · rw [if_neg hMeasurement] at hCheck
    exact (observes_of_checkObservable hCheck).keeps

theorem keeps_checkSchedule
    {tolerance : R}
    {v next : Validator R}
    {schedule : List (Event R)}
    (hCheck : schedule.foldlM (checkEvent tolerance) v = .ok next) :
    v.Keeps next := by
  induction schedule generalizing v with
  | nil =>
      rw [← pure_eq_ok_iff.1 hCheck]
      exact ⟨rfl, rfl⟩
  | cons event rest ih =>
      rw [List.foldlM_cons] at hCheck
      rcases bind_eq_ok_iff.1 hCheck with ⟨mid, hEvent, hRest⟩
      exact (keeps_checkEvent hEvent).trans (ih hRest)

theorem keeps_checkExperiment
    {tolerance : R}
    {v next : Validator R}
    {e : Experiment R}
    (hCheck : checkExperiment tolerance v e = .ok next) :
    v.Keeps next := by
  rcases bind_eq_ok_iff.1 hCheck with ⟨first, hState, hRest⟩
  rcases bind_eq_ok_iff.1 hRest with ⟨second, hEvolution, hSchedule⟩
  exact (keeps_checkInitialState hState).trans
    ((keeps_checkEvolution hEvolution).trans
      (keeps_checkSchedule hSchedule))

end Validator

end QuantumLab

------------------------------------------------------------
-- Statements
------------------------------------------------------------

namespace QuantumLab

variable {R : Type} [Arithmetic R]

/- Whether a statement defines a Hamiltonian. -/
def Statement.isHamiltonian : Statement R → Bool
  | .hamiltonian _ _ _ => true
  | _ => false

/- What is established about the operators of a kind of measurement. -/
def MeasurementKind.note :
    MeasurementKind →
      ValidationResults R → String → ValidationResults R
  | .projective => ValidationResults.noteHermitian
  | .povm => ValidationResults.notePositive

/- What is required of the operators of a kind of measurement. -/
def MeasurementKind.require
    (tolerance : R)
    (name : String)
    (matrices : List (Mat R)) :
    MeasurementKind → Except (Fault R) Unit
  | .projective => requireProjective tolerance name matrices
  | .povm => requirePovm tolerance name matrices

namespace Validator

/-
  What the check of a statement leads to: a name without or
  with a value, a measurement, or what an experiment leads
  to.
-/
inductive Checks
    (tolerance : R)
    (v : Validator R) : Statement R → Validator R → Prop where
  | symbol
      {d : Statement R}
      (hSymbol : d.declaresSymbol = true) :
      Checks tolerance v d (v.declareSymbolic d.name)
  | undefined
      {d : Statement R}
      {e : Expr R}
      (hDefinition : d.definition? = some e)
      (hNone : v.environment.evaluate? e = .ok none) :
      Checks tolerance v d (v.declareSymbolic d.name)
  | quantity
      {d : Statement R}
      {e : Expr R}
      {value : Value R}
      (hDefinition : d.definition? = some e)
      (hOther : d.isHamiltonian = false)
      (hValue : v.environment.evaluate e = .ok value) :
      Checks tolerance v d (v.define d.name value)
  | hamiltonian
      {d : Statement R}
      {e : Expr R}
      {h : Mat R}
      (hDefinition : d.definition? = some e)
      (hHamiltonian : d.isHamiltonian = true)
      (hValue : v.environment.evaluate e = .ok (.matrix h))
      (hHermitian : requireHermitian tolerance d.name h = .ok ()) :
      Checks tolerance v d
        ({ v with results := v.results.noteHermitian d.name }.define
          d.name (.matrix h))
  | measurement
      {name : String}
      {kind : MeasurementKind}
      {operators : List (Expr R)}
      {matrices : List (Mat R)}
      (hMatrices : operatorMatrices v.environment name 0 operators =
        .ok matrices)
      (hRequired : kind.require tolerance name matrices = .ok ()) :
      Checks tolerance v (.measurement name kind operators)
        { v with
          results :=
            noteOperators kind.note v.results name matrices.length
          measurements := v.measurements.add name }
  | experiment
      {x : Experiment R}
      {next : Validator R}
      (hCheck : checkExperiment tolerance v x = .ok next) :
      Checks tolerance v (.experiment x) next

theorem checks_of_checkQuantity
    {tolerance : R}
    {v next : Validator R}
    {d : Statement R}
    {e : Expr R}
    (hDefinition : d.definition? = some e)
    (hOther : d.isHamiltonian = false)
    (hCheck : v.checkQuantity d.name e = .ok next) :
    Checks tolerance v d next := by
  rcases bind_eq_ok_iff.1 hCheck with ⟨value?, hEvaluated, hRest⟩
  cases value? with
  | none =>
      rw [← pure_eq_ok_iff.1 hRest]
      exact .undefined hDefinition hEvaluated
  | some value =>
      rw [← pure_eq_ok_iff.1 hRest]
      exact .quantity hDefinition hOther
        (Environment.evaluate?_eq_some_iff.1 hEvaluated)

theorem checks_of_checkHamiltonian
    {tolerance : R}
    {v next : Validator R}
    {name : String}
    {parameters : List String}
    {e : Expr R}
    (hCheck : checkHamiltonian tolerance v name parameters e =
      .ok next) :
    Checks tolerance v (.hamiltonian name parameters e) next := by
  unfold checkHamiltonian at hCheck
  by_cases hParameters : parameters.isEmpty = true
  · have hDefinition :
        (Statement.hamiltonian name parameters e).definition? =
          some e := by
      rw [Statement.definition?, if_pos hParameters]
    simp only [hParameters, Bool.not_true, Bool.false_eq_true,
      if_false] at hCheck
    rcases bind_eq_ok_iff.1 hCheck with ⟨value?, hEvaluated, hRest⟩
    cases value? with
    | none =>
        rw [← pure_eq_ok_iff.1 hRest]
        exact .undefined hDefinition hEvaluated
    | some value =>
        rw [Environment.evaluate?_eq_some_iff] at hEvaluated
        cases value with
        | scalar z => exact absurd hRest refuse_ne_ok
        | vector w => exact absurd hRest refuse_ne_ok
        | matrix h =>
            rcases unit_bind_eq_ok_iff.1 hRest with
              ⟨hHermitian, hDone⟩
            rw [← pure_eq_ok_iff.1 hDone]
            exact .hamiltonian hDefinition rfl hEvaluated hHermitian
  · rw [Bool.not_eq_true] at hParameters
    simp only [hParameters, Bool.not_false, if_true] at hCheck
    rw [← pure_eq_ok_iff.1 hCheck]
    exact .symbol (by simp [Statement.declaresSymbol, hParameters])

theorem checks_of_checkMeasurement
    {tolerance : R}
    {v next : Validator R}
    {name : String}
    {kind : MeasurementKind}
    {operators : List (Expr R)}
    (hCheck : checkMeasurement tolerance v name kind operators =
      .ok next) :
    Checks tolerance v (.measurement name kind operators) next := by
  rcases bind_eq_ok_iff.1 hCheck with ⟨matrices, hMatrices, hRest⟩
  cases kind with
  | projective =>
      rcases unit_bind_eq_ok_iff.1 hRest with ⟨hRequired, hDone⟩
      rw [← pure_eq_ok_iff.1 hDone]
      exact .measurement hMatrices hRequired
  | povm =>
      rcases unit_bind_eq_ok_iff.1 hRest with ⟨hRequired, hDone⟩
      rw [← pure_eq_ok_iff.1 hDone]
      exact .measurement hMatrices hRequired

/- The check of every statement is one of these. -/
theorem checks_of_check
    {tolerance : R}
    {v next : Validator R}
    {d : Statement R}
    (hCheck : check tolerance v d = .ok next) :
    Checks tolerance v d next := by
  cases d with
  | empty => exact absurd hCheck refuse_ne_ok
  | const name e => exact checks_of_checkQuantity rfl rfl hCheck
  | symbol name =>
      rw [← Except.ok.inj hCheck]
      exact .symbol rfl
  | matrix name e => exact checks_of_checkQuantity rfl rfl hCheck
  | function name parameters body =>
      rw [← Except.ok.inj hCheck]
      exact .symbol rfl
  | hamiltonian name parameters e =>
      exact checks_of_checkHamiltonian hCheck
  | measurement name kind operators =>
      exact checks_of_checkMeasurement hCheck
  | experiment x => exact .experiment hCheck

/- The operators of a validated measurement are matrices. -/
theorem evaluates_of_operatorMatrices
    {env : Environment R}
    {name : String}
    {k : Nat}
    {operators : List (Expr R)}
    {matrices : List (Mat R)}
    (hMatrices : operatorMatrices env name k operators =
      .ok matrices) :
    List.Forall₂
      (fun operator a => env.evaluate operator = .ok (.matrix a))
      operators matrices := by
  induction operators generalizing k matrices with
  | nil =>
      rw [← Except.ok.inj hMatrices]
      exact .nil
  | cons operator rest ih =>
      rcases bind_eq_ok_iff.1 hMatrices with ⟨value, hValue, hRest⟩
      cases value with
      | scalar z => exact absurd hRest refuse_ne_ok
      | vector w => exact absurd hRest refuse_ne_ok
      | matrix a =>
          rcases bind_eq_ok_iff.1 hRest with ⟨later, hLater, hDone⟩
          rw [← pure_eq_ok_iff.1 hDone]
          exact .cons hValue (ih hLater)

/- A validated measurement has operators that its kind asks for. -/
theorem Checks.operators
    {tolerance : R}
    {v next : Validator R}
    {name : String}
    {kind : MeasurementKind}
    {operators : List (Expr R)}
    (hChecks : Checks tolerance v (.measurement name kind operators)
      next) :
    ∃ matrices,
      operatorMatrices v.environment name 0 operators = .ok matrices ∧
      kind.require tolerance name matrices = .ok () ∧
      next.results =
        noteOperators kind.note v.results name operators.length := by
  cases hChecks with
  | symbol hSymbol => cases hSymbol
  | undefined hDefinition hNone => cases hDefinition
  | quantity hDefinition hOther hValue => cases hDefinition
  | hamiltonian hDefinition hHamiltonian hValue hHermitian =>
      cases hDefinition
  | measurement hMatrices hRequired =>
      rw [(evaluates_of_operatorMatrices hMatrices).length_eq]
      exact ⟨_, hMatrices, hRequired, rfl⟩

/- What the check of the definition of a name leads to. -/
inductive Defines
    (tolerance : R)
    (v : Validator R)
    (d : Statement R)
    (e : Expr R) : Validator R → Prop where
  | undefined
      (hNone : v.environment.evaluate? e = .ok none) :
      Defines tolerance v d e (v.declareSymbolic d.name)
  | quantity
      {value : Value R}
      (hOther : d.isHamiltonian = false)
      (hValue : v.environment.evaluate e = .ok value) :
      Defines tolerance v d e (v.define d.name value)
  | hamiltonian
      {h : Mat R}
      (hHamiltonian : d.isHamiltonian = true)
      (hValue : v.environment.evaluate e = .ok (.matrix h))
      (hHermitian : requireHermitian tolerance d.name h = .ok ()) :
      Defines tolerance v d e
        ({ v with results := v.results.noteHermitian d.name }.define
          d.name (.matrix h))

theorem Checks.defines
    {tolerance : R}
    {v next : Validator R}
    {d : Statement R}
    {e : Expr R}
    (hChecks : Checks tolerance v d next)
    (hDefinition : d.definition? = some e) :
    Defines tolerance v d e next := by
  cases hChecks with
  | symbol hSymbol =>
      rw [Statement.definition?_of_declaresSymbol hSymbol] at hDefinition
      cases hDefinition
  | undefined hSame hNone =>
      cases hDefinition.symm.trans hSame
      exact .undefined hNone
  | quantity hSame hOther hValue =>
      cases hDefinition.symm.trans hSame
      exact .quantity hOther hValue
  | hamiltonian hSame hHamiltonian hValue hHermitian =>
      cases hDefinition.symm.trans hSame
      exact .hamiltonian hHamiltonian hValue hHermitian
  | measurement hMatrices hRequired => cases hDefinition
  | experiment hCheck => cases hDefinition

/- The definition of a validated name has a value or is symbolic. -/
theorem Checks.evaluated
    {tolerance : R}
    {v next : Validator R}
    {d : Statement R}
    {e : Expr R}
    (hChecks : Checks tolerance v d next)
    (hDefinition : d.definition? = some e) :
    ∃ value?, v.environment.evaluate? e = .ok value? := by
  cases hChecks.defines hDefinition with
  | undefined hNone => exact ⟨_, hNone⟩
  | quantity _ hValue =>
      exact ⟨_, Environment.evaluate?_eq_some_iff.2 hValue⟩
  | hamiltonian _ hValue _ =>
      exact ⟨_, Environment.evaluate?_eq_some_iff.2 hValue⟩

/- Validation gives values to names as they are declared. -/
theorem Checks.environment
    {tolerance : R}
    {v next : Validator R}
    {d : Statement R}
    (hChecks : Checks tolerance v d next) :
    next.environment = v.environment.after d := by
  cases hChecks with
  | symbol hSymbol =>
      rw [Environment.after_of_declaresSymbol hSymbol]
      rfl
  | undefined hDefinition hNone =>
      rw [Environment.after_of_definition hDefinition,
        Environment.declare_of_none hNone]
      rfl
  | quantity hDefinition hOther hValue =>
      rw [Environment.after_of_definition hDefinition,
        Environment.declare_of_ok hValue]
      rfl
  | hamiltonian hDefinition hHamiltonian hValue hHermitian =>
      rw [Environment.after_of_definition hDefinition,
        Environment.declare_of_ok hValue]
      rfl
  | measurement hMatrices hRequired => rfl
  | experiment hCheck => exact (keeps_checkExperiment hCheck).environment

/- Validation notes the measurements that are defined. -/
theorem Checks.measurements
    {tolerance : R}
    {v next : Validator R}
    {d : Statement R}
    (hChecks : Checks tolerance v d next)
    (name : String) :
    next.measurements.contains name =
      (d.measures name || v.measurements.contains name) := by
  cases hChecks with
  | symbol hSymbol =>
      rw [Statement.measures_of_declaresSymbol hSymbol]
      rfl
  | undefined hDefinition hNone =>
      rw [Statement.measures_of_definition hDefinition]
      rfl
  | quantity hDefinition hOther hValue =>
      rw [Statement.measures_of_definition hDefinition]
      rfl
  | hamiltonian hDefinition hHamiltonian hValue hHermitian =>
      rw [Statement.measures_of_definition hDefinition]
      rfl
  | measurement hMatrices hRequired =>
      rw [Table.add, Table.contains_insert]
      rfl
  | experiment hCheck =>
      rw [(keeps_checkExperiment hCheck).measurements]
      rfl

end Validator

namespace Program

variable
  {tolerance : R}
  {program : Program R}
  {v : Validator R}

/- Validation leaves the values of names behind. -/
theorem environment_of_validation
    (hWalk : program.walk (Validator.check tolerance) .initial =
      .ok v) :
    v.environment = program.environment :=
  walk_eq_foldl
    (fun _ _ _ hStep => (Validator.checks_of_check hStep).environment)
    hWalk

/- Validation leaves the names of measurements behind. -/
theorem measures_of_validation
    (hWalk : program.walk (Validator.check tolerance) .initial =
      .ok v)
    (name : String) :
    v.measurements.contains name = program.measures name := by
  refine walk_induction
    (I := fun pre v =>
      v.measurements.contains name = Program.measures pre name)
    rfl ?_ hWalk
  intro pre v d next hKnows hStep
  rw [(Validator.checks_of_check hStep).measurements, hKnows,
    measures_append]

end Program

end QuantumLab
