import QuantumLab.Proofs.Evaluation.Faults
import QuantumLab.Proofs.Lowering.Experiments
import QuantumLab.Proofs.Validation.References

/-
  This file says how a statement that is validated can still
  fail when it is lowered: on a feature or a value that is
  not supported, but on nothing that the validation should
  have turned down.

  Key definitions include:
    * `Environment.Supports`

  Main statements:
    * `Lowering.Binds.notInternal_lower` says how an
      expression with a value can fail.
    * `Validator.supports_of_checkExperiment` says what the
      lowering of an experiment can rely on.
    * `Lowering.Follows.notInternal_addStatement` says how a
      validated statement can fail.
-/

------------------------------------------------------------
-- Lowering of expressions
------------------------------------------------------------

namespace QuantumLab

variable {R : Type} [Arithmetic R]

namespace Lowering

variable
  {s : Lowering R}
  {e : Expr R}

theorem notInternal_fold
    (hEvaluate : NotInternal (s.environment.evaluate e))
    (function : String) :
    NotInternal (s.fold function e) := by
  refine (Environment.notInternal_evaluate? hEvaluate).bind
    fun value? => ?_
  split
  · exact trivial
  · exact notInternal_refuse rfl
  · exact notInternal_refuse rfl

theorem notInternal_reciprocal
    (hEvaluate : NotInternal (s.environment.evaluate e)) :
    NotInternal (s.reciprocal e) := by
  refine (Environment.notInternal_evaluate? hEvaluate).bind
    fun value? => ?_
  split
  · exact notInternal_refuse rfl
  · split
    · exact notInternal_refuse rfl
    · exact trivial
  · exact notInternal_refuse rfl

/-
  An expression with a value is lowered where its names have
  nodes, or fails for the values that names have by then.
-/
theorem Binds.notInternal_lower
    {names : Environment R}
    {nodes : String → Option (Value R)}
    {v : Value R}
    (hBinds : s.Binds False names nodes)
    (hValue : names.evaluate e = .ok v) :
    NotInternal (s.lower e) := by
  induction e using Expr.induction generalizing s v with
  | missing => exact absurd hValue refuse_ne_ok
  | number z => exact trivial
  | identifier name =>
      rw [Environment.evaluate, Environment.resolve_eq_ok_iff] at hValue
      rcases hBinds.exists_resolve hValue with ⟨id, later, hResolve⟩
      exact .of_ok ⟨_, hResolve⟩
  | matrix rows _ =>
      exact (Environment.notInternal_evaluate _ hValue).bind
        fun _ => trivial
  | vector elements _ =>
      exact (Environment.notInternal_evaluate _ hValue).bind
        fun _ => trivial
  | binary op lhs rhs ihLhs ihRhs =>
      by_cases hPower : op = .power
      · subst hPower
        exact notInternal_fold (Environment.notInternal_evaluate _ hValue) _
      · unfold Environment.evaluate at hValue
        rcases exists_of_bind_bind_ok hValue with ⟨⟨a, hLhs⟩, b, hRhs⟩
        by_cases hDivide : op = .divide
        · subst hDivide
          refine (notInternal_reciprocal
            (Environment.notInternal_evaluate _ hRhs)).bind fun _ => ?_
          exact (ihLhs hBinds hLhs).bind fun _ => trivial
        · rw [lower_binary hPower hDivide]
          refine (ihLhs hBinds hLhs).bind_of_ok ?_
          rintro ⟨l, first⟩ hFirst
          rcases (lowers_of_lower hFirst).spec hBinds hLhs
              (fun h => h.elim) with
            ⟨_, hBindsFirst, _⟩
          exact (ihRhs hBindsFirst hRhs).bind fun _ => trivial
  | unary op operand ih =>
      -- a scalar is folded as a whole: names have their values by then
      have hFold : ∀ (s : Lowering R) function,
          NotInternal (s.fold function (.unary op operand)) := fun s =>
        notInternal_fold (Environment.notInternal_evaluate _ hValue)
      unfold Environment.evaluate at hValue
      rcases exists_of_bind_ok hValue with ⟨a, hOperand⟩
      have hLower := ih hBinds hOperand
      cases op with
      | sqrt => exact hFold s _
      | sin => exact hFold s _
      | cos => exact hFold s _
      | exp => exact hFold s _
      | dagger => exact hLower.bind fun _ => trivial
      | trace => exact hLower.bind fun _ => trivial
      | expm =>
          refine hLower.bind_of_ok ?_
          rintro ⟨id, later⟩ _
          simp only
          split
          · exact hFold later _
          · exact trivial
  | call function arguments => exact absurd hValue refuse_ne_ok

end Lowering

end QuantumLab

------------------------------------------------------------
-- Lowering of definitions
------------------------------------------------------------

namespace QuantumLab

variable {R : Type} [Arithmetic R]

namespace Lowering

variable
  {s : Lowering R}
  {nodes : String → Option (Value R)}
  {e : Expr R}

theorem notInternal_addConst
    (name : String)
    (hEvaluated : ∃ value?, s.environment.evaluate? e = .ok value?) :
    NotInternal (s.addConst name e) := by
  rcases hEvaluated with ⟨value?, hValue?⟩
  rw [addConst, hValue?]
  cases value? with
  | none => exact trivial
  | some value => exact trivial

/- A name gets its value before its definition is lowered. -/
theorem Binds.notInternal_define
    {value : Value R}
    (hBinds : s.Binds False s.environment nodes)
    (name : String)
    (hValue : s.environment.evaluate? e = .ok (some value)) :
    NotInternal ((s.define name value).lower e) :=
  (hBinds.define name value).notInternal_lower
    (Environment.evaluate?_eq_some_iff.1 hValue)

theorem Binds.notInternal_addQuantity
    (hBinds : s.Binds False s.environment nodes)
    (name : String)
    (hEvaluated : ∃ value?, s.environment.evaluate? e = .ok value?) :
    NotInternal (s.addQuantity name e) := by
  rcases hEvaluated with ⟨value?, hValue?⟩
  rw [addQuantity, hValue?]
  cases value? with
  | none => exact trivial
  | some value =>
      simp only [ok_bind]
      split
      · exact trivial
      · exact (hBinds.notInternal_define name hValue?).bind
          fun _ => trivial

theorem Binds.notInternal_addHamiltonian
    {parameters : List String}
    (hBinds : s.Binds False s.environment nodes)
    (name : String)
    (hEvaluated : parameters.isEmpty = true →
      ∃ value?, s.environment.evaluate? e = .ok value?) :
    NotInternal (s.addHamiltonian name parameters e) := by
  unfold addHamiltonian
  by_cases hParameters : parameters.isEmpty = true
  · rcases hEvaluated hParameters with ⟨value?, hValue?⟩
    simp only [hParameters, Bool.not_true, Bool.false_eq_true, if_false]
    rw [hValue?]
    cases value? with
    | none => exact trivial
    | some value =>
        exact (hBinds.notInternal_define name hValue?).bind
          fun _ => trivial
  · rw [Bool.not_eq_true] at hParameters
    simp only [hParameters, Bool.not_false, if_true]
    exact trivial

/- Operators with values are loaded. -/
theorem exists_emitOperators
    {name : String}
    {k : Nat}
    {operators : List (Expr R)}
    (hValues : ∀ operator ∈ operators, ∃ value,
      s.environment.evaluate operator = .ok value) :
    ∃ result, s.emitOperators name k operators = .ok result := by
  induction operators generalizing s k with
  | nil => exact ⟨_, rfl⟩
  | cons operator rest ih =>
      rcases List.forall_mem_cons.1 hValues with
        ⟨⟨value, hValue⟩, hRest⟩
      have hEnvironment :
          (s.emitConstant (operatorName name k) value).2.environment =
            s.environment := rfl
      rw [← hEnvironment] at hRest
      rcases ih (k := k + 1) hRest with ⟨result, hResult⟩
      rw [emitOperators, hValue]
      simp only [ok_bind, hResult]
      exact ⟨_, rfl⟩

end Lowering

end QuantumLab

------------------------------------------------------------
-- Lowering of experiments
------------------------------------------------------------

namespace QuantumLab

variable {R : Type} [Arithmetic R]

/-
  What the lowering of an experiment relies on: the initial
  state has a value of its kind, operators are known, and
  rates are only missing where values are.
-/
structure Environment.Supports
    (names : Environment R)
    (measured : String → Bool)
    (x : Experiment R) : Prop where
  state : ∃ state value, x.initialState = some state ∧
    names.evaluate state.value = .ok value ∧
    value.kind = state.kind.valueKind
  observed : ∀ name ∈ x.observed measured, names.KnowsOperator name
  jumps : ∀ name ∈ x.jumpOperators, names.KnowsOperator name
  rates : ∀ evolution, x.evolution = some evolution →
    ∀ term ∈ evolution.terms,
      NotInternal (names.evaluateReal
        (Validator.rateUsage term.operator) term.rate)

namespace Validator

/- The rate of a term that is not refused is a number or unsupported. -/
theorem notInternal_of_requireTerm
    {v : Validator R}
    {experiment : String}
    {term : LindbladTerm R}
    (hTerm : v.requireTerm experiment term = .ok ()) :
    NotInternal (v.environment.evaluateReal (rateUsage term.operator)
      term.rate) := by
  rcases bind_eq_ok_iff.1 hTerm with ⟨a?, _, hRest⟩
  cases hRate : v.environment.evaluateReal (rateUsage term.operator)
      term.rate with
  | ok rate => exact trivial
  | error fault =>
      rw [hRate] at hRest
      by_cases hUnsupported : fault.isUnsupported = true
      · rw [Fault.isUnsupported, beq_iff_eq] at hUnsupported
        change fault.kind ≠ .internal
        rw [hUnsupported]
        decide
      · simp [hUnsupported] at hRest

/-
  The terms of a validated evolution are checked with the
  values of names.
-/
theorem requireTerm_of_checkEvolution
    {tolerance : R}
    {v next : Validator R}
    {experiment : String}
    {evolution : Evolution R}
    (hCheck : checkEvolution tolerance v experiment (some evolution) =
      .ok next) :
    ∃ seen, v.Keeps seen ∧ ∀ term ∈ evolution.terms,
      seen.requireTerm experiment term = .ok () := by
  rcases unit_bind_eq_ok_iff.1 hCheck with ⟨_, hRest⟩
  rcases bind_eq_ok_iff.1 hRest with ⟨seen, hObservable, hTerms⟩
  rcases unit_bind_eq_ok_iff.1 hTerms with ⟨hEach, _⟩
  exact ⟨seen, (observes_of_checkObservable hObservable).keeps,
    forM_eq_ok_iff.1 hEach⟩

/- What a validated experiment offers to its lowering. -/
theorem supports_of_checkExperiment
    {tolerance : R}
    {v next : Validator R}
    {x : Experiment R}
    (hCheck : checkExperiment tolerance v x = .ok next) :
    v.environment.Supports v.measurements.contains x := by
  rcases admits_of_checkExperiment hCheck with ⟨mid, hAdmits⟩
  refine ⟨?_, hAdmits.knowsOperators, hAdmits.jumps, ?_⟩
  · rcases prepares_of_checkInitialState hAdmits.state with
      ⟨state, hState, hPrepares⟩
    cases hPrepares with
    | ket hKind hValue _ =>
        exact ⟨state, _, hState, hValue, by rw [hKind]; rfl⟩
    | rho hKind hValue _ _ =>
        exact ⟨state, _, hState, hValue, by rw [hKind]; rfl⟩
  · intro evolution hEvolution term hTerm
    rcases bind_eq_ok_iff.1 hCheck with ⟨first, hState, hRest⟩
    rcases bind_eq_ok_iff.1 hRest with ⟨second, hChecked, _⟩
    rw [hEvolution] at hChecked
    rcases requireTerm_of_checkEvolution hChecked with
      ⟨seen, hKeeps, hTerms⟩
    rw [← (keeps_checkInitialState hState).environment,
      ← hKeeps.environment]
    exact notInternal_of_requireTerm (hTerms term hTerm)

end Validator

namespace Lowering

variable
  {s : Lowering R}
  {m : Meaning R}
  {x : Experiment R}

/- A name without a node is refused as a symbol. -/
theorem Unresolvable.resolve_eq
    {name : String}
    (hUnresolvable : s.Unresolvable name) :
    s.resolve name = refuse (.loweredSymbol name) := by
  rw [Lowering.resolve, hUnresolvable.symbols]
  simp [hUnresolvable.symbolic]

/- The name of an operator is resolved, or refused as a symbol. -/
theorem Follows.notInternal_resolve
    {name : String}
    (hFollows : s.Follows False m)
    (hKnown : m.names.KnowsOperator name) :
    NotInternal (s.resolve name) := by
  rcases hKnown with hSymbolic | ⟨a, hName⟩
  · rw [(hFollows.unresolvable name hSymbolic).resolve_eq]
    exact notInternal_refuse rfl
  · rcases hFollows.binds.exists_resolve hName with
      ⟨id, later, hResolve⟩
    exact .of_ok ⟨_, hResolve⟩

/- An initial state with a value of its kind is loaded. -/
theorem exists_lowerInitialState
    {state : InitialState R}
    {value : Value R}
    (hState : x.initialState = some state)
    (hValue : s.environment.evaluate state.value = .ok value)
    (hKind : value.kind = state.kind.valueKind) :
    ∃ result, s.lowerInitialState x = .ok result := by
  unfold lowerInitialState
  rw [hState]
  simp only [hValue, ok_bind]
  cases hStateKind : state.kind with
  | ket =>
      rw [hStateKind] at hKind
      cases value with
      | vector ket => exact ⟨_, rfl⟩
      | scalar z => cases hKind
      | matrix a => cases hKind
  | rho =>
      rw [hStateKind] at hKind
      cases value with
      | matrix rho => exact ⟨_, rfl⟩
      | scalar z => cases hKind
      | vector ket => cases hKind

theorem Follows.notInternal_lowerTerms
    {terms : List (LindbladTerm R)}
    (hFollows : s.Follows False m)
    (hKnown : ∀ term ∈ terms, m.names.KnowsOperator term.operator)
    (hRates : ∀ term ∈ terms,
      NotInternal (m.names.evaluateReal
        (Validator.rateUsage term.operator) term.rate)) :
    NotInternal (s.lowerTerms terms) := by
  induction terms generalizing s with
  | nil => exact trivial
  | cons term rest ih =>
      rcases List.forall_mem_cons.1 hKnown with ⟨hOperator, hOperators⟩
      rcases List.forall_mem_cons.1 hRates with ⟨hRate, hLater⟩
      refine (hFollows.notInternal_resolve hOperator).bind_of_ok ?_
      rintro ⟨operator, first⟩ hResolve
      rcases hFollows.refers hResolve with ⟨_, hFirst, _⟩
      simp only [hFirst.environment]
      split
      · exact (ih hFirst hOperators hLater).bind fun _ => trivial
      · next fault hFault =>
        split
        · exact notInternal_refuse rfl
        · exact hRate.of_error hFault

theorem Follows.notInternal_lowerEvolution
    {measured : String → Bool}
    (hFollows : s.Follows False m)
    (hSupports : m.names.Supports measured x) :
    NotInternal (s.lowerEvolution x.evolution) := by
  cases hEvolution : x.evolution with
  | none => exact trivial
  | some evolution =>
      have hHamiltonian := hSupports.observed _
        (Experiment.hamiltonian_mem_observed hEvolution measured)
      have hOperators : ∀ term ∈ evolution.terms,
          m.names.KnowsOperator term.operator := fun term hTerm =>
        hSupports.jumps _
          (Experiment.operator_mem_jumpOperators hEvolution hTerm)
      refine (hFollows.notInternal_resolve hHamiltonian).bind_of_ok ?_
      rintro ⟨hamiltonian, first⟩ hResolve
      rcases hFollows.refers hResolve with ⟨_, hFirst, _⟩
      exact (hFirst.notInternal_lowerTerms hOperators
        (hSupports.rates evolution hEvolution)).bind fun _ => trivial

theorem Follows.notInternal_lowerSchedule
    {times : List R}
    {schedule : List (Event R)}
    (hFollows : s.Follows False m)
    (hKnown : ∀ event ∈ schedule,
      s.measurements.contains event.measurement = false →
        m.names.KnowsOperator event.measurement) :
    NotInternal (s.lowerSchedule times schedule) := by
  induction schedule generalizing s with
  | nil => exact trivial
  | cons event rest ih =>
      rcases List.forall_mem_cons.1 hKnown with ⟨hEvent, hRest⟩
      have hLower : NotInternal (s.lowerEvent times event) := by
        unfold lowerEvent
        cases hFound : s.measurements.find? event.measurement with
        | some entry => exact trivial
        | none =>
            have hObservable :=
              hEvent (by rw [Table.contains, hFound]; rfl)
            exact (hFollows.notInternal_resolve hObservable).bind
              fun _ => trivial
      refine hLower.bind_of_ok ?_
      rintro ⟨planned, later⟩ hPlanned
      rcases follows_lowerEvent hFollows hPlanned with
        ⟨hAppends, hLater, _⟩
      rw [← hAppends.measurements] at hRest
      exact (ih hLater hRest).bind fun _ => trivial

/- An experiment is lowered, or fails on what is not supported. -/
theorem Follows.notInternal_addExperiment
    (hFollows : s.Follows False m)
    (hSupports : m.names.Supports s.measurements.contains x) :
    NotInternal (s.addExperiment x) := by
  rcases hSupports.state with ⟨state, value, hState, hValue, hKind⟩
  rw [← hFollows.environment] at hValue
  refine (Fails.of_ok
    (exists_lowerInitialState hState hValue hKind)).bind_of_ok ?_
  rintro ⟨id, first⟩ hInitial
  rcases follows_lowerInitialState hFollows hInitial with
    ⟨hToFirst, hFirst, _⟩
  refine (hFirst.notInternal_lowerEvolution hSupports).bind_of_ok ?_
  rintro ⟨evolution, second⟩ hEvolution
  rcases follows_lowerEvolution hFirst hEvolution with
    ⟨hToSecond, hSecond, _⟩
  have hMeasurements : second.measurements = s.measurements := by
    rw [hToSecond.measurements, hToFirst.measurements]
  refine (hSecond.notInternal_lowerSchedule ?_).bind fun _ => trivial
  intro event hEvent hOther
  rw [hMeasurements] at hOther
  exact hSupports.observed _ (Experiment.event_mem_observed hEvent hOther)

/-
  A statement that is validated with the same values of names
  and the same measurements is lowered, or fails on what is
  not supported.
-/
theorem Follows.notInternal_addStatement
    {tolerance : R}
    {v next : Validator R}
    {d : Statement R}
    (hFollows : s.Follows False m)
    (hNames : s.environment = v.environment)
    (hMeasured : s.measurements.contains = v.measurements.contains)
    (hCheck : Validator.check tolerance v d = .ok next) :
    NotInternal (s.addStatement d) := by
  have hBinds := hFollows.binds
  rw [← hFollows.environment] at hBinds
  have hEvaluated : ∀ e, d.definition? = some e →
      ∃ value?, s.environment.evaluate? e = .ok value? := by
    intro e hDefinition
    rw [hNames]
    exact (Validator.checks_of_check hCheck).evaluated hDefinition
  cases d with
  | empty => exact absurd hCheck refuse_ne_ok
  | const name e => exact notInternal_addConst name (hEvaluated e rfl)
  | symbol name => exact trivial
  | matrix name e =>
      exact hBinds.notInternal_addQuantity name (hEvaluated e rfl)
  | function name parameters body => exact trivial
  | hamiltonian name parameters e =>
      refine hBinds.notInternal_addHamiltonian name fun hParameters => ?_
      exact hEvaluated e (by rw [Statement.definition?, if_pos hParameters])
  | measurement name kind operators =>
      rcases bind_eq_ok_iff.1 hCheck with ⟨matrices, hMatrices, _⟩
      have hValues : ∀ operator ∈ operators, ∃ value,
          s.environment.evaluate operator = .ok value := by
        intro operator hOperator
        rw [hNames]
        rcases exists_of_forall₂_left
            (Validator.evaluates_of_operatorMatrices hMatrices) operator
            hOperator with
          ⟨a, _, hValue⟩
        exact ⟨_, hValue⟩
      exact (Fails.of_ok (exists_emitOperators hValues)).bind
        fun _ => trivial
  | experiment x =>
      have hSupports := Validator.supports_of_checkExperiment hCheck
      rw [← hNames, ← hMeasured, hFollows.environment] at hSupports
      exact hFollows.notInternal_addExperiment hSupports

end Lowering

end QuantumLab
