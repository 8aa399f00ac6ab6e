import QuantumLab.Proofs.Execution.Faults
import QuantumLab.Proofs.Lowering.Emission
import QuantumLab.Proofs.Program.Stages

/-
  This file says once what every statement adds to a
  lowering, for whatever is to be shown of lowerings.

  Key definitions include:
    * `Statement.isLoaded`
    * `Lowering.Loads`
    * `Lowering.Adds`
    * `Lowering.IsKept`

  Main statements:
    * `Lowering.adds_of_addStatement` says that every
      statement that is lowered adds in one of a few ways.
    * `Lowering.loads_addMeasurement` and
      `Lowering.loads_addExperiment` say that measurements
      and experiments only load values and resolve names.
    * `Lowering.IsKept.lowers` and `Lowering.IsKept.loads` say
      that a property is kept throughout if nodes that do not
      integrate and resolved names keep it.
-/

------------------------------------------------------------
-- What statements add
------------------------------------------------------------

namespace QuantumLab

variable {R : Type}

/- Whether the value of a definition is loaded as it is. -/
def Statement.isLoaded : Statement R → Bool
  | .const _ _ => true
  | .matrix _ value => value.isLiteral
  | _ => false

variable [Arithmetic R]

namespace Lowering

/-
  What a statement adds to a lowering: a name without a
  value, a name with the node of its definition, which is a
  loaded value or a lowered expression, or the nodes of a
  measurement or of an experiment.
-/
inductive Adds
    (s : Lowering R) :
    Statement R → Lowering R → Prop where
  | symbol
      {d : Statement R}
      (hDefinition : d.definition? = none)
      (hSymbol : d.declaresSymbol = true) :
      Adds s d (s.declareSymbolic d.name)
  | undefined
      {d : Statement R}
      {e : Expr R}
      (hDefinition : d.definition? = some e)
      (hNone : s.environment.evaluate? e = .ok none) :
      Adds s d (s.declareSymbolic d.name)
  | loaded
      {d : Statement R}
      {e : Expr R}
      {value : Value R}
      (hDefinition : d.definition? = some e)
      (hLoaded : d.isLoaded = true)
      (hValue : s.environment.evaluate e = .ok value) :
      Adds s d
        (((s.define d.name value).emitConstant d.name value).2.bind
          d.name
          ((s.define d.name value).emitConstant d.name value).1)
  | lowered
      {d : Statement R}
      {e : Expr R}
      {value : Value R}
      {id : NodeId}
      {later : Lowering R}
      (hDefinition : d.definition? = some e)
      (hLoaded : d.isLoaded = false)
      (hValue : s.environment.evaluate e = .ok value)
      (hLower : (s.define d.name value).lower e = .ok (id, later)) :
      Adds s d (later.bind d.name id)
  | measurement
      {name : String}
      {kind : MeasurementKind}
      {operators : List (Expr R)}
      {next : Lowering R}
      (hAdd : s.addMeasurement name kind operators = .ok next) :
      Adds s (.measurement name kind operators) next
  | experiment
      {x : Experiment R}
      {next : Lowering R}
      (hAdd : s.addExperiment x = .ok next) :
      Adds s (.experiment x) next

variable
  {s next : Lowering R}
  {e : Expr R}
  {name : String}

theorem adds_of_addConst
    (hAdd : s.addConst name e = .ok next) :
    s.Adds (.const name e) next := by
  rcases bind_eq_ok_iff.1 hAdd with ⟨value?, hEvaluated, hRest⟩
  cases value? with
  | none =>
      rw [← pure_eq_ok_iff.1 hRest]
      exact .undefined rfl hEvaluated
  | some value =>
      rw [Environment.evaluate?_eq_some_iff] at hEvaluated
      rw [← pure_eq_ok_iff.1 hRest]
      exact .loaded rfl rfl hEvaluated

theorem adds_of_addQuantity
    (hAdd : s.addQuantity name e = .ok next) :
    s.Adds (.matrix name e) next := by
  rcases bind_eq_ok_iff.1 hAdd with ⟨value?, hEvaluated, hRest⟩
  cases value? with
  | none =>
      rw [← pure_eq_ok_iff.1 hRest]
      exact .undefined rfl hEvaluated
  | some value =>
      rw [Environment.evaluate?_eq_some_iff] at hEvaluated
      by_cases hLiteral : e.isLiteral = true
      · simp only [hLiteral, if_true] at hRest
        rw [← pure_eq_ok_iff.1 hRest]
        exact .loaded rfl hLiteral hEvaluated
      · simp only [hLiteral] at hRest
        rw [Bool.not_eq_true] at hLiteral
        rcases bind_eq_ok_iff.1 hRest with ⟨⟨id, last⟩, hLower, hDone⟩
        rw [← pure_eq_ok_iff.1 hDone]
        exact .lowered rfl hLiteral hEvaluated hLower

theorem adds_of_addHamiltonian
    {parameters : List String}
    (hAdd : s.addHamiltonian name parameters e = .ok next) :
    s.Adds (.hamiltonian name parameters e) next := by
  unfold addHamiltonian at hAdd
  by_cases hParameters : parameters.isEmpty = true
  · have hDefinition :
        (Statement.hamiltonian name parameters e).definition? =
          some e := by
      rw [Statement.definition?, if_pos hParameters]
    simp only [hParameters, Bool.not_true, Bool.false_eq_true,
      if_false] at hAdd
    rcases bind_eq_ok_iff.1 hAdd with ⟨value?, hEvaluated, hRest⟩
    cases value? with
    | none =>
        rw [← pure_eq_ok_iff.1 hRest]
        exact .undefined hDefinition hEvaluated
    | some value =>
        rw [Environment.evaluate?_eq_some_iff] at hEvaluated
        rcases bind_eq_ok_iff.1 hRest with ⟨⟨id, last⟩, hLower, hDone⟩
        rw [← pure_eq_ok_iff.1 hDone]
        exact .lowered hDefinition rfl hEvaluated hLower
  · have hDefinition :
        (Statement.hamiltonian name parameters e).definition? =
          none := by
      rw [Statement.definition?, if_neg hParameters]
    rw [Bool.not_eq_true] at hParameters
    simp only [hParameters, Bool.not_false, if_true] at hAdd
    rw [← pure_eq_ok_iff.1 hAdd]
    apply Adds.symbol hDefinition
    simp [Statement.declaresSymbol, hParameters]

/- A statement that is lowered adds in one of these ways. -/
theorem adds_of_addStatement
    {d : Statement R}
    (hAdd : s.addStatement d = .ok next) :
    s.Adds d next := by
  cases d with
  | empty => exact absurd hAdd refuse_ne_ok
  | const name e => exact adds_of_addConst hAdd
  | symbol name =>
      rw [← Except.ok.inj hAdd]
      exact .symbol rfl rfl
  | matrix name e => exact adds_of_addQuantity hAdd
  | function name parameters body =>
      rw [← Except.ok.inj hAdd]
      exact .symbol rfl rfl
  | hamiltonian name parameters e => exact adds_of_addHamiltonian hAdd
  | measurement name kind operators => exact .measurement hAdd
  | experiment x => exact .experiment hAdd

end Lowering

end QuantumLab

------------------------------------------------------------
-- Loaded values and resolved names
------------------------------------------------------------

namespace QuantumLab

variable {R : Type} [Arithmetic R]

/- The kind of the values that an initial state may have. -/
def StateKind.valueKind : StateKind → ValueKind
  | .ket => .vector
  | .rho => .matrix

namespace Lowering

/- Values are loaded and names are resolved, one by one. -/
inductive Loads : Lowering R → Lowering R → Prop where
  | done
      (s : Lowering R) :
      Loads s s
  | value
      {s later : Lowering R}
      (name : String)
      (value : Value R)
      (hRest : Loads (s.emitConstant name value).2 later) :
      Loads s later
  | name
      {s next later : Lowering R}
      {name : String}
      {id : NodeId}
      (hResolve : s.resolve name = .ok (id, next))
      (hRest : Loads next later) :
      Loads s later

variable
  {s later : Lowering R}

theorem Loads.trans
    {last : Lowering R}
    (hFirst : s.Loads later)
    (hSecond : later.Loads last) :
    s.Loads last := by
  induction hFirst with
  | done s => exact hSecond
  | value name value _ ih => exact .value name value (ih hSecond)
  | name hResolve _ ih => exact .name hResolve (ih hSecond)

theorem loads_emitOperators
    {name : String}
    {k : Nat}
    {operators : List (Expr R)}
    {ids : List NodeId}
    (hEmit : s.emitOperators name k operators = .ok (ids, later)) :
    s.Loads later := by
  induction operators generalizing s k ids with
  | nil =>
      cases hEmit
      exact .done _
  | cons operator rest ih =>
      rcases bind_eq_ok_iff.1 hEmit with ⟨value, _, hRest⟩
      rcases bind_eq_ok_iff.1 hRest with ⟨⟨others, last⟩, hTail, hDone⟩
      cases pure_eq_ok_iff.1 hDone
      exact .value _ value (ih hTail)

/- The value of an initial state is loaded. -/
theorem value_of_lowerInitialState
    {x : Experiment R}
    {id : NodeId}
    (hLower : s.lowerInitialState x = .ok (id, later)) :
    ∃ state value name,
      x.initialState = some state ∧
      s.environment.evaluate state.value = .ok value ∧
      value.kind = state.kind.valueKind ∧
      s.emitConstant name value = (id, later) := by
  unfold lowerInitialState at hLower
  cases hState : x.initialState with
  | none =>
      rw [hState] at hLower
      exact absurd hLower refuse_ne_ok
  | some state =>
      simp only [hState] at hLower
      rcases bind_eq_ok_iff.1 hLower with ⟨value, hValue, hRest⟩
      revert hRest
      split
      · next hKind =>
        intro hRest
        refine ⟨state, _, _, rfl, hValue, ?_, pure_eq_ok_iff.1 hRest⟩
        rw [hKind]
        rfl
      · intro hRest
        exact absurd hRest refuse_ne_ok
      · next hKind =>
        intro hRest
        refine ⟨state, _, _, rfl, hValue, ?_, pure_eq_ok_iff.1 hRest⟩
        rw [hKind]
        rfl
      · intro hRest
        exact absurd hRest refuse_ne_ok

theorem loads_lowerInitialState
    {x : Experiment R}
    {id : NodeId}
    (hLower : s.lowerInitialState x = .ok (id, later)) :
    s.Loads later := by
  rcases value_of_lowerInitialState hLower with
    ⟨state, value, name, _, _, _, hEmit⟩
  apply Loads.value name value
  rw [hEmit]
  exact .done later

theorem loads_lowerTerms
    {terms : List (LindbladTerm R)}
    {jumps : List (Jump R)}
    (hLower : s.lowerTerms terms = .ok (jumps, later)) :
    s.Loads later := by
  induction terms generalizing s jumps with
  | nil =>
      cases hLower
      exact .done _
  | cons term rest ih =>
      rcases bind_eq_ok_iff.1 hLower with
        ⟨⟨operator, first⟩, hResolve, hRest⟩
      simp only at hRest
      split at hRest
      · rcases bind_eq_ok_iff.1 hRest with
          ⟨⟨others, last⟩, hTail, hDone⟩
        cases pure_eq_ok_iff.1 hDone
        exact .name hResolve (ih hTail)
      · split at hRest
        · exact absurd hRest refuse_ne_ok
        · cases hRest

theorem loads_lowerEvolution
    {evolution : Option (Evolution R)}
    {planned : Option (PlannedEvolution R)}
    (hLower : s.lowerEvolution evolution = .ok (planned, later)) :
    s.Loads later := by
  cases evolution with
  | none =>
      cases hLower
      exact .done _
  | some evolution =>
      rcases bind_eq_ok_iff.1 hLower with
        ⟨⟨hamiltonian, first⟩, hResolve, hRest⟩
      rcases bind_eq_ok_iff.1 hRest with ⟨⟨jumps, last⟩, hTerms, hDone⟩
      cases pure_eq_ok_iff.1 hDone
      exact .name hResolve (loads_lowerTerms hTerms)

theorem loads_lowerEvent
    {times : List R}
    {event : Event R}
    {planned : PlannedMeasurement}
    (hLower : s.lowerEvent times event = .ok (planned, later)) :
    s.Loads later := by
  unfold lowerEvent at hLower
  cases hFound : s.measurements.find? event.measurement with
  | some entry =>
      rw [hFound] at hLower
      cases hLower
      exact .done _
  | none =>
      simp only [hFound] at hLower
      rcases bind_eq_ok_iff.1 hLower with
        ⟨⟨operator, last⟩, hResolve, hDone⟩
      cases pure_eq_ok_iff.1 hDone
      exact .name hResolve (.done _)

theorem loads_lowerSchedule
    {times : List R}
    {schedule : List (Event R)}
    {planned : List PlannedMeasurement}
    (hLower : s.lowerSchedule times schedule = .ok (planned, later)) :
    s.Loads later := by
  induction schedule generalizing s planned with
  | nil =>
      cases hLower
      exact .done _
  | cons event rest ih =>
      rcases bind_eq_ok_iff.1 hLower with ⟨⟨first, mid⟩, hEvent, hRest⟩
      rcases bind_eq_ok_iff.1 hRest with ⟨⟨others, last⟩, hTail, hDone⟩
      cases pure_eq_ok_iff.1 hDone
      exact (loads_lowerEvent hEvent).trans (ih hTail)

/- A measurement loads its operators and is noted with them. -/
theorem loads_addMeasurement
    {name : String}
    {kind : MeasurementKind}
    {operators : List (Expr R)}
    {next : Lowering R}
    (hAdd : s.addMeasurement name kind operators = .ok next) :
    ∃ last ids, s.Loads last ∧
      next = { last with
        measurements := last.measurements.insert name
          (OutcomeKind.ofDefinition kind, ids) } := by
  rcases bind_eq_ok_iff.1 hAdd with ⟨⟨ids, last⟩, hEmit, hDone⟩
  exact ⟨last, ids, loads_emitOperators hEmit,
    (pure_eq_ok_iff.1 hDone).symm⟩

/- An experiment loads what it refers to and is planned with it. -/
theorem loads_addExperiment
    {x : Experiment R}
    {next : Lowering R}
    (hAdd : s.addExperiment x = .ok next) :
    ∃ last planned, s.Loads last ∧
      next = { last with plan := last.plan.addExperiment planned } := by
  rcases bind_eq_ok_iff.1 hAdd with ⟨⟨id, first⟩, hState, hRest⟩
  rcases bind_eq_ok_iff.1 hRest with
    ⟨⟨evolution, second⟩, hEvolution, hRest⟩
  rcases bind_eq_ok_iff.1 hRest with
    ⟨⟨measurements, last⟩, hSchedule, hDone⟩
  have hFirst := loads_lowerInitialState hState
  have hSecond := loads_lowerEvolution hEvolution
  have hLast := loads_lowerSchedule hSchedule
  exact ⟨last, _, (hFirst.trans hSecond).trans hLast,
    (pure_eq_ok_iff.1 hDone).symm⟩

end Lowering

end QuantumLab

------------------------------------------------------------
-- Kept properties
------------------------------------------------------------

namespace QuantumLab

variable {R : Type}

theorem Operation.grid?_constant
    (name : String)
    (value : Value R) :
    (constant name value).grid? = none := by
  cases value with
  | scalar z => rfl
  | vector v => rfl
  | matrix a => rfl

variable [Arithmetic R]

namespace Lowering

/-
  New nodes that do not integrate keep a property, and so do
  resolved names.
-/
structure IsKept (P : Lowering R → Prop) : Prop where
  emit : ∀ {s : Lowering R}, P s → ∀ operation shape,
    operation.grid? = none → P (s.emit operation shape).2
  resolve : ∀ {s later : Lowering R} {other : String} {id : NodeId},
    P s → s.resolve other = .ok (id, later) → P later

namespace IsKept

variable
  {P : Lowering R → Prop}
  {s later : Lowering R}

theorem emitConstant
    (hKept : IsKept P)
    (hStart : P s)
    (name : String)
    (value : Value R) :
    P (s.emitConstant name value).2 :=
  hKept.emit hStart _ _ (Operation.grid?_constant name value)

theorem emitQuotient
    (hKept : IsKept P)
    (hStart : P s)
    (factor : Scalar R)
    (dividend : NodeId) :
    P (s.emitQuotient factor dividend).2 :=
  hKept.emit (hKept.emit hStart _ _ rfl) _ _ rfl

theorem emitBinary
    (hKept : IsKept P)
    (hStart : P s)
    (op : BinaryOp)
    (l r : NodeId) :
    P (s.emitBinary op l r).2 := by
  cases op with
  | add => exact hKept.emit hStart _ _ rfl
  | divide => exact hKept.emit hStart _ _ rfl
  | power => exact hKept.emit hStart _ _ rfl
  | tensor => exact hKept.emit hStart _ _ rfl
  | commutator => exact hKept.emit hStart _ _ rfl
  | subtract =>
      have hMinusOne := hKept.emitConstant hStart ""
        (.scalar (Scalar.ofReal (-(1.0 : R))))
      exact hKept.emit (hKept.emit hMinusOne _ _ rfl) _ _ rfl
  | anticommutator =>
      have hProduct := hKept.emit hStart (.matrixMul l r)
        (s.shapeOf l) rfl
      exact hKept.emit (hKept.emit hProduct _ _ rfl) _ _ rfl
  | multiply =>
      change P (s.emitProduct l r).2
      unfold emitProduct
      simp only
      split
      · exact hKept.emit hStart _ _ rfl
      · split
        · exact hKept.emit hStart _ _ rfl
        · split
          · exact hKept.emit hStart _ _ rfl
          · exact hKept.emit hStart _ _ rfl

theorem emitUnary
    (hKept : IsKept P)
    (hStart : P s)
    (op : UnaryOp)
    (operand : NodeId) :
    P (s.emitUnary op operand).2 := by
  cases op with
  | dagger => exact hKept.emit hStart _ _ rfl
  | trace => exact hKept.emit hStart _ _ rfl
  | expm => exact hKept.emit hStart _ _ rfl
  | sqrt => exact hKept.emit hStart _ _ rfl
  | sin => exact hKept.emit hStart _ _ rfl
  | cos => exact hKept.emit hStart _ _ rfl
  | exp => exact hKept.emit hStart _ _ rfl

/- An expression that is lowered keeps it. -/
theorem lowers
    {e : Expr R}
    {id : NodeId}
    (hKept : IsKept P)
    (hLowers : Lowers s e id later)
    (hStart : P s) :
    P later := by
  induction hLowers with
  | constant _ _ => exact hKept.emitConstant hStart _ _
  | name hResolve => exact hKept.resolve hStart hResolve
  | quotient _ _ _ ih => exact hKept.emitQuotient (ih hStart) _ _
  | binary _ _ _ _ ihLeft ihRight =>
      exact hKept.emitBinary (ihRight (ihLeft hStart)) _ _ _
  | unary _ _ _ ih => exact hKept.emitUnary (ih hStart) _ _
  | scalarExponential _ _ _ ih =>
      exact hKept.emitConstant (ih hStart) _ _

/- Values that are loaded and names that are resolved keep it. -/
theorem loads
    (hKept : IsKept P)
    (hLoads : s.Loads later)
    (hStart : P s) :
    P later := by
  induction hLoads with
  | done s => exact hStart
  | value name value _ ih => exact ih (hKept.emitConstant hStart _ _)
  | name hResolve _ ih => exact ih (hKept.resolve hStart hResolve)

end IsKept

end Lowering

end QuantumLab
