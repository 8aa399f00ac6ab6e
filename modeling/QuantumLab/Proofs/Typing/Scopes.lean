import QuantumLab.Proofs.Program.Stages
import QuantumLab.Proofs.Typing.Expressions

/-
  This file says what each step of a shape check does.  A
  name that is declared is settled: it cannot be declared
  again, except for the predefined names, once each.

  Key definitions include:
    * `Scope.Declares`
    * `Scope.Settled`
    * `Scope.Checks`
    * `Scope.Admits`

  Main statements:
    * `Scope.checks_of_check` says what the check of a
      statement leads to.
    * `Scope.Checks.settled` says that settled names stay
      settled.
    * `Scope.Checks.declares` says that the name of a
      definition was not settled before.
    * `Scope.infer_of_measurementShape` and
      `Scope.find?_of_requireOperator` say which shapes the
      operators of measurements and experiments have.
-/

------------------------------------------------------------
-- Declarations of names
------------------------------------------------------------

namespace QuantumLab

/- The name of an initial state is not predefined. -/
theorem initialStateName_not_predefined
    (experiment : String) :
    initialStateName experiment ∉ Predefined.names := by
  intro hMember
  have hLast : (initialStateName experiment).toList.getLast? =
      some 't' := by
    simp [initialStateName, String.toList_append]
  simp only [Predefined.names, List.mem_cons, List.not_mem_nil,
    or_false] at hMember
  rcases hMember with hName | hName | hName | hName
  · rw [hName] at hLast
    revert hLast
    decide
  · rw [hName] at hLast
    revert hLast
    decide
  · rw [hName] at hLast
    revert hLast
    decide
  · rw [hName] at hLast
    revert hLast
    decide

namespace Scope

/- At first only predefined names are shadowable. -/
theorem predefined_of_shadowable
    {name : String}
    (hShadowable : initial.shadowable.contains name = true) :
    name ∈ Predefined.names := by
  rw [Table.contains, initial, Table.find?_ofList,
    Option.isSome_iff_exists] at hShadowable
  rcases hShadowable with ⟨_, hFound⟩
  have hMember := List.mem_reverse.1 (Rows.mem_of_find? hFound)
  rcases List.mem_map.1 hMember with ⟨other, hOther, hSame⟩
  cases hSame
  exact hOther

/- A name that was not settled is given a shape. -/
structure Declares
    (scope : Scope)
    (name : String)
    (shape : Shape)
    (next : Scope) : Prop where
  fresh : scope.shadowable.contains name = true ∨
    scope.shapes.contains name = false
  shapes : ∀ other, next.shapes.find? other =
    if name = other then some shape else scope.shapes.find? other
  shadowable : ∀ other, next.shadowable.contains other =
    (!decide (name = other) && scope.shadowable.contains other)
  measurements : next.measurements = scope.measurements
  parameters : next.parameters = scope.parameters

theorem declares_of_declare
    {R : Type}
    {scope next : Scope}
    {name : String}
    {shape : Shape}
    (hDeclare : (scope.declare name shape : Except (Fault R) Scope) =
      .ok next) :
    scope.Declares name shape next := by
  unfold declare at hDeclare
  by_cases hShadowable : scope.shadowable.contains name = true
  · rw [if_pos hShadowable] at hDeclare
    rw [← Except.ok.inj hDeclare]
    constructor
    · exact .inl hShadowable
    · intro other
      exact Table.find?_insert _ _ _ _
    · intro other
      exact Table.contains_erase _ _ _
    · rfl
    · rfl
  · rw [if_neg hShadowable] at hDeclare
    by_cases hKnown : (scope.functions.contains name ||
        scope.shapes.contains name) = true
    · rw [if_pos hKnown] at hDeclare
      exact absurd hDeclare refuse_ne_ok
    · rw [if_neg hKnown] at hDeclare
      rw [← Except.ok.inj hDeclare]
      rw [Bool.not_eq_true, Bool.or_eq_false_iff] at hKnown
      constructor
      · exact .inr hKnown.2
      · intro other
        exact Table.find?_insert _ _ _ _
      · intro other
        by_cases hSame : name = other
        · subst hSame
          simpa using hShadowable
        · simp [hSame]
      · rfl
      · rfl

/- A name cannot be declared again. -/
structure Settled (scope : Scope) (name : String) : Prop where
  declared : scope.shapes.contains name = true
  closed : scope.shadowable.contains name = false

theorem Declares.not_settled
    {scope next : Scope}
    {name : String}
    {shape : Shape}
    (hDeclares : scope.Declares name shape next) :
    ¬ scope.Settled name := by
  intro hSettled
  rcases hDeclares.fresh with hShadowable | hFresh
  · rw [hSettled.closed] at hShadowable
    cases hShadowable
  · rw [hSettled.declared] at hFresh
    cases hFresh

/- A name is settled by its declaration. -/
theorem Declares.settles
    {scope next : Scope}
    {name : String}
    {shape : Shape}
    (hDeclares : scope.Declares name shape next) :
    next.Settled name := by
  constructor
  · rw [Table.contains, hDeclares.shapes, if_pos rfl]
    rfl
  · rw [hDeclares.shadowable]
    simp

theorem Declares.declared
    {scope next : Scope}
    {name other : String}
    {shape : Shape}
    (hDeclares : scope.Declares name shape next)
    (hOther : scope.shapes.contains other = true) :
    next.shapes.contains other = true := by
  rw [Table.contains, hDeclares.shapes]
  by_cases hSame : name = other
  · rw [if_pos hSame]
    rfl
  · rw [if_neg hSame]
    exact hOther

theorem Declares.wasShadowable
    {scope next : Scope}
    {name other : String}
    {shape : Shape}
    (hDeclares : scope.Declares name shape next)
    (hShadowable : next.shadowable.contains other = true) :
    scope.shadowable.contains other = true := by
  rw [hDeclares.shadowable, Bool.and_eq_true] at hShadowable
  exact hShadowable.2

/- A settled name keeps its shape. -/
theorem Declares.find?_of_settled
    {scope next : Scope}
    {name other : String}
    {shape : Shape}
    (hDeclares : scope.Declares name shape next)
    (hSettled : scope.Settled other) :
    next.shapes.find? other = scope.shapes.find? other := by
  have hDifferent : name ≠ other := by
    rintro rfl
    exact hDeclares.not_settled hSettled
  rw [hDeclares.shapes, if_neg hDifferent]

theorem Declares.settled
    {scope next : Scope}
    {name other : String}
    {shape : Shape}
    (hDeclares : scope.Declares name shape next)
    (hSettled : scope.Settled other) :
    next.Settled other := by
  constructor
  · exact hDeclares.declared hSettled.declared
  · rw [hDeclares.shadowable, hSettled.closed, Bool.and_false]

end Scope

end QuantumLab

------------------------------------------------------------
-- Statements
------------------------------------------------------------

namespace QuantumLab

variable {R : Type}

namespace Scope

/-
  What the check of a statement leads to: a name with a
  shape, a function, or what an experiment leads to.
-/
inductive Checks
    (scope : Scope) : Statement R → Scope → Prop where
  | quantity
      {d : Statement R}
      {e : Expr R}
      {shape : Shape}
      {next : Scope}
      (hDefinition : d.definition? = some e)
      (hShape : scope.infer e = .ok shape)
      (hDeclares : scope.Declares d.name shape next) :
      Checks scope d next
  | symbol
      {d : Statement R}
      {shape : Shape}
      {next : Scope}
      (hSymbol : d.declaresSymbol = true)
      (hDeclares : scope.Declares d.name shape next) :
      Checks scope d next
  | function
      {name : String}
      {parameters : List String}
      {body : Expr R} :
      Checks scope (.function name parameters body)
        { scope with functions := scope.functions.add name }
  | measurement
      {name : String}
      {kind : MeasurementKind}
      {operators : List (Expr R)}
      {shape : Shape}
      {next : Scope}
      (hShape : scope.measurementShape name 0 none operators =
        .ok shape)
      (hDeclares :
        { scope with
          measurements := scope.measurements.add name }.Declares
            name shape next) :
      Checks scope (.measurement name kind operators) next
  | experiment
      {x : Experiment R}
      {next : Scope}
      (hCheck : scope.checkExperiment x = .ok next) :
      Checks scope (.experiment x) next

/- The check of every statement is one of these. -/
theorem checks_of_check
    {scope next : Scope}
    {d : Statement R}
    (hTop : scope.parameters = [])
    (hCheck : scope.check d = .ok next) :
    Checks scope d next := by
  cases d with
  | empty => exact absurd hCheck refuse_ne_ok
  | const name e =>
      rcases bind_eq_ok_iff.1 hCheck with ⟨shape, hShape, hRest⟩
      by_cases hScalar : shape.isScalar = true
      · simp only [hScalar, if_true] at hRest
        exact .quantity rfl hShape (declares_of_declare hRest)
      · simp only [hScalar] at hRest
        exact absurd hRest refuse_ne_ok
  | symbol name => exact .symbol rfl (declares_of_declare hCheck)
  | matrix name e =>
      rcases bind_eq_ok_iff.1 hCheck with ⟨shape, hShape, hDeclare⟩
      exact .quantity rfl hShape (declares_of_declare hDeclare)
  | function name parameters body =>
      change scope.checkFunction name parameters body = .ok next at hCheck
      unfold checkFunction at hCheck
      split at hCheck
      · exact absurd hCheck refuse_ne_ok
      · rcases bind_eq_ok_iff.1 hCheck with ⟨shape, _, hDone⟩
        rw [← pure_eq_ok_iff.1 hDone]
        exact .function
  | hamiltonian name parameters e =>
      rcases bind_eq_ok_iff.1 hCheck with ⟨shape, hShape, hDeclare⟩
      have hDeclares := declares_of_declare hDeclare
      by_cases hParameters : parameters.isEmpty = true
      · rcases bind_eq_ok_iff.1 hShape with ⟨inferred, hInfer, hRest⟩
        rw [List.isEmpty_iff.1 hParameters, ← hTop] at hInfer
        by_cases hSquare : inferred.isSquareMatrix = true
        · simp only [hSquare, if_true] at hRest
          rw [pure_eq_ok_iff.1 hRest] at hInfer
          refine .quantity ?_ hInfer hDeclares
          rw [Statement.definition?, if_pos hParameters]
        · simp only [hSquare] at hRest
          exact absurd hRest refuse_ne_ok
      · refine .symbol ?_ hDeclares
        simp [Statement.declaresSymbol, hParameters]
  | measurement name kind operators =>
      rcases bind_eq_ok_iff.1 hCheck with ⟨shape, hShape, hDeclare⟩
      exact .measurement hShape (declares_of_declare hDeclare)
  | experiment x => exact .experiment hCheck

/- What an experiment has passed that is checked. -/
structure Admits
    (scope : Scope)
    (x : Experiment R)
    (dimension : Option Nat)
    (next : Scope) : Prop where
  state : scope.declareState x.name x.initialState =
    .ok (next, dimension)
  evolution : ∀ evolution, x.evolution = some evolution →
    next.requireEvolution x.name dimension evolution = .ok ()
  schedule : ∀ event ∈ x.schedule,
    next.requireEvent x.name dimension event = .ok ()

theorem admits_of_checkExperiment
    {scope next : Scope}
    {x : Experiment R}
    (hCheck : scope.checkExperiment x = .ok next) :
    ∃ dimension, scope.Admits x dimension next := by
  rcases bind_eq_ok_iff.1 hCheck with
    ⟨⟨last, dimension⟩, hState, hRest⟩
  refine ⟨dimension, ?_⟩
  cases hEvolution : x.evolution with
  | none =>
      simp only [hEvolution, ok_bind] at hRest
      rcases unit_bind_eq_ok_iff.1 hRest with ⟨hSchedule, hDone⟩
      cases pure_eq_ok_iff.1 hDone
      constructor
      · exact hState
      · intro evolution hSome
        rw [hEvolution] at hSome
        cases hSome
      · exact forM_eq_ok_iff.1 hSchedule
  | some evolution =>
      simp only [hEvolution] at hRest
      rcases unit_bind_eq_ok_iff.1 hRest with ⟨hOperators, hRest⟩
      rcases unit_bind_eq_ok_iff.1 hRest with ⟨hSchedule, hDone⟩
      cases pure_eq_ok_iff.1 hDone
      constructor
      · exact hState
      · intro other hSome
        rw [hEvolution] at hSome
        cases hSome
        exact hOperators
      · exact forM_eq_ok_iff.1 hSchedule

/- An experiment with a state settles the name of the state. -/
theorem declares_of_declareState
    {scope next : Scope}
    {experiment : String}
    {state : InitialState R}
    {dimension : Option Nat}
    (hState : scope.declareState experiment (some state) =
      .ok (next, dimension)) :
    ∃ shape, scope.infer state.value = .ok shape ∧
      requireStateShape (R := R) experiment state.kind shape = .ok () ∧
      scope.Declares (initialStateName experiment) shape next ∧
      dimension = some shape.rows := by
  rcases bind_eq_ok_iff.1 hState with ⟨shape, hShape, hRest⟩
  rcases unit_bind_eq_ok_iff.1 hRest with ⟨hKind, hRest⟩
  rcases bind_eq_ok_iff.1 hRest with ⟨last, hDeclare, hDone⟩
  cases pure_eq_ok_iff.1 hDone
  exact ⟨shape, hShape, hKind, declares_of_declare hDeclare, rfl⟩

theorem declares_of_checkExperiment
    {scope next : Scope}
    {x : Experiment R}
    {state : InitialState R}
    (hCheck : scope.checkExperiment x = .ok next)
    (hSome : x.initialState = some state) :
    ∃ shape, scope.Declares (initialStateName x.name) shape next := by
  rcases admits_of_checkExperiment hCheck with ⟨dimension, hAdmits⟩
  have hState := hAdmits.state
  rw [hSome] at hState
  rcases declares_of_declareState hState with
    ⟨shape, _, _, hDeclares, _⟩
  exact ⟨shape, hDeclares⟩

/- An experiment declares no name but that of its state. -/
theorem eq_or_declares_of_checkExperiment
    {scope next : Scope}
    {x : Experiment R}
    (hCheck : scope.checkExperiment x = .ok next) :
    next = scope ∨
      ∃ shape, scope.Declares (initialStateName x.name) shape next := by
  cases hSome : x.initialState with
  | some state => exact .inr (declares_of_checkExperiment hCheck hSome)
  | none =>
      rcases admits_of_checkExperiment hCheck with ⟨dimension, hAdmits⟩
      have hState := hAdmits.state
      rw [hSome] at hState
      cases hState
      exact .inl rfl

section Steps

variable
  {scope next : Scope}
  {d : Statement R}
  {name : String}

/- Names that are declared stay declared. -/
theorem Checks.declared
    (hChecks : scope.Checks d next)
    (hDeclared : scope.shapes.contains name = true) :
    next.shapes.contains name = true := by
  cases hChecks with
  | quantity hDefinition hShape hDeclares =>
      exact hDeclares.declared hDeclared
  | symbol hSymbol hDeclares => exact hDeclares.declared hDeclared
  | function => exact hDeclared
  | measurement hShape hDeclares => exact hDeclares.declared hDeclared
  | experiment hCheck =>
      rcases eq_or_declares_of_checkExperiment hCheck with
        rfl | ⟨shape, hDeclares⟩
      · exact hDeclared
      · exact hDeclares.declared hDeclared

/- Names that are settled stay settled. -/
theorem Checks.settled
    (hChecks : scope.Checks d next)
    (hSettled : scope.Settled name) :
    next.Settled name := by
  cases hChecks with
  | quantity hDefinition hShape hDeclares =>
      exact hDeclares.settled hSettled
  | symbol hSymbol hDeclares => exact hDeclares.settled hSettled
  | function => exact ⟨hSettled.declared, hSettled.closed⟩
  | measurement hShape hDeclares =>
      exact hDeclares.settled ⟨hSettled.declared, hSettled.closed⟩
  | experiment hCheck =>
      rcases eq_or_declares_of_checkExperiment hCheck with
        rfl | ⟨shape, hDeclares⟩
      · exact hSettled
      · exact hDeclares.settled hSettled

/- Settled names keep their shapes. -/
theorem Checks.find?_of_settled
    (hChecks : scope.Checks d next)
    (hSettled : scope.Settled name) :
    next.shapes.find? name = scope.shapes.find? name := by
  cases hChecks with
  | quantity _ _ hDeclares => exact hDeclares.find?_of_settled hSettled
  | symbol _ hDeclares => exact hDeclares.find?_of_settled hSettled
  | function => rfl
  | measurement _ hDeclares =>
      exact hDeclares.find?_of_settled
        ⟨hSettled.declared, hSettled.closed⟩
  | experiment hCheck =>
      rcases eq_or_declares_of_checkExperiment hCheck with
        rfl | ⟨shape, hDeclares⟩
      · rfl
      · exact hDeclares.find?_of_settled hSettled

/- No name becomes shadowable. -/
theorem Checks.shadowable
    (hChecks : scope.Checks d next)
    (hShadowable : next.shadowable.contains name = true) :
    scope.shadowable.contains name = true := by
  cases hChecks with
  | quantity hDefinition hShape hDeclared =>
      exact hDeclared.wasShadowable hShadowable
  | symbol hSymbol hDeclared => exact hDeclared.wasShadowable hShadowable
  | function => exact hShadowable
  | measurement hShape hDeclared =>
      exact hDeclared.wasShadowable hShadowable
  | experiment hCheck =>
      rcases eq_or_declares_of_checkExperiment hCheck with
        rfl | ⟨shape, hDeclared⟩
      · exact hShadowable
      · exact hDeclared.wasShadowable hShadowable

theorem Checks.parameters
    (hChecks : scope.Checks d next) :
    next.parameters = scope.parameters := by
  cases hChecks with
  | quantity hDefinition hShape hDeclares => exact hDeclares.parameters
  | symbol hSymbol hDeclares => exact hDeclares.parameters
  | function => rfl
  | measurement hShape hDeclares => exact hDeclares.parameters
  | experiment hCheck =>
      rcases eq_or_declares_of_checkExperiment hCheck with
        rfl | ⟨shape, hDeclares⟩
      · rfl
      · exact hDeclares.parameters

/- A statement with a definition declares its name. -/
theorem Checks.declares
    {e : Expr R}
    (hChecks : scope.Checks d next)
    (hDefinition : d.definition? = some e) :
    ∃ shape, scope.infer e = .ok shape ∧
      scope.Declares d.name shape next := by
  cases hChecks with
  | quantity hDefinition' hShape hDeclares =>
      rw [hDefinition] at hDefinition'
      cases hDefinition'
      exact ⟨_, hShape, hDeclares⟩
  | symbol hSymbol hDeclares =>
      rw [Statement.definition?_of_declaresSymbol hSymbol] at hDefinition
      cases hDefinition
  | function => cases hDefinition
  | measurement hShape hDeclares => cases hDefinition
  | experiment hCheck => cases hDefinition

end Steps

end Scope

end QuantumLab

------------------------------------------------------------
-- Operators of measurements and experiments
------------------------------------------------------------

namespace QuantumLab

variable {R : Type}

namespace Scope

variable {scope : Scope}

/- The operators of a measurement share a shape, which is square. -/
theorem infer_of_measurementShape
    {name : String}
    {k : Nat}
    {shared : Option Shape}
    {operators : List (Expr R)}
    {shape : Shape}
    (hShape : scope.measurementShape name k shared operators =
      .ok shape) :
    shared.getD shape = shape ∧ (shared = none → operators ≠ []) ∧
      ∀ operator ∈ operators, scope.infer operator = .ok shape ∧
        shape.isSquareMatrix = true := by
  induction operators generalizing k shared with
  | nil =>
      cases shared with
      | none => exact absurd hShape refuse_ne_ok
      | some other =>
          refine ⟨Except.ok.inj hShape, nofun, ?_⟩
          intro _ hMember
          exact absurd hMember List.not_mem_nil
  | cons operator rest ih =>
      rcases bind_eq_ok_iff.1 hShape with ⟨first, hInfer, hRest⟩
      simp only at hRest
      split at hRest
      · exact absurd hRest refuse_ne_ok
      · next hSquare =>
        split at hRest
        · exact absurd hRest refuse_ne_ok
        · next hShared =>
          rw [Bool.not_eq_true, Bool.not_eq_false'] at hSquare
          rcases ih hRest with ⟨hSame, _, hLater⟩
          have hFirst : first = shape := hSame
          subst hFirst
          refine ⟨not_not.1 hShared, fun _ => List.cons_ne_nil _ _, ?_⟩
          intro other hMember
          rcases List.mem_cons.1 hMember with rfl | hOther
          · exact ⟨hInfer, hSquare⟩
          · exact hLater other hOther

/- An operator of an experiment acts on the space of the experiment. -/
theorem find?_of_requireOperator
    {experiment usage name : String}
    {n : Nat}
    (hTop : scope.parameters = [])
    (hOperator :
      (scope.requireOperator experiment (some n) usage name :
        Except (Fault R) Unit) = .ok ()) :
    scope.shapes.find? name = some (.matrix n n) := by
  rcases bind_eq_ok_iff.1 hOperator with ⟨shape, hLookup, hRest⟩
  rw [lookup_eq_ok_iff hTop] at hLookup
  simp only at hRest
  split at hRest
  · exact absurd hRest refuse_ne_ok
  · next hSquare =>
    split at hRest
    · exact absurd hRest refuse_ne_ok
    · next hRows =>
      rw [Bool.not_eq_true, Bool.not_eq_false',
        Shape.isSquareMatrix_eq_true_iff] at hSquare
      have hSame : n = shape.rows := not_not.1 hRows
      rw [hLookup, hSquare, Shape.square, ← hSame]

/- The shape of an initial state is that of its kind. -/
theorem shape_of_requireStateShape
    {experiment : String}
    {kind : StateKind}
    {shape : Shape}
    (hState : (requireStateShape experiment kind shape :
      Except (Fault R) Unit) = .ok ()) :
    shape = .vector shape.rows ∨
      shape = .matrix shape.rows shape.rows := by
  cases kind with
  | ket =>
      have hVector := (ite_refuse_eq_ok_iff.1 hState).1
      exact .inl (Shape.isVector_eq_true_iff.1 hVector)
  | rho =>
      have hSquare := (ite_refuse_eq_ok_iff.1 hState).1
      exact .inr (Shape.isSquareMatrix_eq_true_iff.1 hSquare)

/- The operators of an evolution act on the space of the experiment. -/
theorem find?_of_requireEvolution
    {experiment : String}
    {n : Nat}
    {evolution : Evolution R}
    (hTop : scope.parameters = [])
    (hEvolution :
      scope.requireEvolution experiment (some n) evolution = .ok ()) :
    scope.shapes.find? evolution.hamiltonian = some (.matrix n n) ∧
      ∀ term ∈ evolution.terms,
        scope.shapes.find? term.operator = some (.matrix n n) := by
  rcases unit_bind_eq_ok_iff.1 hEvolution with ⟨hHamiltonian, hTerms⟩
  refine ⟨find?_of_requireOperator hTop hHamiltonian, ?_⟩
  intro term hMember
  have hTerm := forM_eq_ok_iff.1 hTerms term hMember
  rcases unit_bind_eq_ok_iff.1 hTerm with ⟨hOperator, _⟩
  exact find?_of_requireOperator hTop hOperator

end Scope

end QuantumLab
