import Mathlib.Data.Option.Basic
import QuantumLab.Double
import QuantumLab.Proofs.Execution.Experiments
import QuantumLab.Proofs.Lowering.Typing
import QuantumLab.Proofs.Typing.Agreement
import QuantumLab.Proofs.Validation.Grids

/-
  This file says that the stages before the execution rule
  out every fault about operands, states and positions: the
  plan of a program can only fail on its numbers, or because
  the evolution of a closed system does not start from a ket.

  Key definitions include:
    * `Lowering.Suits`

  Main statements:
    * `Lowering.Suits.after` says that a lowering suits the
      shapes of names, statement by statement.
    * `Program.execution_isLate` says how the execution of a
      program can fail that the other stages accept.
-/

------------------------------------------------------------
-- Points of time grids
------------------------------------------------------------

namespace QuantumLab

variable {R : Type} [Arithmetic R]

/- The point nearest to a time is one of the points. -/
theorem nearestIndex_lt
    {times : List R}
    (hNonempty : times ≠ [])
    (time : R) :
    nearestIndex times time < times.length := by
  cases times with
  | nil => exact absurd rfl hNonempty
  | cons first rest =>
      unfold nearestIndex
      -- Every choice is zero or the number of a later point.
      refine List.foldlRecOn
        (motive := fun best : Nat × R =>
          best.1 < (first :: rest).length)
        _ _ (Nat.succ_pos _) ?_
      intro best hBest point hMember
      have hBelow := List.snd_lt_add_of_mem_zipIdx hMember
      dsimp only
      split
      · rw [List.length_cons]
        omega
      · exact hBest

end QuantumLab

------------------------------------------------------------
-- Stages that agree
------------------------------------------------------------

namespace QuantumLab

variable {R : Type} [Arithmetic R]

namespace Lowering

/-
  A measurement cannot be declared again, and the nodes of
  its operators have the shape of its name.
-/
structure MeasurementSuits
    (s : Lowering R)
    (scope : Scope)
    (name : String)
    (kind : OutcomeKind)
    (ids : List NodeId) : Prop where
  settled : scope.Settled name
  nonempty : ids.isEmpty = false
  kind : kind ≠ .observable
  operators : ∃ n, scope.shapes.find? name = some (.matrix n n) ∧
    ∀ id ∈ ids, s.HasShape id (.matrix n n)

/-
  A lowering keeps to what is planned, over typed nodes.  The
  shapes of names are those of their values and of the nodes
  of measurements, and every experiment acts on one space.
-/
structure Suits
    (s : Lowering R)
    (scope : Scope)
    (m : Meaning R) : Prop where
  follows : s.Follows True m
  typed : s.Typed
  agrees : scope.Agrees m.names
  measurements : ∀ name kind ids,
    s.measurements.find? name = some (kind, ids) →
      s.MeasurementSuits scope name kind ids
  experiments : ∀ e ∈ s.plan.experiments, ∃ n, e.Fits s.HasShape n

theorem suits_initial :
    (initial : Lowering R).Suits .initial .initial where
  follows := follows_initial
  typed := typed_initial
  agrees := Scope.agrees_initial
  measurements name kind ids hFound := by
    rw [initial, Table.find?_empty] at hFound
    cases hFound
  experiments e hMember := absurd hMember List.not_mem_nil

variable
  {s next : Lowering R}
  {scope scope' : Scope}
  {m : Meaning R}

omit [Arithmetic R] in
/- A measurement still suits when other names are declared. -/
theorem MeasurementSuits.later
    {d : Statement R}
    {name : String}
    {kind : OutcomeKind}
    {ids : List NodeId}
    (hSuits : s.MeasurementSuits scope name kind ids)
    (hAligned : s.Aligned)
    (hGrows : s.Grows next)
    (hChecks : scope.Checks d scope') :
    next.MeasurementSuits scope' name kind ids where
  settled := hChecks.settled hSuits.settled
  nonempty := hSuits.nonempty
  kind := hSuits.kind
  operators := by
    rcases hSuits.operators with ⟨n, hShape, hOperators⟩
    refine ⟨n, ?_, fun id hMember => ?_⟩
    · rw [hChecks.find?_of_settled hSuits.settled, hShape]
    · exact (hOperators id hMember).later hAligned hGrows

/- The operators of a measurement have the shape of its name. -/
theorem measurementSuits_addMeasurement
    {name : String}
    {kind : MeasurementKind}
    {operators : List (Expr R)}
    {shape : Shape}
    {ids : List NodeId}
    (hAgrees : scope.Agrees m.names)
    (hShape : scope.measurementShape name 0 none operators = .ok shape)
    (hDeclares :
      { scope with measurements := scope.measurements.add name }.Declares
        name shape scope')
    (hFits : ∀ operator ∈ operators, m.names.TensorsFit operator)
    (hOperators : List.Forall₂
      (fun operator id => ∃ value,
        m.names.evaluate operator = .ok value ∧
          next.Yields True id value.shape (some value))
      operators ids) :
    next.MeasurementSuits scope' name (.ofDefinition kind) ids := by
  rcases Scope.infer_of_measurementShape hShape with
    ⟨_, hNonempty, hInfer⟩
  have hSome := hNonempty rfl
  constructor
  · exact hDeclares.settles
  · rw [← Bool.not_eq_true, List.isEmpty_iff]
    rintro rfl
    cases hOperators
    exact hSome rfl
  · cases kind with
    | projective => exact nofun
    | povm => exact nofun
  · rcases List.exists_mem_of_ne_nil operators hSome with
      ⟨first, hFirst⟩
    have hSquare := Shape.isSquareMatrix_eq_true_iff.1
      (hInfer first hFirst).2
    refine ⟨shape.rows, ?_, fun id hMember => ?_⟩
    · rw [hDeclares.shapes, if_pos rfl]
      exact congrArg some hSquare
    · rcases exists_of_forall₂_right hOperators id hMember with
        ⟨operator, hOperator, value, hValue, hYields⟩
      have hSame := hAgrees.shape_of_infer
        (hInfer operator hOperator).1 hValue (hFits operator hOperator)
      rw [hSame, hSquare] at hYields
      exact hYields.hasShape

end Lowering

end QuantumLab

------------------------------------------------------------
-- Experiments
------------------------------------------------------------

namespace QuantumLab

variable {R : Type} [Arithmetic R]

namespace Lowering

variable
  {s next : Lowering R}
  {scope scope' : Scope}
  {m : Meaning R}
  {x : Experiment R}
  {n : Nat}

/- The node of an operator has the shape of the name. -/
theorem Refers.hasShape
    {name : String}
    {id : NodeId}
    (hRefers : s.Refers True m name id)
    (hKnown : m.names.KnowsOperator name)
    (hAgrees : scope.Agrees m.names)
    (hShape : scope.shapes.find? name = some (.matrix n n)) :
    s.HasShape id (.matrix n n) := by
  rcases hKnown with hSymbolic | ⟨a, hName⟩
  · rw [hRefers.known] at hSymbolic
    cases hSymbolic
  · have hYields := hRefers.stands _ hName
    rw [hAgrees.shapes name _ hName] at hShape
    rw [Option.some.inj hShape] at hYields
    exact hYields.hasShape

/- The node of an initial state is on the space of the experiment. -/
theorem PlansState.hasShape
    {id : NodeId}
    {dimension : Option Nat}
    (hState : s.PlansState True m x id)
    (hAgrees : scope.Agrees m.names)
    (hDeclared : scope.declareState x.name x.initialState =
      .ok (scope', dimension))
    (hFits : m.names.StatementFits (.experiment x)) :
    ∃ n, dimension = some n ∧
      (s.HasShape id (.vector n) ∨ s.HasShape id (.matrix n n)) := by
  rcases hState with ⟨state, value, hSome, hValue, _, hYields⟩
  rw [hSome] at hDeclared
  rcases Scope.declares_of_declareState hDeclared with
    ⟨shape, hInfer, hKind, _, rfl⟩
  have hTensors : m.names.TensorsFit state.value := by
    apply hFits
    simp [Statement.evaluated, hSome]
  rw [hAgrees.shape_of_infer hInfer hValue hTensors] at hYields
  refine ⟨shape.rows, rfl, ?_⟩
  rcases Scope.shape_of_requireStateShape hKind with hVector | hSquare
  · rw [hVector] at hYields
    exact .inl hYields.hasShape
  · rw [hSquare] at hYields
    exact .inr hYields.hasShape

/- An evolution acts on the space of the experiment. -/
theorem PlansEvolution.fits
    {evolution : Evolution R}
    {planned : PlannedEvolution R}
    (hPlans : s.PlansEvolution True m evolution planned)
    (hAgrees : scope.Agrees m.names)
    (hRequired :
      scope.requireEvolution x.name (some n) evolution = .ok ())
    (hGrid : Validator.requireAscendingGrid x.name evolution.grid =
      .ok ())
    (hHamiltonian : m.names.KnowsOperator evolution.hamiltonian)
    (hTerms : ∀ term ∈ evolution.terms,
      m.names.KnowsOperator term.operator) :
    planned.Fits s.HasShape n := by
  rcases Scope.find?_of_requireEvolution hAgrees.top hRequired with
    ⟨hShape, hShapes⟩
  constructor
  · rw [hPlans.times]
    exact Validator.requireAscendingGrid_eq_ok_iff.1 hGrid
  · exact hPlans.hamiltonian.hasShape hHamiltonian hAgrees hShape
  · intro jump hJump
    rcases exists_of_forall₂_right hPlans.jumps jump hJump with
      ⟨term, hTerm, hPlansTerm⟩
    exact hPlansTerm.operator.hasShape (hTerms term hTerm) hAgrees
      (hShapes term hTerm)

/- A measurement acts on the space of the experiment. -/
theorem PlansEvent.fits
    {table : Table (OutcomeKind × List NodeId)}
    {times : List R}
    {event : Event R}
    {planned : PlannedMeasurement}
    (hPlans : s.PlansEvent True m table times event planned)
    (hAgrees : scope.Agrees m.names)
    (hTable : ∀ name kind ids, table.find? name = some (kind, ids) →
      s.MeasurementSuits scope name kind ids)
    (hRequired :
      scope.requireEvent x.name (some n) event = .ok ())
    (hKnown : table.contains event.measurement = false →
      m.names.KnowsOperator event.measurement)
    (hTimes : times ≠ []) :
    planned.Fits s.HasShape n times.length := by
  have hShape :=
    Scope.find?_of_requireOperator hAgrees.top hRequired
  have hInside := nearestIndex_lt hTimes event.time
  cases hPlans with
  | @measurement kind operators hFound =>
      have hSuits := hTable _ _ _ hFound
      rcases hSuits.operators with ⟨k, hOther, hOperators⟩
      rw [hShape] at hOther
      cases Option.some.inj hOther
      exact ⟨hInside, hSuits.nonempty,
        fun hKind => absurd hKind hSuits.kind, hOperators⟩
  | @observable operator hNone hOperator =>
      have hOther : table.contains event.measurement = false := by
        rw [Table.contains, hNone]
        rfl
      refine ⟨hInside, rfl, fun _ => rfl, fun id hMember => ?_⟩
      rw [List.mem_singleton.1 hMember]
      exact hOperator.hasShape (hKnown hOther) hAgrees hShape

/- The times of a planned experiment are those of its evolution. -/
theorem timesOf_eq
    (e : PlannedExperiment R) :
    timesOf e.evolution = Plan.timesOf e := by
  unfold timesOf Plan.timesOf
  cases e.evolution with
  | none => rfl
  | some evolution => rfl

/- An experiment that is checked and validated acts on one space. -/
theorem PlansExperiment.fits
    {tolerance : R}
    {v mid v' : Validator R}
    {dimension : Option Nat}
    {table : Table (OutcomeKind × List NodeId)}
    {planned : PlannedExperiment R}
    (hPlans : s.PlansExperiment True m table x planned)
    (hAgrees : scope.Agrees m.names)
    (hAgrees' : scope'.Agrees m.names)
    (hTable : ∀ name kind ids, table.find? name = some (kind, ids) →
      s.MeasurementSuits scope' name kind ids)
    (hChecked : scope.Admits x dimension scope')
    (hValidated : Validator.Admits tolerance v mid x v')
    (hNames : v.environment = m.names)
    (hMeasured : v.measurements.contains = table.contains)
    (hFits : m.names.StatementFits (.experiment x)) :
    ∃ n, planned.Fits s.HasShape n := by
  rcases hPlans.initialState.hasShape hAgrees hChecked.state hFits with
    ⟨n, rfl, hState⟩
  have hObserved := hValidated.knowsOperators
  have hJumps := hValidated.jumps
  rw [hNames, hMeasured] at hObserved
  rw [hNames] at hJumps
  have hEvolution : ∀ planned', planned.evolution = some planned' →
      planned'.Fits s.HasShape n := by
    intro planned' hPlanned
    have hBoth := hPlans.evolution
    rw [hPlanned] at hBoth
    cases hSome : x.evolution with
    | none =>
        rw [hSome] at hBoth
        cases hBoth
    | some evolution =>
        rw [hSome] at hBoth
        rcases hBoth with ⟨hPlansEvolution⟩
        refine hPlansEvolution.fits hAgrees'
          (hChecked.evolution evolution hSome)
          (hValidated.grid evolution hSome) ?_ ?_
        · exact hObserved _ (Experiment.hamiltonian_mem_observed hSome _)
        · intro term hTerm
          apply hJumps
          exact Experiment.operator_mem_jumpOperators hSome hTerm
  have hTimes : timesOf planned.evolution ≠ [] := by
    cases hPlanned : planned.evolution with
    | none => exact List.cons_ne_nil _ _
    | some planned' =>
        have hAscending := (hEvolution planned' hPlanned).ascending
        rcases exists_cons_of_requireAscending hAscending with
          ⟨first, rest, hCons⟩
        change planned'.times ≠ []
        rw [hCons]
        exact List.cons_ne_nil _ _
  refine ⟨n, hState, hEvolution, fun entry hEntry => ?_⟩
  rcases exists_of_forall₂_right hPlans.schedule entry hEntry with
    ⟨event, hEvent, hPlansEvent⟩
  rw [← timesOf_eq]
  exact hPlansEvent.fits hAgrees' hTable
    (hChecked.schedule event hEvent)
    (fun hOther => hObserved _
      (Experiment.event_mem_observed hEvent hOther)) hTimes

end Lowering

end QuantumLab

------------------------------------------------------------
-- Statements
------------------------------------------------------------

namespace QuantumLab

variable {R : Type} [Arithmetic R]

namespace Lowering

variable
  {s next : Lowering R}
  {scope scope' : Scope}
  {m : Meaning R}
  {d : Statement R}

/- The measurements suit after a statement. -/
theorem Suits.measurements_after
    (hSuits : s.Suits scope m)
    (hChecks : scope.Checks d scope')
    (hFits : m.names.StatementFits d)
    (hAdd : s.addStatement d = .ok next) :
    ∀ name kind ids, next.measurements.find? name = some (kind, ids) →
      next.MeasurementSuits scope' name kind ids := by
  have hAdvances :=
    advances_addStatement hSuits.follows (fun _ => hFits) hAdd
  have hOld : ∀ name kind ids,
      s.measurements.find? name = some (kind, ids) →
        next.MeasurementSuits scope' name kind ids :=
    fun name kind ids hFound =>
      (hSuits.measurements name kind ids hFound).later
        hSuits.typed.aligned hAdvances.grows hChecks
  have hSame : (∀ name, d.measures name = false) →
      ∀ name kind ids, next.measurements.find? name = some (kind, ids) →
        next.MeasurementSuits scope' name kind ids := by
    intro hOther name kind ids hFound
    rw [hAdvances.measurements hOther] at hFound
    exact hOld name kind ids hFound
  cases hChecks with
  | quantity hDefinition _ _ =>
      exact hSame (Statement.measures_of_definition hDefinition)
  | symbol hSymbol _ =>
      exact hSame (Statement.measures_of_declaresSymbol hSymbol)
  | function => exact hSame fun _ => rfl
  | experiment _ => exact hSame fun _ => rfl
  | @measurement declared kind operators shape _ hShape hDeclares =>
      rcases measurements_addMeasurement hSuits.follows hAdd with
        ⟨_, _, _, ids, hTable, hOperators⟩
      have hNew : next.MeasurementSuits scope' declared
          (.ofDefinition kind) ids :=
        measurementSuits_addMeasurement hSuits.agrees hShape hDeclares
          hFits hOperators
      intro name kind' ids' hFound
      rw [hTable, Table.find?_insert] at hFound
      by_cases hName : declared = name
      · rw [if_pos hName] at hFound
        cases Option.some.inj hFound
        rw [← hName]
        exact hNew
      · rw [if_neg hName] at hFound
        exact hOld name kind' ids' hFound

/- The experiments act on one space each after a statement. -/
theorem Suits.experiments_after
    {tolerance : R}
    {v v' : Validator R}
    (hSuits : s.Suits scope m)
    (hCheck : scope.check d = .ok scope')
    (hValidated : Validator.check tolerance v d = .ok v')
    (hNames : v.environment = m.names)
    (hMeasured : v.measurements.contains = s.measurements.contains)
    (hMeasures : ∀ name ∈ Predefined.names, d.measures name = false)
    (hFits : m.names.StatementFits d)
    (hAdd : s.addStatement d = .ok next) :
    ∀ e ∈ next.plan.experiments, ∃ n, e.Fits next.HasShape n := by
  have hAdvances :=
    advances_addStatement hSuits.follows (fun _ => hFits) hAdd
  have hOld : ∀ e ∈ s.plan.experiments, ∃ n,
      e.Fits next.HasShape n := by
    intro e hMember
    rcases hSuits.experiments e hMember with ⟨n, hFitsOld⟩
    exact ⟨n, hFitsOld.imp fun _ _ hShape =>
      hShape.later hSuits.typed.aligned hAdvances.grows⟩
  refine hSuits.follows.forall_experiments (fun _ => hFits) hAdd hOld ?_
  rintro x planned rfl hPlans
  have hChecks := Scope.checks_of_check hSuits.agrees.top hCheck
  have hTable := hSuits.measurements_after hChecks hFits hAdd
  have hAgrees : scope'.Agrees m.names :=
    hSuits.agrees.after hChecks hMeasures hFits
  rcases Scope.admits_of_checkExperiment hCheck with
    ⟨dimension, hChecked⟩
  rcases Validator.admits_of_checkExperiment hValidated with
    ⟨mid, hAdmits⟩
  rw [hAdvances.measurements fun _ => rfl] at hTable
  exact hPlans.fits hSuits.agrees hAgrees hTable hChecked hAdmits
    hNames hMeasured hFits

/- A lowering still suits after a statement that all stages accept. -/
theorem Suits.after
    {tolerance : R}
    {v v' : Validator R}
    (hSuits : s.Suits scope m)
    (hCheck : scope.check d = .ok scope')
    (hValidated : Validator.check tolerance v d = .ok v')
    (hNames : v.environment = m.names)
    (hMeasured : v.measurements.contains = s.measurements.contains)
    (hMeasures : ∀ name ∈ Predefined.names, d.measures name = false)
    (hFits : m.names.StatementFits d)
    (hAdd : s.addStatement d = .ok next) :
    next.Suits scope' (m.after d) := by
  have hChecks := Scope.checks_of_check hSuits.agrees.top hCheck
  have hAdvances :=
    advances_addStatement hSuits.follows (fun _ => hFits) hAdd
  constructor
  · exact hAdvances.follows
  · exact typed_addStatement hSuits.follows hSuits.typed hFits hAdd
  · exact hSuits.agrees.after hChecks hMeasures hFits
  · exact hSuits.measurements_after hChecks hFits hAdd
  · exact hSuits.experiments_after hCheck hValidated hNames hMeasured
      hMeasures hFits hAdd

end Lowering

end QuantumLab

------------------------------------------------------------
-- Programs
------------------------------------------------------------

namespace QuantumLab

variable {R : Type} [Arithmetic R]

namespace Program

/- The lowering of a program suits the shapes of its names. -/
theorem suits_of_walks
    {tolerance : R}
    {program : Program R}
    {scope : Scope}
    {v : Validator R}
    {s : Lowering R}
    (hChecked : program.walk Scope.check .initial = .ok scope)
    (hValidated :
      program.walk (Validator.check tolerance) .initial = .ok v)
    (hLowered : program.walk Lowering.addStatement .initial = .ok s)
    (hMeasures : ∀ name ∈ Predefined.names,
      program.measures name = false)
    (hFits : program.TensorsFit .initial) :
    s.Suits scope program.meaning := by
  induction program using List.reverseRecOn generalizing scope v s with
  | nil =>
      rw [← Except.ok.inj hChecked, ← Except.ok.inj hLowered]
      exact Lowering.suits_initial
  | append_singleton pre d ih =>
      rcases walk_append.1 hChecked with ⟨scope', hScope, hCheck⟩
      rcases walk_append.1 hValidated with ⟨v', hPre, hValid⟩
      rcases walk_append.1 hLowered with ⟨s', hBefore, hAdd⟩
      rcases tensorsFit_append.1 hFits with ⟨hFitsPre, hFitsLast⟩
      have hMeasuresBoth : ∀ name ∈ Predefined.names,
          d.measures name = false ∧
            Program.measures pre name = false := by
        intro name hMember
        rw [← Bool.or_eq_false_iff, ← measures_append]
        exact hMeasures name hMember
      have hSuits := ih hScope hPre hBefore
        (fun name hMember => (hMeasuresBoth name hMember).2) hFitsPre
      have hNames : v'.environment = (Program.meaning pre).names := by
        rw [names_meaning, environment_of_validation hPre]
      have hMeasured :
          v'.measurements.contains = s'.measurements.contains := by
        funext name
        rw [measures_of_validation hPre, measures_of_lowering hBefore]
      have hFitsNames :
          (Program.meaning pre).names.StatementFits d := by
        rw [names_meaning]
        exact hFitsLast
      rw [meaning_append]
      exact hSuits.after (walk_single.1 hCheck) (walk_single.1 hValid)
        hNames hMeasured
        (fun name hMember => (hMeasuresBoth name hMember).1)
        hFitsNames (walk_single.1 hAdd)

/-
  The plan of a program can only fail on its numbers, or
  because the evolution of a closed system does not start
  from a ket.  No operand, state or position is a misfit, and
  no dimensions mismatch.
-/
theorem execution_isLate
    {options : Options R}
    {program : Program R}
    {plan : Plan R}
    {config : BackendConfig}
    {tolerance : R}
    {stop : Plan.ExecutionStop R}
    (hPlan : program.plan options = .ok plan)
    (hMeasures : ∀ name ∈ Predefined.names,
      program.measures name = false)
    (hFits : program.TensorsFit .initial)
    (hBackend : config.backend = .cpuDense)
    (hStop : plan.execute config tolerance = .error stop) :
    stop.fault.IsLate ∧ stop.fault.cause.isMisfit = false ∧
      stop.fault.kind ≠ .dimensionMismatch := by
  rcases stages_of_plan hPlan with ⟨scope, v, s, hPasses⟩
  have hSuits := suits_of_walks hPasses.checked hPasses.validated
    hPasses.lowered hMeasures hFits
  rw [← hPasses.plan_eq] at hStop
  have hLate : stop.fault.IsLate :=
    hSuits.typed.nodes.isLate_of_execute hSuits.experiments hBackend
      hStop
  have hMisfit := hLate.isMisfit_eq_false
  refine ⟨hLate, hMisfit, fun hKind => ?_⟩
  rw [Cause.isMisfit_of_kind hKind] at hMisfit
  cases hMisfit

/- A matrix of real entries. -/
def realMatrix (rows : List (List Float)) : Expr Float :=
  .matrix (rows.map fun row => row.map fun x => .number ⟨x, 0⟩)

/-
  Two spins are coupled by a Kronecker product.  They form a
  closed system, but start from a density matrix.
-/
def coupledSpins : Program Float :=
  [.hamiltonian "coupling" []
      (.binary .tensor (.identifier "sigma_x")
        (.identifier "sigma_x")),
    .experiment
      ⟨"spins", some ⟨.rho, realMatrix
          [[1, 0, 0, 0], [0, 0, 0, 0], [0, 0, 0, 0], [0, 0, 0, 0]]⟩,
        some ⟨"spins", "coupling", .regular 0 1 1, []⟩,
        [⟨1, "coupling"⟩]⟩]

theorem tensorsFit_coupledSpins :
    coupledSpins.TensorsFit .initial := by
  refine ⟨?_, ?_, trivial⟩
  · intro e hMember
    cases List.mem_singleton.1 hMember
    refine ⟨fun v hValue => ?_, trivial, trivial⟩
    have hX : (Environment.initial : Environment Float).resolve
        "sigma_x" = .ok (.matrix Predefined.pauliX) :=
      Environment.resolve_eq_ok_iff.2
        (Environment.lookup_initial "sigma_x")
    have hExpected :
        (Environment.initial : Environment Float).evaluate
            (.binary .tensor (.identifier "sigma_x")
              (.identifier "sigma_x")) =
          .ok (.matrix
            (Predefined.pauliX.kronecker Predefined.pauliX)) := by
      simp [Environment.evaluate, hX, BinaryOp.apply]
    rw [hExpected] at hValue
    rw [← Except.ok.inj hValue]
    exact ⟨by decide, by decide⟩
  · intro e hMember
    cases List.mem_singleton.1 hMember
    exact trivial

/- The only fault left is that the spins do not start from a ket. -/
theorem execution_isLate_coupledSpins :
    ∃ plan stop,
      coupledSpins.plan Options.default = .ok plan ∧
      plan.execute {} Plan.defaultImaginaryTolerance = .error stop ∧
      stop.fault.IsLate ∧ stop.fault.cause.isMisfit = false ∧
      stop.fault.kind ≠ .dimensionMismatch := by
  have hFails : (do
      let plan ← (coupledSpins.plan Options.default).toOption
      guard ((plan.execute {}
        Plan.defaultImaginaryTolerance).toOption.isNone = true)) =
          some () := by
    decide +kernel
  simp only [Option.bind_eq_bind, Option.bind_eq_some_iff,
    toOption_eq_some_iff, Option.guard_eq_some'] at hFails
  rcases hFails with ⟨plan, hPlan, hNone⟩
  have hMeasures : ∀ name ∈ Predefined.names,
      coupledSpins.measures name = false := by
    decide
  cases hRun :
      plan.execute {} Plan.defaultImaginaryTolerance with
  | ok result =>
      rw [hRun] at hNone
      cases hNone
  | error stop =>
      exact ⟨plan, stop, hPlan, hRun,
        execution_isLate hPlan hMeasures tensorsFit_coupledSpins rfl
          hRun⟩

end Program

end QuantumLab
