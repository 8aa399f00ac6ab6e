import QuantumLab.Document.Plan
import QuantumLab.Proofs.Execution.Experiments
import QuantumLab.Proofs.Execution.Faults
import QuantumLab.Proofs.Execution.History

/-
  This file says which plans verify, and that the experiments
  of these never refer to what is not there when they run.

  Key definitions include:
    * `Plan.IsBackward`, `Plan.Refers`
    * `PlannedMeasurement.IsProper`
    * `Plan.WellFormed`
    * `Cause.isStructural`

  Main statements:
    * `Plan.verify_eq_ok_iff` says which plans verify.
    * `Plan.WellFormed.runExperiment_meets` says that the
      experiments of a well-formed plan find all they refer
      to.
    * `Plan.verify_excludes_structural_faults` says both, and
      that the plans of documents verify.
-/

------------------------------------------------------------
-- Well-formed plans
------------------------------------------------------------

namespace QuantumLab

variable {R : Type}

/- The number of points in time of an experiment. -/
def PlannedExperiment.points (e : PlannedExperiment R) : Nat :=
  match e.evolution with
  | some evolution => evolution.times.length
  | none => 1

/-
  A measurement at one of a number of points, with operators;
  an observable has one.
-/
structure PlannedMeasurement.IsProper
    (points : Nat)
    (m : PlannedMeasurement) : Prop where
  inside : m.timeIndex < points
  nonempty : m.operators ≠ []
  single : m.kind = .observable → m.operators.length = 1

namespace Plan

/- The operands of every node come before it. -/
def IsBackward (plan : Plan R) : Prop :=
  ∀ id operation, plan.operation? id = some operation →
    ∀ operand ∈ operation.operands, operand < id

/- The nodes that an experiment refers to are there. -/
structure Refers
    (plan : Plan R)
    (e : PlannedExperiment R) : Prop where
  initialState : e.initialState < plan.size
  hamiltonian : ∀ evolution, e.evolution = some evolution →
    evolution.hamiltonian < plan.size
  jumps : ∀ evolution, e.evolution = some evolution →
    ∀ jump ∈ evolution.jumps, jump.operator < plan.size
  operators : ∀ m ∈ e.measurements, ∀ id ∈ m.operators,
    id < plan.size

/-
  Nothing in a plan refers to what is not there or comes
  later, and every measurement can be made.
-/
structure WellFormed (plan : Plan R) : Prop where
  backward : plan.IsBackward
  refers : ∀ e ∈ plan.experiments, plan.Refers e
  proper : ∀ e ∈ plan.experiments, ∀ m ∈ e.measurements,
    m.IsProper e.points

end Plan

end QuantumLab

------------------------------------------------------------
-- Plans that verify
------------------------------------------------------------

namespace QuantumLab

variable {R : Type} {plan : Plan R}

namespace Plan

/- The listed nodes are the operations with their positions. -/
theorem mem_nodeList_iff
    {node : Node R} :
    node ∈ plan.nodeList ↔
      plan.operation? node.id = some node.operation := by
  rw [nodeList, List.mem_map, operation?, ← Array.getElem?_toList]
  constructor
  · rintro ⟨⟨operation, id⟩, hMember, rfl⟩
    exact List.mk_mem_zipIdx_iff_getElem?.1 hMember
  · intro hOperation
    exact ⟨(node.operation, node.id),
      List.mk_mem_zipIdx_iff_getElem?.2 hOperation, rfl⟩

theorem requireBackward_eq_ok_iff
    {node : Node R} :
    requireBackward node = .ok () ↔
      ∀ operand ∈ node.operation.operands, operand < node.id := by
  unfold requireBackward
  cases hFound : node.operation.operands.find?
      (fun id => node.id ≤ id) with
  | none => simpa using hFound
  | some operand =>
      have hLater : node.id ≤ operand := by
        simpa using List.find?_some hFound
      have hOperand := List.mem_of_find?_eq_some hFound
      constructor
      · intro hPasses
        cases hPasses
      · intro hBackward
        exact absurd (hBackward operand hOperand) (Nat.not_lt.2 hLater)

theorem requireNode_eq_ok_iff
    {id : NodeId}
    {cause : Cause R} :
    plan.requireNode id cause = .ok () ↔ id < plan.size := by
  unfold requireNode
  rw [ite_refuse_eq_ok_iff]
  exact and_iff_left rfl

theorem requireEvolution_eq_ok_iff
    {experiment : String}
    {evolution : PlannedEvolution R} :
    plan.requireEvolution experiment evolution = .ok () ↔
      evolution.hamiltonian < plan.size ∧
        ∀ jump ∈ evolution.jumps, jump.operator < plan.size := by
  unfold requireEvolution
  rw [unit_bind_eq_ok_iff, forM_eq_ok_iff, requireNode_eq_ok_iff]
  simp only [requireNode_eq_ok_iff]

theorem requireMeasurement_eq_ok_iff
    {experiment : String}
    {points : Nat}
    {m : PlannedMeasurement} :
    plan.requireMeasurement experiment points m = .ok () ↔
      m.IsProper points ∧ ∀ id ∈ m.operators, id < plan.size := by
  have hSingle :
      ¬ (m.kind = .observable ∧ m.operators.length ≠ 1) ↔
        (m.kind = .observable → m.operators.length = 1) := by
    rw [not_and, not_not]
  unfold requireMeasurement
  simp only [ite_refuse_bind_eq_ok_iff, forM_eq_ok_iff,
    requireNode_eq_ok_iff, Nat.not_le, List.isEmpty_iff, hSingle]
  constructor
  · rintro ⟨hInside, hNonempty, hSingle, hOperators⟩
    exact ⟨⟨hInside, hNonempty, hSingle⟩, hOperators⟩
  · rintro ⟨⟨hInside, hNonempty, hSingle⟩, hOperators⟩
    exact ⟨hInside, hNonempty, hSingle, hOperators⟩

theorem requireExperiment_eq_ok_iff
    {e : PlannedExperiment R} :
    plan.requireExperiment e = .ok () ↔
      plan.Refers e ∧ ∀ m ∈ e.measurements, m.IsProper e.points := by
  have hMeasurements : ∀ points,
      e.measurements.forM (plan.requireMeasurement e.name points) =
          .ok () ↔
        (∀ m ∈ e.measurements, m.IsProper points) ∧
          ∀ m ∈ e.measurements, ∀ id ∈ m.operators,
            id < plan.size := by
    intro points
    simp only [forM_eq_ok_iff, requireMeasurement_eq_ok_iff]
    exact forall₂_and
  unfold requireExperiment
  rw [unit_bind_eq_ok_iff, requireNode_eq_ok_iff]
  cases hEvolution : e.evolution with
  | none =>
      have hPoints : e.points = 1 := by
        rw [PlannedExperiment.points, hEvolution]
      simp only [hMeasurements, hPoints]
      constructor
      · rintro ⟨hInitial, hProper, hOperators⟩
        refine ⟨⟨hInitial, ?_, ?_, hOperators⟩, hProper⟩
        · simp [hEvolution]
        · simp [hEvolution]
      · rintro ⟨hRefers, hProper⟩
        exact ⟨hRefers.initialState, hProper, hRefers.operators⟩
  | some evolution =>
      have hPoints : e.points = evolution.times.length := by
        rw [PlannedExperiment.points, hEvolution]
      simp only [unit_bind_eq_ok_iff, requireEvolution_eq_ok_iff,
        hMeasurements, hPoints]
      constructor
      · rintro ⟨hInitial, ⟨hHamiltonian, hJumps⟩, hProper, hOperators⟩
        refine ⟨⟨hInitial, ?_, ?_, hOperators⟩, hProper⟩
        · simpa [hEvolution] using hHamiltonian
        · simpa [hEvolution] using hJumps
      · rintro ⟨hRefers, hProper⟩
        exact ⟨hRefers.initialState,
          ⟨hRefers.hamiltonian _ hEvolution, hRefers.jumps _ hEvolution⟩,
          hProper, hRefers.operators⟩

/- A plan verifies if and only if it is well formed. -/
theorem verify_eq_ok_iff :
    plan.verify = .ok () ↔ plan.WellFormed := by
  unfold verify
  simp only [unit_bind_eq_ok_iff, forM_eq_ok_iff,
    requireBackward_eq_ok_iff, requireExperiment_eq_ok_iff]
  constructor
  · rintro ⟨hBackward, hExperiments⟩
    constructor
    · intro id operation hOperation
      exact hBackward ⟨id, operation⟩ (mem_nodeList_iff.2 hOperation)
    · exact fun e hMember => (hExperiments e hMember).1
    · exact fun e hMember => (hExperiments e hMember).2
  · intro hPlan
    constructor
    · intro node hMember
      exact hPlan.backward _ _ (mem_nodeList_iff.1 hMember)
    · intro e hMember
      exact ⟨hPlan.refers e hMember, hPlan.proper e hMember⟩

end Plan

end QuantumLab

------------------------------------------------------------
-- Lengths of trajectories
------------------------------------------------------------

namespace QuantumLab

variable {R : Type} [Arithmetic R]

namespace Unitary

theorem length_ketsAfter
    {h : Mat R}
    {ket : Vec R}
    {first : R}
    {rest : List R}
    {kets : List (Vec R)}
    (hKets : ketsAfter h ket (first :: rest) = .ok kets) :
    kets.length = rest.length := by
  induction rest generalizing first ket kets with
  | nil =>
      cases hKets
      rfl
  | cons second rest ih =>
      unfold ketsAfter at hKets
      rcases bind_eq_ok_iff.1 hKets with ⟨u, _, hNext⟩
      rcases bind_eq_ok_iff.1 hNext with ⟨next, _, hLater⟩
      rcases bind_eq_ok_iff.1 hLater with ⟨later, hAfter, hCons⟩
      cases pure_eq_ok_iff.1 hCons
      rw [List.length_cons, List.length_cons, ih hAfter]

/- An evolution that succeeds has a ket for each time. -/
theorem length_evolve
    {h : Mat R}
    {ket : Vec R}
    {times : List R}
    {kets : List (Vec R)}
    (hKets : evolve h ket times = .ok kets) :
    kets.length = times.length := by
  unfold evolve at hKets
  rcases unit_bind_eq_ok_iff.1 hKets with ⟨hAscending, hRest⟩
  rcases unit_bind_eq_ok_iff.1 hRest with ⟨_, hRest⟩
  rcases bind_eq_ok_iff.1 hRest with ⟨later, hLater, hCons⟩
  rcases exists_cons_of_requireAscending hAscending with
    ⟨first, rest, rfl⟩
  cases pure_eq_ok_iff.1 hCons
  rw [List.length_cons, List.length_cons, length_ketsAfter hLater]

end Unitary

/- An integration that succeeds has a state for each time. -/
theorem Lindblad.length_integrate
    {system : Lindblad R}
    {rho : Mat R}
    {times : List R}
    {states : List (Mat R)}
    (hStates : system.integrate rho times = .ok states) :
    states.length = times.length := by
  unfold integrate at hStates
  rcases unit_bind_eq_ok_iff.1 hStates with ⟨hAscending, hRest⟩
  rcases unit_bind_eq_ok_iff.1 hRest with ⟨_, hCons⟩
  rcases exists_cons_of_requireAscending hAscending with
    ⟨first, rest, rfl⟩
  cases pure_eq_ok_iff.1 hCons
  rw [List.length_cons, List.length_cons, length_statesAfter]

theorem Plan.length_timesOf
    (e : PlannedExperiment R) :
    (timesOf e).length = e.points := by
  unfold timesOf PlannedExperiment.points
  cases e.evolution with
  | none => rfl
  | some evolution => rfl

end QuantumLab

------------------------------------------------------------
-- Structural faults
------------------------------------------------------------

namespace QuantumLab

variable {R : Type}

/-
  Whether a plan or an experiment refers to what is not
  there, or a measurement cannot be made.
-/
def Cause.isStructural : Cause R → Bool
  | .missingInitialState _ => true
  | .missingNode _ => true
  | .unallocatedOperand _ _ _ => true
  | .timeIndexOutside _ _ _ => true
  | .noOperators _ => true
  | .observableOperators _ _ => true
  | _ => false

/- A fault of what refers to what is not there. -/
abbrev Fault.IsStructural (fault : Fault R) : Prop :=
  fault.cause.isStructural = true

/- Computations on values do not refer to anything. -/
theorem Fault.Arises.not_isStructural
    {node : NodeId}
    {fault : Fault R}
    (hArises : fault.Arises node) :
    ¬ fault.IsStructural := by
  rcases fault with ⟨cause, origin⟩
  have hOperational : cause.isOperational = true := hArises.operational
  show ¬ cause.isStructural = true
  cases cause with
  | mismatch expected actual subject => exact Bool.false_ne_true
  | exponentialOf gap skewGap => exact Bool.false_ne_true
  | unsettledExponential => exact Bool.false_ne_true
  | emptyTimeGrid => exact Bool.false_ne_true
  | unorderedTimeGrid step difference => exact Bool.false_ne_true
  | operandKind node operand expected actual =>
      exact Bool.false_ne_true
  | addedKinds node lhs rhs => exact Bool.false_ne_true
  | combinedKinds node lhs rhs => exact Bool.false_ne_true
  | _ => cases hOperational

variable [Arithmetic R] {plan : Plan R}

namespace Plan

/- Where operands come first, the evaluation of a node finds them all. -/
theorem IsBackward.evaluate_meets
    {id : NodeId}
    (hBackward : plan.IsBackward)
    (hInside : id < plan.size) :
    Session.Meets (Memo.Valid plan) (fun _ => True)
      (fun fault => ¬ fault.IsStructural)
      (plan.evaluate id) := by
  refine (plan.evaluate_meets id).weaken (fun _ _ => trivial) ?_
  intro fault hFailure
  cases hFailure with
  | missing hOutside => exact absurd hInside (Nat.not_lt.2 hOutside)
  | forward _ hOperation hOperand hLater =>
      exact absurd (hBackward _ _ hOperation _ hOperand)
        (Nat.not_lt.2 hLater)
  | @compute node operation fault _ _ hOperands hFault =>
      have hOperates :
          Operates node (operation.compute plan.denote node) :=
        Operation.operates_compute fun operand hOperand =>
          (hOperands operand hOperand).2
      rw [hFault] at hOperates
      exact hOperates.not_isStructural

/- A computation on values, inside of an experiment. -/
theorem meets_of_operates
    (plan : Plan R)
    {α : Type}
    {P : α → Prop}
    {x : Except (Fault R) α}
    (hOperates : ∀ node, Operates node x)
    (hResult : ∀ a, x = .ok a → P a) :
    Session.Meets (Memo.Valid plan) P
      (fun fault => ¬ fault.IsStructural)
      (Session.lift x) := by
  have hEnds : Ends (fun _ => True)
      (fun fault : Fault R => ¬ fault.IsStructural) x :=
    (hOperates 0).imp_error fun _ hArises => hArises.not_isStructural
  exact Session.Meets.lift (hEnds.of_result hResult)

theorem IsBackward.evaluateMatrix_meets
    {id : NodeId}
    (hBackward : plan.IsBackward)
    (hInside : id < plan.size) :
    Session.Meets (Memo.Valid plan) (fun _ => True)
      (fun fault => ¬ fault.IsStructural)
      (plan.evaluateMatrix id) := by
  refine (hBackward.evaluate_meets hInside).bind fun value _ => ?_
  cases value with
  | matrix a => exact Session.Meets.pure trivial
  | scalar z => exact Session.Meets.lift Bool.false_ne_true
  | vector v => exact Session.Meets.lift Bool.false_ne_true

end Plan

end QuantumLab

------------------------------------------------------------
-- Experiments
------------------------------------------------------------

namespace QuantumLab

variable
  {R : Type}
  [Arithmetic R]
  {plan : Plan R}
  {e : PlannedExperiment R}

namespace Plan

/- An evolution has a state for each of its times. -/
theorem IsBackward.evolve_meets
    {evolution : PlannedEvolution R}
    (hBackward : plan.IsBackward)
    (hHamiltonian : evolution.hamiltonian < plan.size)
    (hJumps : ∀ jump ∈ evolution.jumps, jump.operator < plan.size)
    (initial : Value R)
    (rho : Mat R) :
    Session.Meets (Memo.Valid plan)
      (fun trajectory : StateType × List (Mat R) =>
        trajectory.2.length = evolution.times.length)
      (fun fault => ¬ fault.IsStructural)
      (plan.evolve e evolution initial rho) := by
  refine (hBackward.evaluateMatrix_meets hHamiltonian).bind
    fun h _ => ?_
  cases evolution.method with
  | schrodinger =>
      cases initial with
      | vector ket =>
          have hKets := plan.meets_of_operates
            (fun _ => Unitary.operates_evolve h ket evolution.times)
            fun kets hKets => Unitary.length_evolve hKets
          refine hKets.bind fun kets hLength => Session.Meets.pure ?_
          rw [List.length_map, hLength]
      | scalar z => exact Session.Meets.fail Bool.false_ne_true
      | matrix a => exact Session.Meets.fail Bool.false_ne_true
  | lindblad =>
      have hChannels : Session.Meets (Memo.Valid plan) (fun _ => True)
          (fun fault => ¬ fault.IsStructural)
          (plan.evaluateChannels evolution.jumps) :=
        Session.Meets.mapM_trivial fun jump hMember =>
          (hBackward.evaluateMatrix_meets (hJumps jump hMember)).bind
            fun _ _ => Session.Meets.pure trivial
      refine hChannels.bind fun channels _ => ?_
      have hStates := plan.meets_of_operates
        (fun _ => Lindblad.operates_integrate ⟨h, channels⟩ rho
          evolution.times)
        fun states hStates => Lindblad.length_integrate hStates
      exact hStates.bind fun states hLength => Session.Meets.pure hLength

/- An experiment has a state for each of its points. -/
theorem IsBackward.states_meets
    (hBackward : plan.IsBackward)
    (hRefers : plan.Refers e) :
    Session.Meets (Memo.Valid plan)
      (fun trajectory : StateType × List (Mat R) =>
        trajectory.2.length = e.points)
      (fun fault => ¬ fault.IsStructural)
      (plan.states e) := by
  refine (hBackward.evaluate_meets hRefers.initialState).bind
    fun initial _ => ?_
  unfold PlannedExperiment.points
  cases densityOf? initial with
  | none => exact Session.Meets.fail Bool.false_ne_true
  | some rho =>
      cases hEvolution : e.evolution with
      | none => exact Session.Meets.pure rfl
      | some evolution =>
          exact hBackward.evolve_meets
            (hRefers.hamiltonian evolution hEvolution)
            (hRefers.jumps evolution hEvolution) initial rho

omit [Arithmetic R] in
/- A proper measurement can be made on a trajectory of its length. -/
theorem exists_requireMeasurable
    {m : PlannedMeasurement}
    {times : List R}
    {states : List (Mat R)}
    (hProper : m.IsProper times.length)
    (hLength : states.length = times.length) :
    ∃ point, requireMeasurable m times states = .ok point := by
  have hTime := List.getElem?_eq_getElem hProper.inside
  have hInside : m.timeIndex < states.length := by
    rw [hLength]
    exact hProper.inside
  have hState := List.getElem?_eq_getElem hInside
  have hNonempty : ¬ m.operators.isEmpty = true := by
    rw [List.isEmpty_iff]
    exact hProper.nonempty
  have hSingle :
      ¬ (m.kind = .observable ∧ m.operators.length ≠ 1) := by
    rintro ⟨hKind, hCount⟩
    exact hCount (hProper.single hKind)
  refine ⟨(times[m.timeIndex], states[m.timeIndex]), ?_⟩
  unfold requireMeasurable
  rw [hTime, hState]
  simp only [if_neg hNonempty, if_neg hSingle]

theorem realExpectation_meets
    (tolerance : R)
    (name : String)
    (a rho : Mat R) :
    Session.Meets (Memo.Valid plan) (fun _ => True)
      (fun fault => ¬ fault.IsStructural)
      (Session.lift (realExpectation tolerance name a rho)) := by
  have hExpectation : Ends (fun _ => True)
      (fun fault : Fault R => ¬ fault.IsStructural)
      (Guarded.expectation a rho) :=
    (Guarded.offGrid_expectation a rho).imp_error
      fun _ (hArises : Fault.ArisesOffGrid 0 _) =>
        hArises.not_isStructural
  refine Session.Meets.lift (hExpectation.bind fun z _ => ?_)
  change Ends _ _ (if _ then _ else _)
  split
  · exact Bool.false_ne_true
  · exact trivial

/- A proper measurement finds its state and its operators. -/
theorem IsBackward.measure_meets
    {m : PlannedMeasurement}
    {times : List R}
    {states : List (Mat R)}
    (hBackward : plan.IsBackward)
    (hProper : m.IsProper times.length)
    (hOperators : ∀ id ∈ m.operators, id < plan.size)
    (hLength : states.length = times.length)
    (tolerance : R) :
    Session.Meets (Memo.Valid plan) (fun _ => True)
      (fun fault => ¬ fault.IsStructural)
      (plan.measure tolerance times states m) := by
  rcases exists_requireMeasurable hProper hLength with ⟨point, hPoint⟩
  have hMeasurable : Session.Meets (Memo.Valid plan) (fun _ => True)
      (fun fault => ¬ fault.IsStructural)
      (Session.lift (requireMeasurable m times states)) :=
    Session.Meets.lift (.of_ok hPoint trivial)
  refine hMeasurable.bind fun point _ => ?_
  have hMatrices := Session.Meets.mapM_trivial fun id hMember =>
    hBackward.evaluateMatrix_meets (hOperators id hMember)
  refine hMatrices.bind fun operators _ => ?_
  have hProbabilities := plan.meets_of_operates
    (fun _ => (Guarded.offGrid_probabilities operators point.2).operates)
    fun _ _ => trivial
  split
  · next a rest _ =>
    exact (realExpectation_meets tolerance m.name a point.2).bind
      fun _ _ => Session.Meets.pure trivial
  · exact hProbabilities.bind fun _ _ => Session.Meets.pure trivial

/- The experiments of a well-formed plan find all they refer to. -/
theorem WellFormed.runExperiment_meets
    (hPlan : plan.WellFormed)
    (hMember : e ∈ plan.experiments)
    (tolerance : R) :
    Session.Meets (Memo.Valid plan) (fun _ => True)
      (fun fault => ¬ fault.IsStructural)
      (plan.runExperiment tolerance e) := by
  have hRefers := hPlan.refers e hMember
  unfold runExperiment
  rw [if_neg (Nat.not_le.2 hRefers.initialState)]
  refine (hPlan.backward.states_meets hRefers).bind
    fun trajectory hLength => ?_
  have hEach : ∀ m ∈ e.measurements,
      Session.Meets (Memo.Valid plan) (fun _ => True)
        (fun fault => ¬ fault.IsStructural)
        (plan.measure tolerance (timesOf e) trajectory.2 m) := by
    intro m hMeasurement
    rw [← length_timesOf e] at hLength
    have hProper : m.IsProper (timesOf e).length := by
      rw [length_timesOf]
      exact hPlan.proper e hMember m hMeasurement
    exact hPlan.backward.measure_meets hProper
      (hRefers.operators m hMeasurement) hLength tolerance
  have hOutcomes := Session.Meets.mapM_trivial hEach
  exact hOutcomes.bind fun _ _ => Session.Meets.pure trivial

/-
  A plan verifies if and only if the operands of its nodes
  come first, everything that its experiments refer to is
  there, and every measurement can be made at its point of
  the grid.  The plans read from documents verify.  After any
  evaluations and experiments on a plan that verifies, none
  of its experiments fails for want of something that it
  refers to.
-/
theorem verify_excludes_structural_faults :
    (∀ plan : Plan R, plan.verify = .ok () ↔ plan.WellFormed) ∧
    (∀ text plan, Plan.parse text = .ok plan →
      plan.verify = .ok ()) ∧
    ∀ plan : Plan R, plan.verify = .ok () →
      ∀ memo, plan.Reachable memo →
        ∀ tolerance, ∀ e ∈ plan.experiments, ∀ fault,
          ((plan.runExperiment tolerance e).run memo).1 =
              .error fault →
            ¬ fault.IsStructural := by
  refine ⟨fun plan => verify_eq_ok_iff, ?_, ?_⟩
  · intro text plan hParsed
    rcases bind_eq_ok_iff.1 hParsed with ⟨read, _, hRest⟩
    rcases unit_bind_eq_ok_iff.1 hRest with ⟨hVerified, hSame⟩
    rw [← pure_eq_ok_iff.1 hSame]
    exact hVerified
  · intro plan hVerified memo hReachable tolerance e hMember fault hFault
    have hPlan := verify_eq_ok_iff.1 hVerified
    have hRun := hPlan.runExperiment_meets hMember tolerance memo
      hReachable.valid
    rw [hFault] at hRun
    exact hRun.2

/-
  A plan that verifies, although the Hamiltonian of its
  experiment is a scalar.
-/
def scalarHamiltonian : Plan Float where
  nodes := #[
    .loadVector "up" ⟨#[Scalar.one, Scalar.zero]⟩,
    .scalar "half" ⟨0.5, 0⟩,
    .loadMatrix "identity" (Mat.identity 2)]
  experiments := [⟨"decay", 0,
    some ⟨.lindblad, 1, [⟨2, 0.25⟩], [0.0, 1.0]⟩,
    [⟨"total", 1, .observable, [2]⟩]⟩]

/-
  The experiment on a scalar Hamiltonian fails, but not for
  want of a node, and the document of the plan without nodes
  is read as a plan that verifies.
-/
theorem verify_excludes_structural_faults_scalarHamiltonian :
    scalarHamiltonian.WellFormed ∧
    (∃ text, Plan.parse text = .ok .empty ∧
      Plan.verify (.empty : Plan Float) = .ok ()) ∧
    ∃ e ∈ scalarHamiltonian.experiments, ∃ fault,
      ((scalarHamiltonian.runExperiment 0 e).run
          ((scalarHamiltonian.evaluate 2).run
            (.initial scalarHamiltonian)).2).1 = .error fault ∧
        ¬ fault.IsStructural := by
  rcases verify_excludes_structural_faults (R := Float) with
    ⟨hIff, hParsed, hRuns⟩
  have hVerified : scalarHamiltonian.verify = .ok () := rfl
  have hEmpty : Plan.parse "\x7b\"nodes\":[]\x7d" = .ok .empty := by
    decide +kernel
  refine ⟨(hIff _).1 hVerified, ⟨_, hEmpty, hParsed _ _ hEmpty⟩,
    _, List.mem_cons_self, _, rfl, ?_⟩
  exact hRuns _ hVerified _ (.evaluate 2 .initial) 0 _
    List.mem_cons_self _ rfl

end Plan

end QuantumLab
