import QuantumLab.Proofs.Execution.Typing

/-
  This file says how the execution of a typed plan can fail:
  only on the numbers, or because the evolution of a closed
  system does not start from a ket.

  Key definitions include:
    * `Cause.IsLate`
    * `PlannedExperiment.Fits`

  Main statements:
    * `Unitary.ends_evolve` and `Lindblad.integrate_eq_ok`
      say how many states a trajectory has and which shape.
    * `Lindblad.forall_statesAfter` and
      `Lindblad.statesAfter_map` say of trajectories what
      holds of every step.
    * `Plan.Typed.runExperiment_meets` says how an experiment
      on typed nodes can fail.
    * `Plan.Typed.isLate_of_execute` says how the execution
      of a typed plan can fail.
-/

------------------------------------------------------------
-- Trajectories
------------------------------------------------------------

namespace QuantumLab

variable {R : Type} [Arithmetic R]

/- Times that ascend are at least one. -/
theorem exists_cons_of_requireAscending
    {times : List R}
    (hAscending : requireAscending times = .ok ()) :
    ∃ first rest, times = first :: rest := by
  cases times with
  | nil => exact absurd hAscending refuse_ne_ok
  | cons first rest => exact ⟨first, rest, rfl⟩

namespace Unitary

/- There is a ket of the same space for each time after the first. -/
theorem ends_ketsAfter
    {h : Mat R}
    {n : Nat}
    (hShape : h.shape = .matrix n n)
    {first : R}
    {rest : List R}
    {ket : Vec R}
    (hKet : ket.size = n) :
    Ends
      (fun kets : List (Vec R) =>
        kets.length = rest.length ∧ ∀ ket ∈ kets, ket.size = n)
      Fault.IsNumeric
      (ketsAfter h ket (first :: rest)) := by
  have hExtents : h.rows = n ∧ h.cols = n := Shape.matrix.inj hShape
  induction rest generalizing first ket with
  | nil => exact ⟨rfl, fun _ hMember => absurd hMember List.not_mem_nil⟩
  | cons second rest ih =>
      have hSquare : h.rows = h.cols :=
        hExtents.1.trans hExtents.2.symm
      refine (Guarded.ends_propagator hSquare _).bind fun u hU => ?_
      have hU : u.rows = n ∧ u.cols = n :=
        Shape.matrix.inj (hU.trans hShape)
      have hNext := Guarded.vectorProduct_eq_ok_iff.2
        ⟨hU.2.trans hKet.symm, rfl⟩
      rw [hNext, ok_bind]
      have hSize : (u.mulVec ket).size = n := by
        rw [Mat.size_mulVec, hU.1]
      refine (ih hSize).bind fun kets hKets => ?_
      constructor
      · rw [List.length_cons, List.length_cons, hKets.1]
      · intro other hOther
        rcases List.mem_cons.1 hOther with rfl | hLater
        · exact hSize
        · exact hKets.2 other hLater

/- There is a ket of the same space for each time. -/
theorem ends_evolve
    {h : Mat R}
    {n : Nat}
    {ket : Vec R}
    {times : List R}
    (hShape : h.shape = .matrix n n)
    (hKet : ket.size = n)
    (hAscending : requireAscending times = .ok ()) :
    Ends
      (fun kets : List (Vec R) =>
        kets.length = times.length ∧ ∀ ket ∈ kets, ket.size = n)
      Fault.IsNumeric
      (evolve h ket times) := by
  rcases exists_cons_of_requireAscending hAscending with
    ⟨first, rest, rfl⟩
  have hExtents : h.rows = n ∧ h.cols = n := Shape.matrix.inj hShape
  have hDimensions : requireDimensions h ket = .ok () := by
    unfold requireDimensions Mat.isSquare
    simp [hExtents.1, hExtents.2, hKet]
  unfold evolve
  rw [hAscending, ok_bind, hDimensions, ok_bind]
  refine (ends_ketsAfter hShape hKet).bind fun kets hKets => ?_
  constructor
  · rw [List.length_cons, List.length_cons, hKets.1]
  · intro other hOther
    rcases List.mem_cons.1 hOther with rfl | hLater
    · exact hKet
    · exact hKets.2 other hLater

end Unitary

namespace Lindblad

theorem shape_step
    (system : Lindblad R)
    (rho : Mat R)
    (dt : R) :
    (system.step rho dt).shape = rho.shape :=
  rfl

/- There is a state of the same shape for each time after the first. -/
theorem length_statesAfter
    (system : Lindblad R)
    (rho : Mat R)
    (first : R)
    (rest : List R) :
    (system.statesAfter rho (first :: rest)).length = rest.length := by
  induction rest generalizing first rho with
  | nil => rfl
  | cons second rest ih =>
      unfold statesAfter
      rw [List.length_cons, List.length_cons, ih]

/- What a step keeps holds of all states after the first. -/
theorem forall_statesAfter
    {system : Lindblad R}
    {rho : Mat R}
    {times : List R}
    {P : Mat R → Prop}
    (hKeeps : ∀ state dt, P state → P (system.step state dt))
    (hFirst : P rho) :
    ∀ state ∈ system.statesAfter rho times, P state := by
  induction times generalizing rho with
  | nil =>
      intro _ hMember
      exact absurd hMember List.not_mem_nil
  | cons first rest ih =>
      cases rest with
      | nil =>
          intro _ hMember
          exact absurd hMember List.not_mem_nil
      | cons second rest =>
          have hNext := hKeeps rho (second - first) hFirst
          rw [statesAfter, List.forall_mem_cons]
          exact ⟨hNext, ih hNext⟩

/-
  Two systems whose steps agree up to a map of the states
  have trajectories that agree up to that map.
-/
theorem statesAfter_map
    {system other : Lindblad R}
    {rho : Mat R}
    {times : List R}
    {P : Mat R → Prop}
    {f : Mat R → Mat R}
    (hKeeps : ∀ state dt, P state → P (system.step state dt))
    (hAgree : ∀ state dt, P state →
      other.step (f state) dt = f (system.step state dt))
    (hFirst : P rho) :
    other.statesAfter (f rho) times =
      (system.statesAfter rho times).map f := by
  induction times generalizing rho with
  | nil => rfl
  | cons first rest ih =>
      cases rest with
      | nil => rfl
      | cons second rest =>
          have hNext := hKeeps rho (second - first) hFirst
          rw [statesAfter, statesAfter, List.map_cons,
            hAgree rho (second - first) hFirst, ih hNext]

theorem shape_statesAfter
    {system : Lindblad R}
    {rho : Mat R}
    {times : List R} :
    ∀ state ∈ system.statesAfter rho times,
      state.shape = rho.shape := by
  apply forall_statesAfter
  · intro state dt hShape
    rw [shape_step, hShape]
  · rfl

omit [Arithmetic R] in
theorem requireChannels_eq_ok_iff
    {system : Lindblad R} :
    system.requireChannels = .ok () ↔
      ∀ channel ∈ system.channels,
        channel.operator.shape = system.hamiltonian.shape := by
  unfold requireChannels
  rw [forM_eq_ok_iff]
  constructor
  · intro hPasses channel hMember
    rw [← List.zipIdx_map_fst 0 system.channels, List.mem_map] at hMember
    rcases hMember with ⟨⟨_, k⟩, hIndexed, rfl⟩
    exact (ite_refuse_eq_ok_iff.1 (hPasses _ hIndexed)).1
  · intro hChannels
    rintro ⟨channel, k⟩ hMember
    exact if_pos (hChannels channel (List.fst_mem_of_mem_zipIdx hMember))

/-
  The matrices that are integrated are square ones of one
  shape.
-/
omit [Arithmetic R] in
theorem requireDimensions_eq_ok_iff
    {system : Lindblad R}
    {rho : Mat R} :
    system.requireDimensions rho = .ok () ↔
      system.hamiltonian.rows = system.hamiltonian.cols ∧
        rho.shape = system.hamiltonian.shape ∧
          ∀ channel ∈ system.channels,
            channel.operator.shape = system.hamiltonian.shape := by
  rw [requireDimensions, unit_bind_eq_ok_iff,
    Guarded.requireSquare_eq_ok_iff, ← requireChannels_eq_ok_iff]
  apply and_congr_right
  intro _
  by_cases hSame : rho.shape = system.hamiltonian.shape
  · rw [if_neg (not_not.2 hSame)]
    exact (and_iff_right hSame).symm
  · rw [if_pos hSame]
    exact iff_of_false refuse_ne_ok fun hBoth => hSame hBoth.1

/- Operators on one space can be integrated, to a state for each time. -/
theorem integrate_eq_ok
    {system : Lindblad R}
    {rho : Mat R}
    {n : Nat}
    {times : List R}
    (hHamiltonian : system.hamiltonian.shape = .matrix n n)
    (hRho : rho.shape = .matrix n n)
    (hChannels : ∀ channel ∈ system.channels,
      channel.operator.shape = .matrix n n)
    (hAscending : requireAscending times = .ok ()) :
    ∃ states, system.integrate rho times = .ok states ∧
      states.length = times.length ∧
        ∀ state ∈ states, state.shape = .matrix n n := by
  rcases exists_cons_of_requireAscending hAscending with
    ⟨first, rest, rfl⟩
  have hExtents := Shape.matrix.inj hHamiltonian
  have hDimensions : system.requireDimensions rho = .ok () := by
    refine requireDimensions_eq_ok_iff.2
      ⟨hExtents.1.trans hExtents.2.symm, hRho.trans hHamiltonian.symm, ?_⟩
    intro channel hMember
    rw [hChannels channel hMember, hHamiltonian]
  refine ⟨rho :: system.statesAfter rho (first :: rest), ?_, ?_, ?_⟩
  · unfold integrate
    rw [hAscending, ok_bind, hDimensions, ok_bind]
    rfl
  · rw [List.length_cons, List.length_cons, length_statesAfter]
  · intro state hMember
    rcases List.mem_cons.1 hMember with rfl | hLater
    · exact hRho
    · rw [shape_statesAfter state hLater, hRho]

end Lindblad

end QuantumLab

------------------------------------------------------------
-- Late faults
------------------------------------------------------------

namespace QuantumLab

variable {R : Type}

/-
  What only shows when a plan is executed: an exponential
  that cannot be computed, a closed system that does not
  start from a ket, or an expectation that is not real.
-/
inductive Cause.IsLate : Cause R → Prop where
  | numeric
      {cause : Cause R} :
      cause.IsNumeric →
      IsLate cause
  | ketRequired (experiment : String) :
      IsLate (.ketRequired experiment)
  | complexExpectation
      (measurement : String)
      (deviation : R)
      (detail : String) :
      IsLate (.violation .hermiticity measurement deviation detail)

/- A fault that only shows when a plan is executed. -/
abbrev Fault.IsLate (fault : Fault R) : Prop :=
  fault.cause.IsLate

/- Whether operands, states or positions do not fit together. -/
def Cause.isMisfit : Cause R → Bool
  | .mismatch _ _ _ => true
  | .missingNode _ => true
  | .unallocatedOperand _ _ _ => true
  | .operandKind _ _ _ _ => true
  | .addedKinds _ _ _ => true
  | .combinedKinds _ _ _ => true
  | .missingInitialState _ => true
  | .scalarInitialState _ => true
  | .timeIndexOutside _ _ _ => true
  | .noOperators _ => true
  | .observableOperators _ _ => true
  | _ => false

/- Nothing that only shows late is a misfit. -/
theorem Cause.IsLate.isMisfit_eq_false
    {cause : Cause R}
    (hLate : cause.IsLate) :
    cause.isMisfit = false := by
  cases hLate with
  | numeric hNumeric =>
      cases hNumeric with
      | unsettled => rfl
      | exponential gap skewGap => rfl
  | ketRequired experiment => rfl
  | complexExpectation measurement deviation detail => rfl

/- Every dimension mismatch is a misfit. -/
theorem Cause.isMisfit_of_kind
    {cause : Cause R}
    (hKind : cause.kind = .dimensionMismatch) :
    cause.isMisfit = true := by
  cases cause with
  | mismatch expected actual subject => rfl
  | _ => cases hKind

end QuantumLab

------------------------------------------------------------
-- Experiments that fit
------------------------------------------------------------

namespace QuantumLab

variable {R : Type}

/-
  An evolution acts on a space of some dimension, over times
  that ascend.  It is over nodes that have shapes.
-/
structure PlannedEvolution.Fits
    [Arithmetic R]
    (has : NodeId → Shape → Prop)
    (n : Nat)
    (evolution : PlannedEvolution R) : Prop where
  ascending : requireAscending evolution.times = .ok ()
  hamiltonian : has evolution.hamiltonian (.matrix n n)
  jumps : ∀ jump ∈ evolution.jumps, has jump.operator (.matrix n n)

/- A measurement acts on a space, at one of a number of points. -/
structure PlannedMeasurement.Fits
    (has : NodeId → Shape → Prop)
    (n points : Nat)
    (m : PlannedMeasurement) : Prop where
  inside : m.timeIndex < points
  nonempty : m.operators.isEmpty = false
  single : m.kind = .observable → m.operators.length = 1
  operators : ∀ id ∈ m.operators, has id (.matrix n n)

/- All parts of an experiment act on one space. -/
structure PlannedExperiment.Fits
    [Arithmetic R]
    (has : NodeId → Shape → Prop)
    (n : Nat)
    (e : PlannedExperiment R) : Prop where
  state :
    has e.initialState (.vector n) ∨ has e.initialState (.matrix n n)
  evolution : ∀ evolution, e.evolution = some evolution →
    evolution.Fits has n
  measurements : ∀ m ∈ e.measurements,
    m.Fits has n (Plan.timesOf e).length

section Imp

variable
  {has has' : NodeId → Shape → Prop}
  {n : Nat}

theorem PlannedMeasurement.Fits.imp
    {points : Nat}
    {m : PlannedMeasurement}
    (hFits : m.Fits has n points)
    (hImp : ∀ id shape, has id shape → has' id shape) :
    m.Fits has' n points where
  inside := hFits.inside
  nonempty := hFits.nonempty
  single := hFits.single
  operators id hMember := hImp _ _ (hFits.operators id hMember)

theorem PlannedEvolution.Fits.imp
    [Arithmetic R]
    {evolution : PlannedEvolution R}
    (hFits : evolution.Fits has n)
    (hImp : ∀ id shape, has id shape → has' id shape) :
    evolution.Fits has' n where
  ascending := hFits.ascending
  hamiltonian := hImp _ _ hFits.hamiltonian
  jumps jump hMember := hImp _ _ (hFits.jumps jump hMember)

/- An experiment still fits when nodes keep their shapes. -/
theorem PlannedExperiment.Fits.imp
    [Arithmetic R]
    {e : PlannedExperiment R}
    (hFits : e.Fits has n)
    (hImp : ∀ id shape, has id shape → has' id shape) :
    e.Fits has' n where
  state := hFits.state.imp (hImp _ _) (hImp _ _)
  evolution evolution hSome := (hFits.evolution evolution hSome).imp hImp
  measurements m hMember := (hFits.measurements m hMember).imp hImp

end Imp

end QuantumLab

------------------------------------------------------------
-- Measurements
------------------------------------------------------------

namespace QuantumLab

variable {R : Type} [Arithmetic R]

omit [Arithmetic R] in
/- A state and an operator on one space. -/
theorem Guarded.requireSameSquare_of_shape
    {n : Nat}
    {a rho : Mat R}
    (hA : a.shape = .matrix n n)
    (hRho : rho.shape = .matrix n n)
    (subject : String) :
    requireSameSquare a rho subject = .ok () := by
  have hExtents := Shape.matrix.inj hA
  exact requireSameSquare_eq_ok_iff.2
    ⟨hExtents.1.trans hExtents.2.symm, hA.trans hRho.symm⟩

/- Operators on the space of a state have probabilities. -/
theorem Guarded.exists_probabilities
    {n : Nat}
    {operators : List (Mat R)}
    {rho : Mat R}
    (hOperators : ∀ a ∈ operators, a.shape = .matrix n n)
    (hRho : rho.shape = .matrix n n) :
    ∃ ps, probabilities operators rho = .ok ps := by
  have hWeights : ∃ weights, operators.mapM (weight rho) =
      .ok weights := by
    induction operators with
    | nil => exact ⟨[], rfl⟩
    | cons a operators ih =>
        rcases ih fun b hMember =>
            hOperators b (List.mem_cons_of_mem a hMember) with
          ⟨weights, hWeights⟩
        have hSame := requireSameSquare_of_shape
          (hOperators a List.mem_cons_self) hRho
          "projective measurement"
        have hWeight : ∃ x, weight rho a = .ok x := by
          unfold weight
          rw [hSame]
          exact ⟨_, rfl⟩
        rcases hWeight with ⟨x, hWeight⟩
        rw [List.mapM_cons, hWeight, hWeights]
        exact ⟨_, rfl⟩
  rcases hWeights with ⟨weights, hWeights⟩
  unfold probabilities
  rw [hWeights]
  exact ⟨_, rfl⟩

namespace Plan

/- An expectation may only fail to be real. -/
theorem ends_realExpectation
    {n : Nat}
    {a rho : Mat R}
    (hA : a.shape = .matrix n n)
    (hRho : rho.shape = .matrix n n)
    (tolerance : R)
    (name : String) :
    Ends (fun _ : R => True) Fault.IsLate
      (realExpectation tolerance name a rho) := by
  have hSame :=
    Guarded.requireSameSquare_of_shape hA hRho "expectation value"
  unfold realExpectation Guarded.expectation
  rw [hSame, ok_bind]
  change Ends _ _ (if _ then _ else _)
  split
  · exact .complexExpectation _ _ _
  · exact trivial

omit [Arithmetic R] in
/- A measurement that fits is made on a state at a time. -/
theorem requireMeasurable_eq_ok
    {has : NodeId → Shape → Prop}
    {n : Nat}
    {m : PlannedMeasurement}
    {times : List R}
    {states : List (Mat R)}
    (hFits : m.Fits has n times.length)
    (hLength : states.length = times.length)
    (hStates : ∀ rho ∈ states, rho.shape = .matrix n n) :
    ∃ time rho, requireMeasurable m times states = .ok (time, rho) ∧
      rho.shape = .matrix n n := by
  have hPoint : m.timeIndex < times.length := hFits.inside
  have hInside : m.timeIndex < states.length := hLength ▸ hPoint
  have hTime := List.getElem?_eq_getElem hPoint
  have hState := List.getElem?_eq_getElem hInside
  refine ⟨times[m.timeIndex], states[m.timeIndex], ?_,
    hStates _ (List.getElem_mem hInside)⟩
  have hSingle :
      ¬ (m.kind = .observable ∧ m.operators.length ≠ 1) := by
    rintro ⟨hKind, hCount⟩
    exact hCount (hFits.single hKind)
  unfold requireMeasurable
  rw [hTime, hState]
  simp only [hFits.nonempty, Bool.false_eq_true, if_false,
    if_neg hSingle]

variable
  {plan : Plan R}
  {shapeOf : NodeId → Shape}
  {n : Nat}

/- The operators of a measurement are matrices on its space. -/
theorem Typed.operators_meet
    {ids : List NodeId}
    (hTyped : plan.Typed shapeOf)
    (hShapes : ∀ id ∈ ids, plan.HasShape shapeOf id (.matrix n n)) :
    Session.Meets (Memo.Valid plan)
      (fun operators => ∀ a ∈ operators, a.shape = .matrix n n)
      Fault.IsLate
      (ids.mapM plan.evaluateMatrix) := by
  have hEach : ∀ id ∈ ids, Session.Meets (Memo.Valid plan)
      (fun a => a.shape = .matrix n n) Fault.IsNumeric
      (plan.evaluateMatrix id) :=
    fun id hMember => hTyped.evaluateMatrix_meets (hShapes id hMember)
  refine (Session.Meets.mapM hEach).weaken ?_ ?_
  · intro operators hOperators a hMember
    rcases exists_of_forall₂_right hOperators a hMember with
      ⟨_, _, hShape⟩
    exact hShape
  · intro _ hNumeric
    exact .numeric hNumeric

/- A measurement that fits may only fail late. -/
theorem Typed.measure_meets
    {m : PlannedMeasurement}
    {times : List R}
    {states : List (Mat R)}
    (hTyped : plan.Typed shapeOf)
    (hFits : m.Fits (plan.HasShape shapeOf) n times.length)
    (hLength : states.length = times.length)
    (hStates : ∀ rho ∈ states, rho.shape = .matrix n n)
    (tolerance : R) :
    Session.Meets (Memo.Valid plan) (fun _ => True) Fault.IsLate
      (plan.measure tolerance times states m) := by
  rcases requireMeasurable_eq_ok hFits hLength hStates with
    ⟨time, rho, hMeasurable, hRho⟩
  have hPoint : Session.Meets (Memo.Valid plan)
      (fun point => point = (time, rho)) Fault.IsLate
      (Session.lift (requireMeasurable m times states)) :=
    Session.Meets.lift (.of_ok hMeasurable rfl)
  refine hPoint.bind fun point hSame => ?_
  subst hSame
  refine (hTyped.operators_meet hFits.operators).bind
    fun operators hOperators => ?_
  rcases Guarded.exists_probabilities hOperators hRho with
    ⟨ps, hProbabilities⟩
  have hWeights : Session.Meets (Memo.Valid plan)
      (fun _ => True) Fault.IsLate
      (Session.lift (Guarded.probabilities operators rho)) :=
    Session.Meets.lift (.of_ok hProbabilities trivial)
  split
  · next a rest _ =>
    have hA : a.shape = .matrix n n := hOperators a List.mem_cons_self
    refine (Session.Meets.lift (ends_realExpectation hA hRho tolerance
      m.name)).bind fun x _ => ?_
    exact Session.Meets.pure trivial
  · exact hWeights.bind fun _ _ => Session.Meets.pure trivial

end Plan

end QuantumLab

------------------------------------------------------------
-- Experiments
------------------------------------------------------------

namespace QuantumLab

variable {R : Type} [Arithmetic R]

namespace Plan

/- A state that is not a scalar has a density matrix. -/
theorem exists_densityOf?
    {n : Nat}
    {initial : Value R}
    (hShape : initial.shape = .vector n ∨ initial.shape = .matrix n n) :
    ∃ rho, densityOf? initial = some rho ∧ rho.shape = .matrix n n := by
  rcases hShape with hVector | hMatrix
  · rcases Value.exists_vector hVector with ⟨ket, rfl, rfl⟩
    exact ⟨_, rfl, rfl⟩
  · rcases Value.exists_matrix hMatrix with ⟨rho, rfl, _⟩
    exact ⟨rho, rfl, hMatrix⟩

/- A trajectory has a state on the space for each of its times. -/
def IsTrajectory
    (n points : Nat)
    (trajectory : StateType × List (Mat R)) : Prop :=
  trajectory.2.length = points ∧
    ∀ rho ∈ trajectory.2, rho.shape = .matrix n n

variable
  {plan : Plan R}
  {shapeOf : NodeId → Shape}
  {n : Nat}
  {e : PlannedExperiment R}

/- The jump operators of an evolution act on its space. -/
theorem Typed.evaluateChannels_meets
    {jumps : List (Jump R)}
    (hTyped : plan.Typed shapeOf)
    (hJumps : ∀ jump ∈ jumps,
      plan.HasShape shapeOf jump.operator (.matrix n n)) :
    Session.Meets (Memo.Valid plan)
      (fun channels : List (Channel R) =>
        ∀ channel ∈ channels, channel.operator.shape = .matrix n n)
      Fault.IsLate
      (plan.evaluateChannels jumps) := by
  have hEach : ∀ jump ∈ jumps, Session.Meets (Memo.Valid plan)
      (fun channel : Channel R => channel.operator.shape = .matrix n n)
      Fault.IsNumeric
      (do
        let operator ← plan.evaluateMatrix jump.operator
        return ⟨operator, jump.rate⟩) := by
    intro jump hMember
    apply (hTyped.evaluateMatrix_meets (hJumps jump hMember)).bind
    intro operator hShape
    exact Session.Meets.pure hShape
  refine (Session.Meets.mapM hEach).weaken ?_ ?_
  · intro channels hChannels channel hMember
    rcases exists_of_forall₂_right hChannels channel hMember with
      ⟨_, _, hShape⟩
    exact hShape
  · intro _ hNumeric
    exact .numeric hNumeric

/- An evolution that fits may only fail late. -/
theorem Typed.evolve_meets
    {evolution : PlannedEvolution R}
    {initial : Value R}
    {rho : Mat R}
    (hTyped : plan.Typed shapeOf)
    (hFits : evolution.Fits (plan.HasShape shapeOf) n)
    (hInitial :
      initial.shape = .vector n ∨ initial.shape = .matrix n n)
    (hRho : rho.shape = .matrix n n) :
    Session.Meets (Memo.Valid plan)
      (IsTrajectory n evolution.times.length) Fault.IsLate
      (plan.evolve e evolution initial rho) := by
  have hHamiltonian := (hTyped.evaluateMatrix_meets
    hFits.hamiltonian).weaken (fun _ hShape => hShape)
      fun _ hNumeric => Cause.IsLate.numeric hNumeric
  refine hHamiltonian.bind fun h hShape => ?_
  cases evolution.method with
  | schrodinger =>
      rcases hInitial with hVector | hMatrix
      · rcases Value.exists_vector hVector with ⟨ket, rfl, hKet⟩
        have hKets : Session.Meets (Memo.Valid plan)
            (fun kets : List (Vec R) =>
              kets.length = evolution.times.length ∧
                ∀ ket ∈ kets, ket.size = n)
            Fault.IsLate
            (Session.lift (Unitary.evolve h ket evolution.times)) :=
          (Session.Meets.lift (Unitary.ends_evolve hShape hKet
            hFits.ascending)).weaken (fun _ hBoth => hBoth)
              fun _ hNumeric => .numeric hNumeric
        refine hKets.bind fun kets hBoth => Session.Meets.pure ?_
        constructor
        · rw [List.length_map, hBoth.1]
        · intro state hState
          rcases List.mem_map.1 hState with ⟨other, hOther, rfl⟩
          rw [Mat.shape_outer, hBoth.2 other hOther]
      · rcases Value.exists_matrix hMatrix with ⟨a, rfl, _⟩
        exact Session.Meets.fail (.ketRequired _)
  | lindblad =>
      refine (hTyped.evaluateChannels_meets hFits.jumps).bind
        fun channels hChannels => ?_
      have hSystem :
          (Lindblad.mk h channels).hamiltonian.shape = .matrix n n :=
        hShape
      rcases Lindblad.integrate_eq_ok hSystem hRho hChannels
          hFits.ascending with
        ⟨states, hStates, hLength, hShapes⟩
      have hIntegral : Session.Meets (Memo.Valid plan)
          (fun result => result = states) Fault.IsLate
          (Session.lift
            ((Lindblad.mk h channels).integrate rho evolution.times)) :=
        Session.Meets.lift (.of_ok hStates rfl)
      refine hIntegral.bind fun result hSame => ?_
      subst hSame
      exact Session.Meets.pure ⟨hLength, hShapes⟩

/- The trajectory of an experiment that fits. -/
theorem Typed.states_meets
    (hTyped : plan.Typed shapeOf)
    (hFits : e.Fits (plan.HasShape shapeOf) n) :
    Session.Meets (Memo.Valid plan)
      (IsTrajectory n (timesOf e).length) Fault.IsLate
      (plan.states e) := by
  have hInitial : Session.Meets (Memo.Valid plan)
      (fun initial =>
        initial.shape = .vector n ∨ initial.shape = .matrix n n)
      Fault.IsLate (plan.evaluate e.initialState) := by
    rcases hFits.state with hVector | hMatrix
    · exact (hTyped.evaluate_meets hVector).weaken
        (fun _ hShape => .inl hShape) fun _ hNumeric => .numeric hNumeric
    · exact (hTyped.evaluate_meets hMatrix).weaken
        (fun _ hShape => .inr hShape) fun _ hNumeric => .numeric hNumeric
  refine hInitial.bind fun initial hShape => ?_
  rcases exists_densityOf? hShape with ⟨rho, hDensity, hRho⟩
  rw [hDensity]
  unfold timesOf
  cases hEvolution : e.evolution with
  | none =>
      refine Session.Meets.pure ⟨rfl, ?_⟩
      intro state hMember
      rw [List.mem_singleton.1 hMember]
      exact hRho
  | some evolution =>
      exact hTyped.evolve_meets (hFits.evolution evolution hEvolution)
        hShape hRho

/- An experiment that fits may only fail late. -/
theorem Typed.runExperiment_meets
    (hTyped : plan.Typed shapeOf)
    (hFits : e.Fits (plan.HasShape shapeOf) n)
    (tolerance : R) :
    Session.Meets (Memo.Valid plan) (fun _ => True) Fault.IsLate
      (plan.runExperiment tolerance e) := by
  have hInside : ¬ plan.size ≤ e.initialState := by
    rcases hFits.state with hVector | hMatrix
    · exact Nat.not_le.2 hVector.inside
    · exact Nat.not_le.2 hMatrix.inside
  unfold runExperiment
  rw [if_neg hInside]
  refine (hTyped.states_meets hFits).bind fun trajectory hStates => ?_
  have hEach : ∀ m ∈ e.measurements, Session.Meets (Memo.Valid plan)
      (fun _ : Outcome R => True) Fault.IsLate
      (plan.measure tolerance (timesOf e) trajectory.2 m) :=
    fun m hMember => hTyped.measure_meets
      (hFits.measurements m hMember) hStates.1 hStates.2 tolerance
  have hOutcomes := Session.Meets.mapM hEach
  exact hOutcomes.bind fun _ _ => Session.Meets.pure trivial

/- Experiments that fit may only fail late, one after another. -/
theorem Typed.ends_runAll
    {experiments : List (PlannedExperiment R)}
    {memo : Memo R}
    (hTyped : plan.Typed shapeOf)
    (hFits : ∀ e ∈ experiments, ∃ n,
      e.Fits (plan.HasShape shapeOf) n)
    (hValid : memo.Valid plan)
    (tolerance : R) :
    Ends (fun _ => True) (fun stop => stop.fault.IsLate)
      (plan.runAll tolerance memo experiments) := by
  induction experiments generalizing memo with
  | nil => exact trivial
  | cons e rest ih =>
      rcases hFits e List.mem_cons_self with ⟨n, hFirst⟩
      have hRun := hTyped.runExperiment_meets hFirst tolerance memo hValid
      unfold runAll
      rcases hResult :
        (plan.runExperiment tolerance e).run memo with ⟨result, later⟩
      rw [hResult] at hRun
      cases result with
      | error fault => exact hRun.2
      | ok result =>
          refine (ih ?_ hRun.1).bind fun _ _ => trivial
          intro other hMember
          exact hFits other (List.mem_cons_of_mem e hMember)

/- The execution of a typed plan may only fail late. -/
theorem Typed.isLate_of_execute
    {config : BackendConfig}
    {tolerance : R}
    {stop : ExecutionStop R}
    (hTyped : plan.Typed shapeOf)
    (hFits : ∀ e ∈ plan.experiments, ∃ n,
      e.Fits (plan.HasShape shapeOf) n)
    (hBackend : config.backend = .cpuDense)
    (hStop : plan.execute config tolerance = .error stop) :
    stop.fault.IsLate := by
  have hRun := hTyped.ends_runAll hFits (Memo.valid_initial plan)
    tolerance
  unfold execute at hStop
  rw [hBackend] at hStop
  rcases bind_eq_error_iff.1 hStop with hFault | ⟨_, _, hDone⟩
  · rw [hFault] at hRun
    exact hRun
  · exact absurd hDone pure_ne_error

end Plan

end QuantumLab
