import Mathlib.Logic.Relation
import QuantumLab.Proofs.Execution.Verification
import QuantumLab.Proofs.Lowering.Statements

/-
  This file takes lowerings apart into elementary steps, and
  says what every one of these steps keeps true: nothing
  refers to a node that is not there yet.

  Key definitions include:
    * `Lowering.Step`, `Lowering.Runs`
    * `Lowering.WellPlaced`
    * `Lowering.Places`

  Main statements:
    * `Lowering.WellPlaced.step` says what a step keeps true,
      and `Lowering.WellPlaced.runs` what any number of steps
      do.
    * `Lowering.Lowers.places` says that an expression is
      lowered in steps, to a node that is there.
    * `Lowering.runs_addStatement` and `Lowering.runs_of_walk`
      say that statements and programs are lowered in steps.
-/

------------------------------------------------------------
-- Steps
------------------------------------------------------------

namespace QuantumLab

variable {R : Type}

namespace Lowering

/-
  A change of the state of a lowering.  Nodes, names,
  measurements and experiments are only added with the nodes
  that they refer to.
-/
inductive Step (s : Lowering R) : Lowering R → Prop where
  | emit
      {operation : Operation R}
      (shape : Shape)
      (hOperands : ∀ operand ∈ operation.operands,
        operand < s.plan.size) :
      Step s (s.emit operation shape).2
  | bind
      (name : String)
      {id : NodeId}
      (hInside : id < s.plan.size) :
      Step s (s.bind name id)
  | declareSymbolic
      (name : String) :
      Step s (s.declareSymbolic name)
  | define
      (name : String)
      (value : Value R) :
      Step s (s.define name value)
  | measurement
      (name : String)
      (kind : MeasurementKind)
      {ids : List NodeId}
      (hInside : ∀ id ∈ ids, id < s.plan.size) :
      Step s { s with
        measurements := s.measurements.insert name
          (OutcomeKind.ofDefinition kind, ids) }
  | experiment
      {planned : PlannedExperiment R}
      (hRefers : s.plan.Refers planned)
      (hSingle : ∀ m ∈ planned.measurements, m.kind = .observable →
        m.operators.length = 1) :
      Step s { s with plan := s.plan.addExperiment planned }

/- The states on the way from one state to another. -/
abbrev Runs : Lowering R → Lowering R → Prop :=
  Relation.ReflTransGen Step

/-
  Each node has a shape and comes after its operands, and
  names, measurements and experiments refer to nodes that
  are there.  Only experiments have observables, each of one
  operator.
-/
structure WellPlaced (s : Lowering R) : Prop where
  aligned : s.Aligned
  backward : s.plan.IsBackward
  symbols : ∀ name id, s.symbols.find? name = some id →
    id < s.plan.size
  measurements : ∀ name kind ids,
    s.measurements.find? name = some (kind, ids) →
      kind ≠ .observable ∧ ∀ id ∈ ids, id < s.plan.size
  refers : ∀ e ∈ s.plan.experiments, s.plan.Refers e
  single : ∀ e ∈ s.plan.experiments, ∀ m ∈ e.measurements,
    m.kind = .observable → m.operators.length = 1

theorem Step.size_le
    {s later : Lowering R}
    (hStep : s.Step later) :
    s.plan.size ≤ later.plan.size := by
  cases hStep with
  | @emit operation shape _ =>
      exact (s.appends_emit operation shape).size_le
  | bind name _ => exact Nat.le_refl _
  | declareSymbolic name => exact Nat.le_refl _
  | define name value => exact Nat.le_refl _
  | measurement name kind _ => exact Nat.le_refl _
  | experiment _ _ => exact Nat.le_refl _

theorem Runs.size_le
    {s later : Lowering R}
    (hRuns : s.Runs later) :
    s.plan.size ≤ later.plan.size := by
  induction hRuns with
  | refl => exact Nat.le_refl _
  | tail _ hStep ih => exact ih.trans hStep.size_le

end Lowering

/- Experiments refer to nodes that are still there later. -/
theorem Plan.Refers.mono
    {plan later : Plan R}
    {e : PlannedExperiment R}
    (hRefers : plan.Refers e)
    (hSize : plan.size ≤ later.size) :
    later.Refers e where
  initialState := hRefers.initialState.trans_le hSize
  hamiltonian evolution hSome :=
    (hRefers.hamiltonian evolution hSome).trans_le hSize
  jumps evolution hSome jump hJump :=
    (hRefers.jumps evolution hSome jump hJump).trans_le hSize
  operators m hMember id hOperator :=
    (hRefers.operators m hMember id hOperator).trans_le hSize

/- A node may be added after its operands. -/
theorem Plan.IsBackward.addNode
    {plan : Plan R}
    {operation : Operation R}
    (hBackward : plan.IsBackward)
    (hOperands : ∀ operand ∈ operation.operands,
      operand < plan.size) :
    (plan.addNode operation).IsBackward := by
  intro id found hFound operand hOperand
  rw [operation?, Plan.addNode, Array.getElem?_push] at hFound
  by_cases hLast : id = plan.nodes.size
  · rw [if_pos hLast] at hFound
    rw [← Option.some.inj hFound] at hOperand
    rw [hLast]
    exact hOperands operand hOperand
  · rw [if_neg hLast] at hFound
    exact hBackward id found hFound operand hOperand

end QuantumLab

------------------------------------------------------------
-- What steps keep true
------------------------------------------------------------

namespace QuantumLab

variable {R : Type} {s later : Lowering R}

namespace Lowering

theorem wellPlaced_initial
    [Arithmetic R] :
    (initial : Lowering R).WellPlaced where
  aligned := rfl
  backward id operation hOperation := by
    cases hOperation
  symbols name id hSymbol := by
    cases hSymbol
  measurements name kind ids hFound := by
    cases hFound
  refers e hMember := by
    cases hMember
  single e hMember := by
    cases hMember

/- More nodes leave everything where it is. -/
theorem WellPlaced.emit
    {operation : Operation R}
    (hPlaced : s.WellPlaced)
    (hOperands : ∀ operand ∈ operation.operands,
      operand < s.plan.size)
    (shape : Shape) :
    (s.emit operation shape).2.WellPlaced := by
  have hSize := (s.appends_emit operation shape).size_le
  constructor
  · exact hPlaced.aligned.emit operation shape
  · exact hPlaced.backward.addNode hOperands
  · exact fun name id hSymbol =>
      (hPlaced.symbols name id hSymbol).trans_le hSize
  · intro name kind ids hFound
    rcases hPlaced.measurements name kind ids hFound with
      ⟨hKind, hInside⟩
    exact ⟨hKind, fun id hMember => (hInside id hMember).trans_le hSize⟩
  · exact fun e hMember => (hPlaced.refers e hMember).mono hSize
  · exact hPlaced.single

theorem WellPlaced.bind
    {id : NodeId}
    (hPlaced : s.WellPlaced)
    (hInside : id < s.plan.size)
    (name : String) :
    (s.bind name id).WellPlaced := by
  refine { hPlaced with symbols := fun other k hFound => ?_ }
  rw [Lowering.bind, Table.find?_insert] at hFound
  by_cases hSame : name = other
  · rw [if_pos hSame] at hFound
    exact Option.some.inj hFound ▸ hInside
  · rw [if_neg hSame] at hFound
    exact hPlaced.symbols other k hFound

theorem WellPlaced.declareSymbolic
    (hPlaced : s.WellPlaced)
    (name : String) :
    (s.declareSymbolic name).WellPlaced := by
  refine { hPlaced with symbols := fun other k hFound => ?_ }
  rw [Lowering.declareSymbolic, Table.find?_erase] at hFound
  by_cases hSame : name = other
  · rw [if_pos hSame] at hFound
    cases hFound
  · rw [if_neg hSame] at hFound
    exact hPlaced.symbols other k hFound

theorem WellPlaced.measurement
    {ids : List NodeId}
    (hPlaced : s.WellPlaced)
    (hInside : ∀ id ∈ ids, id < s.plan.size)
    (name : String)
    (kind : MeasurementKind) :
    WellPlaced { s with
      measurements := s.measurements.insert name
        (OutcomeKind.ofDefinition kind, ids) } := by
  refine { hPlaced with
    measurements := fun other kind' ids' hFound => ?_ }
  simp only at hFound
  rw [Table.find?_insert] at hFound
  by_cases hSame : name = other
  · rw [if_pos hSame] at hFound
    cases hFound
    refine ⟨?_, hInside⟩
    cases kind with
    | projective => exact OutcomeKind.noConfusion
    | povm => exact OutcomeKind.noConfusion
  · rw [if_neg hSame] at hFound
    exact hPlaced.measurements other kind' ids' hFound

theorem WellPlaced.experiment
    {planned : PlannedExperiment R}
    (hPlaced : s.WellPlaced)
    (hRefers : s.plan.Refers planned)
    (hSingle : ∀ m ∈ planned.measurements, m.kind = .observable →
      m.operators.length = 1) :
    WellPlaced { s with plan := s.plan.addExperiment planned } := by
  have hSize : s.plan.size ≤ (s.plan.addExperiment planned).size :=
    Nat.le_refl _
  refine { hPlaced with refers := ?_, single := ?_ }
  · intro e hMember
    rcases List.mem_append.1 hMember with hOld | hNew
    · exact (hPlaced.refers e hOld).mono hSize
    · rw [List.mem_singleton.1 hNew]
      exact hRefers.mono hSize
  · intro e hMember
    rcases List.mem_append.1 hMember with hOld | hNew
    · exact hPlaced.single e hOld
    · rw [List.mem_singleton.1 hNew]
      exact hSingle

/- A step keeps everything in its place. -/
theorem WellPlaced.step
    (hPlaced : s.WellPlaced)
    (hStep : s.Step later) :
    later.WellPlaced := by
  cases hStep with
  | emit shape hOperands => exact hPlaced.emit hOperands shape
  | bind name hInside => exact hPlaced.bind hInside name
  | declareSymbolic name => exact hPlaced.declareSymbolic name
  | define name value => exact { hPlaced with }
  | measurement name kind hInside =>
      exact hPlaced.measurement hInside name kind
  | experiment hRefers hSingle =>
      exact hPlaced.experiment hRefers hSingle

/- Any number of steps keep everything in its place. -/
theorem WellPlaced.runs
    (hPlaced : s.WellPlaced)
    (hRuns : s.Runs later) :
    later.WellPlaced := by
  induction hRuns with
  | refl => exact hPlaced
  | tail _ hStep ih => exact ih.step hStep

end Lowering

end QuantumLab

------------------------------------------------------------
-- Expressions
------------------------------------------------------------

namespace QuantumLab

variable {R : Type} {s later last : Lowering R} {id : NodeId}

namespace Lowering

/- Steps that lead to a node. -/
structure Places
    (s : Lowering R)
    (id : NodeId)
    (later : Lowering R) : Prop where
  runs : s.Runs later
  inside : id < later.plan.size

theorem Places.trans
    {k : NodeId}
    (hFirst : s.Places k later)
    (hSecond : later.Places id last) :
    s.Places id last where
  runs := hFirst.runs.trans hSecond.runs
  inside := hSecond.inside

/- A node stays where it is. -/
theorem Places.lt_size
    (hPlaces : s.Places id later)
    (hRuns : later.Runs last) :
    id < last.plan.size :=
  hPlaces.inside.trans_le (Runs.size_le hRuns)

theorem places_emit
    {operation : Operation R}
    (hOperands : ∀ operand ∈ operation.operands,
      operand < s.plan.size)
    (shape : Shape) :
    s.Places (s.emit operation shape).1 (s.emit operation shape).2 where
  runs := .single (.emit shape hOperands)
  inside := by
    rw [emit_fst, size_emit]
    exact Nat.lt_succ_self _

theorem places_emitConstant
    (s : Lowering R)
    (name : String)
    (value : Value R) :
    s.Places (s.emitConstant name value).1
      (s.emitConstant name value).2 := by
  refine places_emit ?_ value.shape
  intro operand hOperand
  cases value with
  | scalar z => exact absurd hOperand List.not_mem_nil
  | vector v => exact absurd hOperand List.not_mem_nil
  | matrix a => exact absurd hOperand List.not_mem_nil

theorem places_emit_one
    {k : NodeId}
    (operation : Operation R)
    (hOperands : operation.operands = [k])
    (hInside : k < s.plan.size)
    (shape : Shape) :
    s.Places (s.emit operation shape).1
      (s.emit operation shape).2 := by
  refine places_emit (fun operand hOperand => ?_) shape
  rw [hOperands, List.mem_singleton] at hOperand
  exact hOperand ▸ hInside

theorem places_emit_two
    {l r : NodeId}
    (operation : Operation R)
    (hOperands : operation.operands = [l, r])
    (hLeft : l < s.plan.size)
    (hRight : r < s.plan.size)
    (shape : Shape) :
    s.Places (s.emit operation shape).1
      (s.emit operation shape).2 := by
  refine places_emit ?_ shape
  rw [hOperands]
  simpa using ⟨hLeft, hRight⟩

variable [Arithmetic R]

/- A name is resolved to a node that is there. -/
theorem places_resolve
    {name : String}
    (hPlaced : s.WellPlaced)
    (hResolve : s.resolve name = .ok (id, later)) :
    s.Places id later := by
  unfold resolve at hResolve
  cases hSymbol : s.symbols.find? name with
  | some k =>
      rw [hSymbol] at hResolve
      cases hResolve
      exact ⟨.refl, hPlaced.symbols name id hSymbol⟩
  | none =>
      simp only [hSymbol] at hResolve
      split at hResolve
      · exact absurd hResolve refuse_ne_ok
      · split at hResolve
        · next a _ =>
          cases hResolve
          have hConstant := s.places_emitConstant name (.matrix a)
          exact ⟨hConstant.runs.tail (.bind name hConstant.inside),
            hConstant.inside⟩
        · exact absurd hResolve refuse_ne_ok

omit [Arithmetic R] in
theorem places_emitQuotient
    (hInside : id < s.plan.size)
    (factor : Scalar R) :
    s.Places (s.emitQuotient factor id).1
      (s.emitQuotient factor id).2 := by
  have hFactor := s.places_emitConstant "" (.scalar factor)
  have hOperand := hInside.trans_le (Runs.size_le hFactor.runs)
  exact hFactor.trans
    (places_emit_two _ rfl hFactor.inside hOperand _)

/- Operations on two nodes take one step or a few. -/
theorem places_emitBinary
    {l r : NodeId}
    (hLeft : l < s.plan.size)
    (hRight : r < s.plan.size)
    (op : BinaryOp) :
    s.Places (s.emitBinary op l r).1 (s.emitBinary op l r).2 := by
  cases op with
  | add => exact places_emit_two _ rfl hLeft hRight _
  | divide => exact places_emit_two _ rfl hLeft hRight _
  | power => exact places_emit_two _ rfl hLeft hRight _
  | commutator => exact places_emit_two _ rfl hLeft hRight _
  | tensor => exact places_emit_two _ rfl hLeft hRight _
  | multiply =>
      change s.Places (s.emitProduct l r).1 (s.emitProduct l r).2
      unfold emitProduct
      simp only
      split
      · exact places_emit_two _ rfl hLeft hRight _
      · split
        · exact places_emit_two _ rfl hRight hLeft _
        · split
          · exact places_emit_two _ rfl hLeft hRight _
          · exact places_emit_two _ rfl hLeft hRight _
  | subtract =>
      have hMinusOne := s.places_emitConstant ""
        (.scalar (Scalar.ofReal (-(1.0 : R))))
      have hRight' := hRight.trans_le (Runs.size_le hMinusOne.runs)
      have hNegated := hMinusOne.trans
        (places_emit_two (.scalarMul _ r) rfl
          hMinusOne.inside hRight' (s.shapeOf r))
      have hLeft' := hLeft.trans_le (Runs.size_le hNegated.runs)
      exact hNegated.trans
        (places_emit_two _ rfl hLeft' hNegated.inside (s.shapeOf l))
  | anticommutator =>
      have hForth := places_emit_two (.matrixMul l r) rfl
        hLeft hRight (s.shapeOf l)
      have hSize := Runs.size_le hForth.runs
      have hBack := places_emit_two (.matrixMul r l) rfl
        (hRight.trans_le hSize) (hLeft.trans_le hSize) (s.shapeOf l)
      have hForth' := hForth.lt_size hBack.runs
      exact (hForth.trans hBack).trans
        (places_emit_two _ rfl hForth' hBack.inside (s.shapeOf l))

omit [Arithmetic R] in
theorem places_emitUnary
    (hInside : id < s.plan.size)
    (op : UnaryOp) :
    s.Places (s.emitUnary op id).1 (s.emitUnary op id).2 := by
  cases op with
  | dagger => exact places_emit_one _ rfl hInside _
  | trace => exact places_emit_one _ rfl hInside _
  | _ => exact places_emit_one _ rfl hInside _

/- An expression is lowered in steps, to a node that is there. -/
theorem Lowers.places
    {e : Expr R}
    (hLowers : Lowers s e id later)
    (hPlaced : s.WellPlaced) :
    s.Places id later := by
  induction hLowers with
  | @constant s _ value _ _ => exact s.places_emitConstant "" value
  | name hResolve => exact places_resolve hPlaced hResolve
  | quotient _ _ _ ih =>
      have hDividend := ih hPlaced
      exact hDividend.trans (places_emitQuotient hDividend.inside _)
  | @binary _ _ _ op _ _ _ _ _ _ _ _ ihL ihR =>
      have hLeft := ihL hPlaced
      have hRight := ihR (hPlaced.runs hLeft.runs)
      exact (hLeft.trans hRight).trans
        (places_emitBinary (hLeft.lt_size hRight.runs) hRight.inside op)
  | @unary _ _ op _ _ _ _ _ ih =>
      have hOperand := ih hPlaced
      exact hOperand.trans (places_emitUnary hOperand.inside op)
  | @scalarExponential _ later _ _ z _ _ _ ih =>
      exact (ih hPlaced).trans (later.places_emitConstant "" (.scalar z))

end Lowering

end QuantumLab

------------------------------------------------------------
-- Measurements and experiments
------------------------------------------------------------

namespace QuantumLab

variable {R : Type} [Arithmetic R] {s later : Lowering R}

namespace Lowering

/- A measurement gets a node for each of its operators. -/
theorem runs_emitOperators
    {name : String}
    {k : Nat}
    {operators : List (Expr R)}
    {ids : List NodeId}
    (hEmit : s.emitOperators name k operators = .ok (ids, later)) :
    s.Runs later ∧ ∀ id ∈ ids, id < later.plan.size := by
  induction operators generalizing s k ids with
  | nil =>
      cases hEmit
      exact ⟨.refl, nofun⟩
  | cons operator rest ih =>
      rcases bind_eq_ok_iff.1 hEmit with ⟨value, _, hRest⟩
      rcases bind_eq_ok_iff.1 hRest with ⟨⟨others, last⟩, hTail, hDone⟩
      cases pure_eq_ok_iff.1 hDone
      have hHead := s.places_emitConstant (operatorName name k) value
      rcases ih hTail with ⟨hRuns, hInside⟩
      refine ⟨hHead.runs.trans hRuns, ?_⟩
      exact List.forall_mem_cons.2 ⟨hHead.lt_size hRuns, hInside⟩

theorem places_lowerInitialState
    {x : Experiment R}
    {id : NodeId}
    (hLower : s.lowerInitialState x = .ok (id, later)) :
    s.Places id later := by
  rcases value_of_lowerInitialState hLower with
    ⟨_, value, name, _, _, _, hEmit⟩
  have hConstant := s.places_emitConstant name value
  rw [hEmit] at hConstant
  exact hConstant

theorem runs_lowerTerms
    {terms : List (LindbladTerm R)}
    {jumps : List (Jump R)}
    (hPlaced : s.WellPlaced)
    (hLower : s.lowerTerms terms = .ok (jumps, later)) :
    s.Runs later ∧ ∀ jump ∈ jumps, jump.operator < later.plan.size := by
  induction terms generalizing s jumps with
  | nil =>
      cases hLower
      exact ⟨.refl, nofun⟩
  | cons term rest ih =>
      rcases bind_eq_ok_iff.1 hLower with
        ⟨⟨operator, first⟩, hResolve, hRest⟩
      have hOperator := places_resolve hPlaced hResolve
      simp only at hRest
      split at hRest
      · rcases bind_eq_ok_iff.1 hRest with
          ⟨⟨others, last⟩, hTail, hDone⟩
        cases pure_eq_ok_iff.1 hDone
        rcases ih (hPlaced.runs hOperator.runs) hTail with
          ⟨hRuns, hInside⟩
        refine ⟨hOperator.runs.trans hRuns, ?_⟩
        exact List.forall_mem_cons.2
          ⟨hOperator.lt_size hRuns, hInside⟩
      · split at hRest
        · exact absurd hRest refuse_ne_ok
        · cases hRest

theorem runs_lowerEvolution
    {evolution : Option (Evolution R)}
    {planned : Option (PlannedEvolution R)}
    (hPlaced : s.WellPlaced)
    (hLower : s.lowerEvolution evolution = .ok (planned, later)) :
    s.Runs later ∧ ∀ plannedEvolution, planned = some plannedEvolution →
      plannedEvolution.hamiltonian < later.plan.size ∧
        ∀ jump ∈ plannedEvolution.jumps,
          jump.operator < later.plan.size := by
  cases evolution with
  | none =>
      cases hLower
      exact ⟨.refl, nofun⟩
  | some evolution =>
      rcases bind_eq_ok_iff.1 hLower with
        ⟨⟨hamiltonian, first⟩, hResolve, hRest⟩
      rcases bind_eq_ok_iff.1 hRest with ⟨⟨jumps, last⟩, hTerms, hDone⟩
      cases pure_eq_ok_iff.1 hDone
      have hHamiltonian := places_resolve hPlaced hResolve
      rcases runs_lowerTerms (hPlaced.runs hHamiltonian.runs) hTerms with
        ⟨hRuns, hJumps⟩
      refine ⟨hHamiltonian.runs.trans hRuns, ?_⟩
      rintro _ ⟨⟩
      exact ⟨hHamiltonian.lt_size hRuns, hJumps⟩

/- The operators of a planned measurement are there. -/
theorem runs_lowerEvent
    {times : List R}
    {event : Event R}
    {planned : PlannedMeasurement}
    (hPlaced : s.WellPlaced)
    (hLower : s.lowerEvent times event = .ok (planned, later)) :
    s.Runs later ∧ (∀ id ∈ planned.operators, id < later.plan.size) ∧
      (planned.kind = .observable → planned.operators.length = 1) := by
  unfold lowerEvent at hLower
  cases hFound : s.measurements.find? event.measurement with
  | some entry =>
      rcases entry with ⟨kind, operators⟩
      rw [hFound] at hLower
      cases hLower
      rcases hPlaced.measurements _ _ _ hFound with ⟨hKind, hInside⟩
      exact ⟨.refl, hInside, fun hSame => absurd hSame hKind⟩
  | none =>
      simp only [hFound] at hLower
      rcases bind_eq_ok_iff.1 hLower with
        ⟨⟨operator, last⟩, hResolve, hDone⟩
      cases pure_eq_ok_iff.1 hDone
      have hOperator := places_resolve hPlaced hResolve
      refine ⟨hOperator.runs, ?_, fun _ => rfl⟩
      exact List.forall_mem_singleton.2 hOperator.inside

theorem runs_lowerSchedule
    {times : List R}
    {schedule : List (Event R)}
    {planned : List PlannedMeasurement}
    (hPlaced : s.WellPlaced)
    (hLower : s.lowerSchedule times schedule = .ok (planned, later)) :
    s.Runs later ∧
      (∀ m ∈ planned, ∀ id ∈ m.operators, id < later.plan.size) ∧
      ∀ m ∈ planned, m.kind = .observable →
        m.operators.length = 1 := by
  induction schedule generalizing s planned with
  | nil =>
      cases hLower
      exact ⟨.refl, nofun, nofun⟩
  | cons event rest ih =>
      rcases bind_eq_ok_iff.1 hLower with ⟨⟨first, mid⟩, hEvent, hRest⟩
      rcases bind_eq_ok_iff.1 hRest with ⟨⟨others, last⟩, hTail, hDone⟩
      cases pure_eq_ok_iff.1 hDone
      rcases runs_lowerEvent hPlaced hEvent with
        ⟨hMid, hFirst, hSingle⟩
      rcases ih (hPlaced.runs hMid) hTail with
        ⟨hLast, hOthers, hSingles⟩
      refine ⟨hMid.trans hLast, List.forall_mem_cons.2 ⟨?_, hOthers⟩,
        List.forall_mem_cons.2 ⟨hSingle, hSingles⟩⟩
      exact fun id hMember =>
        (hFirst id hMember).trans_le (Runs.size_le hLast)

/- An experiment is planned over nodes that are there. -/
theorem runs_addExperiment
    {x : Experiment R}
    {next : Lowering R}
    (hPlaced : s.WellPlaced)
    (hAdd : s.addExperiment x = .ok next) :
    s.Runs next := by
  rcases bind_eq_ok_iff.1 hAdd with ⟨⟨id, first⟩, hState, hRest⟩
  rcases bind_eq_ok_iff.1 hRest with
    ⟨⟨evolution, second⟩, hEvolution, hRest⟩
  rcases bind_eq_ok_iff.1 hRest with
    ⟨⟨measurements, last⟩, hSchedule, hDone⟩
  have hInitial := places_lowerInitialState hState
  have hFirst := hPlaced.runs hInitial.runs
  rcases runs_lowerEvolution hFirst hEvolution with
    ⟨hSecond, hEvolutions⟩
  rcases runs_lowerSchedule (hFirst.runs hSecond) hSchedule with
    ⟨hLast, hOperators, hSingle⟩
  have hSize := Runs.size_le hLast
  have hRefers : last.plan.Refers
      ⟨x.name, id, evolution, measurements⟩ := by
    refine ⟨hInitial.lt_size (hSecond.trans hLast), ?_, ?_, hOperators⟩
    · exact fun planned hSome =>
        (hEvolutions planned hSome).1.trans_le hSize
    · exact fun planned hSome jump hJump =>
        ((hEvolutions planned hSome).2 jump hJump).trans_le hSize
  rw [← pure_eq_ok_iff.1 hDone]
  exact ((hInitial.runs.trans hSecond).trans hLast).tail
    (.experiment hRefers hSingle)

------------------------------------------------------------
-- Statements and programs
------------------------------------------------------------

/- Every statement is lowered in steps. -/
theorem runs_addStatement
    {d : Statement R}
    {next : Lowering R}
    (hPlaced : s.WellPlaced)
    (hAdd : s.addStatement d = .ok next) :
    s.Runs next := by
  cases adds_of_addStatement hAdd with
  | symbol _ _ => exact .single (.declareSymbolic d.name)
  | undefined _ _ => exact .single (.declareSymbolic d.name)
  | @loaded _ e value _ _ _ =>
      have hDefine : s.Step (s.define d.name value) := .define _ _
      have hConstant :=
        (s.define d.name value).places_emitConstant d.name value
      exact (Relation.ReflTransGen.head hDefine hConstant.runs).tail
        (.bind d.name hConstant.inside)
  | @lowered _ e value id later _ _ _ hLower =>
      have hDefine : s.Step (s.define d.name value) := .define _ _
      have hPlaces :=
        (lowers_of_lower hLower).places (hPlaced.step hDefine)
      exact (Relation.ReflTransGen.head hDefine hPlaces.runs).tail
        (.bind d.name hPlaces.inside)
  | @measurement name kind operators _ hMeasurement =>
      rcases bind_eq_ok_iff.1 hMeasurement with
        ⟨⟨ids, last⟩, hEmit, hDone⟩
      rcases runs_emitOperators hEmit with ⟨hRuns, hInside⟩
      rw [← pure_eq_ok_iff.1 hDone]
      exact hRuns.tail (.measurement name kind hInside)
  | experiment hExperiment => exact runs_addExperiment hPlaced hExperiment

/- Every program is lowered in steps. -/
theorem runs_of_walk
    {program : Program R}
    (hPlaced : s.WellPlaced)
    (hWalk : program.walk addStatement s = .ok later) :
    s.Runs later := by
  induction program generalizing s with
  | nil =>
      cases hWalk
      exact .refl
  | cons d rest ih =>
      rcases Program.walk_cons.1 hWalk with ⟨next, hAdd, hRest⟩
      have hRuns := runs_addStatement hPlaced hAdd
      exact hRuns.trans (ih (hPlaced.runs hRuns) hRest)

end Lowering

end QuantumLab
