import QuantumLab.Evolution.Unitary
import QuantumLab.Plan.Compute
import QuantumLab.Plan.Result

/-
  This file executes plans.  A node is computed when a value
  needs it, at most once, and its value is kept also when a
  later computation fails.

  Key definitions include:
    * `Memo`
    * `Worklist`
    * `Plan.pending`
    * `Session`
    * `Plan.evaluate`
    * `Plan.runExperiment`
    * `Plan.execute`
-/

namespace QuantumLab

open Arithmetic

------------------------------------------------------------
-- Values kept
------------------------------------------------------------

/-
  The values of the nodes computed so far, and their number.
-/
structure Memo (R : Type) where
  values : Array (Option (Value R))
  computed : Nat
deriving DecidableEq, Repr

namespace Memo

variable {R : Type}

/- The memo before any computation. -/
def initial (plan : Plan R) : Memo R :=
  ⟨Array.replicate plan.size none, 0⟩

/- The value of a node, if it is computed. -/
def find? (memo : Memo R) (id : NodeId) : Option (Value R) :=
  memo.values[id]?.join

/- The value of a node that is computed. -/
def fetch (memo : Memo R) (id : NodeId) : Except (Fault R) (Value R) :=
  match memo.find? id with
  | some value => .ok value
  | none => .error ⟨.missingNode id, some id⟩

/- The memo with the value of one more node. -/
def store (memo : Memo R) (id : NodeId) (value : Value R) : Memo R :=
  ⟨memo.values.setIfInBounds id (some value), memo.computed + 1⟩

end Memo

------------------------------------------------------------
-- Nodes to compute
------------------------------------------------------------

/-
  The nodes that a computation needs: those to look at, the
  next one first, and marks on all that were ever put there.
-/
structure Worklist where
  waiting : List NodeId
  marked : Array Bool
deriving DecidableEq, Repr

namespace Worklist

/- Whether a node was put on the list. -/
def isMarked (w : Worklist) (id : NodeId) : Bool :=
  w.marked[id]?.getD false

/- The list with one more node to look at next. -/
def put (w : Worklist) (id : NodeId) : Worklist :=
  ⟨id :: w.waiting, w.marked.setIfInBounds id true⟩

/- The list with one node, out of a number of them. -/
def single (size : Nat) (id : NodeId) : Worklist :=
  Worklist.put ⟨[], Array.replicate size false⟩ id

/- The marked nodes, in ascending order. -/
def nodes (w : Worklist) : List NodeId :=
  (List.range w.marked.size).filter w.isMarked

variable {R : Type}

/-
  The list with the operands of a node that are not computed
  yet.  An operand has to come before the node.
-/
def putOperands
    (memo : Memo R)
    (word : String)
    (node : NodeId)
    (w : Worklist) : List NodeId → Except (Fault R) Worklist
  | [] => .ok w
  | operand :: rest =>
      if node ≤ operand then
        .error ⟨.unallocatedOperand word node operand, some node⟩
      else if w.isMarked operand || (memo.find? operand).isSome then
        putOperands memo word node w rest
      else
        putOperands memo word node (w.put operand) rest

/-
  The list when no node is left to look at.  Each node is
  looked at once, so the number of nodes is enough `fuel`.
-/
def exhaust
    (plan : Plan R)
    (memo : Memo R) :
    (fuel : Nat) → Worklist → Except (Fault R) Worklist
  | 0, w => .ok w
  | fuel + 1, w =>
      match w.waiting with
      | [] => .ok w
      | node :: rest =>
          match plan.operation? node with
          | none => .error ⟨.missingNode node, some node⟩
          | some operation => do
              let w ← putOperands memo operation.word node
                { w with waiting := rest } operation.operands
              exhaust plan memo fuel w

end Worklist

namespace Plan

/- The nodes to compute for the value of a node, operands before users. -/
def pending
    {R : Type}
    (plan : Plan R)
    (memo : Memo R)
    (id : NodeId) : Except (Fault R) (List NodeId) := do
  let w ← Worklist.exhaust plan memo plan.size
    (Worklist.single plan.size id)
  return w.nodes

end Plan

------------------------------------------------------------
-- Sessions
------------------------------------------------------------

/-
  A computation on the values kept so far.  They stay when
  it fails.
-/
abbrev Session (R : Type) :=
  ExceptT (Fault R) (StateM (Memo R))

namespace Session

variable {R α : Type}

/- A computation that does not look at the values kept. -/
def lift (result : Except (Fault R) α) : Session R α :=
  ExceptT.mk (pure result)

/- A failure. -/
def fail (fault : Fault R) : Session R α :=
  lift (.error fault)

end Session

namespace Plan

variable {R : Type} [Arithmetic R]

/- Computes a node whose operands are computed. -/
def computeNode (plan : Plan R) (id : NodeId) : Session R Unit := do
  let memo ← get
  match plan.operation? id with
  | none => Session.fail ⟨.missingNode id, some id⟩
  | some operation =>
      match operation.compute memo.fetch id with
      | .ok value => set (memo.store id value)
      | .error fault => Session.fail (fault.atNode id)

/- The value of a node. -/
def evaluate (plan : Plan R) (id : NodeId) : Session R (Value R) := do
  if plan.size ≤ id then
    Session.fail ⟨.missingNode id, some id⟩
  else
    let memo ← get
    match memo.find? id with
    | some value => return value
    | none =>
        let pending ← Session.lift (plan.pending memo id)
        pending.forM plan.computeNode
        let memo ← get
        Session.lift (memo.fetch id)

/- The matrix of a node that an experiment refers to. -/
def evaluateMatrix
    (plan : Plan R)
    (id : NodeId) : Session R (Mat R) := do
  match ← plan.evaluate id with
  | .matrix a => return a
  | value => Session.lift (refuseOperand id id "matrix" value)

------------------------------------------------------------
-- Experiments
------------------------------------------------------------

/- The density matrix of a state, unless it is a scalar. -/
def densityOf? : Value R → Option (Mat R)
  | .scalar _ => none
  | .vector ket => some (Mat.outer ket ket)
  | .matrix rho => some rho

/- The dissipation channels of an evolution. -/
def evaluateChannels
    (plan : Plan R)
    (jumps : List (Jump R)) : Session R (List (Channel R)) :=
  jumps.mapM fun jump => do
    let operator ← plan.evaluateMatrix jump.operator
    return ⟨operator, jump.rate⟩

/- The density matrices of an evolution from an initial state. -/
def evolve
    (plan : Plan R)
    (e : PlannedExperiment R)
    (evolution : PlannedEvolution R)
    (initial : Value R)
    (rho : Mat R) : Session R (StateType × List (Mat R)) := do
  let h ← plan.evaluateMatrix evolution.hamiltonian
  match evolution.method, initial with
  | .schrodinger, .vector ket =>
      let kets ← Session.lift (Unitary.evolve h ket evolution.times)
      return (.pure, kets.map fun ket => Mat.outer ket ket)
  | .schrodinger, _ =>
      Session.fail ⟨.ketRequired e.name, some e.initialState⟩
  | .lindblad, _ =>
      let channels ← plan.evaluateChannels evolution.jumps
      let states ← Session.lift
        ((Lindblad.mk h channels).integrate rho evolution.times)
      return (.density, states)

/- The density matrices of an experiment. -/
def states
    (plan : Plan R)
    (e : PlannedExperiment R) :
    Session R (StateType × List (Mat R)) := do
  let initial ← plan.evaluate e.initialState
  match densityOf? initial with
  | none =>
      Session.fail ⟨.scalarInitialState e.name, some e.initialState⟩
  | some rho =>
      match e.evolution with
      | none => return (.density, [rho])
      | some evolution => plan.evolve e evolution initial rho

/- Refuses a measurement that cannot be made on a trajectory. -/
def requireMeasurable
    (m : PlannedMeasurement)
    (times : List R)
    (states : List (Mat R)) : Except (Fault R) (R × Mat R) :=
  match times[m.timeIndex]?, states[m.timeIndex]? with
  | some time, some rho =>
      if m.operators.isEmpty then
        refuse (.noOperators m.name)
      else if m.kind = .observable ∧ m.operators.length ≠ 1 then
        refuse (.observableOperators m.name m.operators.length)
      else
        .ok (time, rho)
  | _, _ =>
      refuse (.timeIndexOutside m.name m.timeIndex states.length)

/-
  The expectation of an observable, which has to be real up
  to a tolerance.
-/
def realExpectation
    (tolerance : R)
    (name : String)
    (a rho : Mat R) : Except (Fault R) R := do
  let z ← Guarded.expectation a rho
  if less tolerance (abs z.im) then
    refuse (.violation .hermiticity name (abs z.im)
      "expectation value has a non-negligible imaginary part")
  else
    return z.re

/- The outcome of a measurement on a trajectory. -/
def measure
    (plan : Plan R)
    (tolerance : R)
    (times : List R)
    (states : List (Mat R))
    (m : PlannedMeasurement) : Session R (Outcome R) := do
  let (time, rho) ← Session.lift (requireMeasurable m times states)
  let operators ← m.operators.mapM plan.evaluateMatrix
  match m.kind, operators with
  | .observable, a :: _ =>
      let x ← Session.lift (realExpectation tolerance m.name a rho)
      return ⟨m.name, m.kind, m.timeIndex, time, [], some x⟩
  | _, _ =>
      let ps ← Session.lift (Guarded.probabilities operators rho)
      return ⟨m.name, m.kind, m.timeIndex, time, ps, none⟩

/- The times of an experiment; without an evolution, time zero. -/
def timesOf (e : PlannedExperiment R) : List R :=
  match e.evolution with
  | some evolution => evolution.times
  | none => [0.0]

/- The outcomes of an experiment. -/
def runExperiment
    (plan : Plan R)
    (tolerance : R)
    (e : PlannedExperiment R) : Session R (ExperimentResult R) := do
  if plan.size ≤ e.initialState then
    Session.fail ⟨.missingInitialState e.name, some e.initialState⟩
  else
    let (stateType, states) ← plan.states e
    let times := timesOf e
    let outcomes ← e.measurements.mapM
      (plan.measure tolerance times states)
    return ⟨e.name, times, stateType, outcomes⟩

------------------------------------------------------------
-- Whole plans
------------------------------------------------------------

/-
  What ended an execution: the backend that was asked for,
  or an experiment.
-/
inductive ExecutionStop (R : Type) where
  | backend (fault : Fault R)
  | experiment (name : String) (fault : Fault R)
deriving DecidableEq, Repr

/- The fault that an execution ends with. -/
def ExecutionStop.fault {R : Type} : ExecutionStop R → Fault R
  | backend fault => fault
  | experiment _ fault => fault

/-
  The imaginary part that an expectation may have, unless a
  run asks for another.
-/
def defaultImaginaryTolerance : R :=
  1e-8

/- The results of experiments, one after another, on shared values. -/
def runAll
    (plan : Plan R)
    (tolerance : R)
    (memo : Memo R) :
    List (PlannedExperiment R) →
      Except (ExecutionStop R) (List (ExperimentResult R) × Memo R)
  | [] => .ok ([], memo)
  | e :: rest =>
      match (plan.runExperiment tolerance e).run memo with
      | (.error fault, _) => .error (.experiment e.name fault)
      | (.ok result, memo) => do
          let (later, memo) ← plan.runAll tolerance memo rest
          return (result :: later, memo)

/-
  The results of all experiments of a plan and the number of
  nodes computed.  Only the dense backend runs.
-/
def execute
    (plan : Plan R)
    (config : BackendConfig)
    (tolerance : R) :
    Except (ExecutionStop R) (ExecutionResult R × Nat) :=
  match config.backend with
  | .cpuDense => do
      let (results, memo) ← plan.runAll tolerance (.initial plan)
        plan.experiments
      return (⟨results⟩, memo.computed)
  | backend =>
      .error (.backend ⟨.unsupportedBackend backend, none⟩)

end Plan

end QuantumLab
