import QuantumLab.Fault
import QuantumLab.Program.Statement

/-
  This file defines execution plans: a list of numeric
  operations that refer to earlier ones by position, and
  the experiments that use them.

  Key definitions include:
    * `Operation`
    * `Operation.word`, `Operation.operands`
    * `PlannedMeasurement`, `PlannedEvolution`,
      `PlannedExperiment`
    * `Plan`
    * `Plan.addNode`, `Plan.addExperiment`
    * `Plan.verify`
-/

namespace QuantumLab

------------------------------------------------------------
-- Operations
------------------------------------------------------------

/- A node of a plan is named by its position. -/
abbrev NodeId :=
  Nat

/-
  A dissipation channel of a plan: the node of a jump
  operator and its rate.
-/
structure Jump (R : Type) where
  operator : NodeId
  rate : R
deriving DecidableEq, Repr

/-
  The operation of a node, with the nodes of its operands.
-/
inductive Operation (R : Type) where
  | loadMatrix (name : String) (data : Mat R)
  | loadVector (name : String) (data : Vec R)
  | scalar (name : String) (value : Scalar R)
  | matrixAdd (lhs rhs : NodeId)
  | matrixMul (lhs rhs : NodeId)
  | scalarMul (factor operand : NodeId)
  | tensorProduct (lhs rhs : NodeId)
  | dagger (operand : NodeId)
  | trace (operand : NodeId)
  | commutator (lhs rhs : NodeId)
  | matrixExp (operand : NodeId)
  | unitaryPropagator (hamiltonian : NodeId) (time : R)
  | applyUnitaryKet (unitary ket : NodeId)
  | applyUnitaryRho (unitary rho : NodeId)
  | integrateLindblad
      (hamiltonian initialState : NodeId)
      (jumps : List (Jump R))
      (times : List R)
  | measureExpectation (observable state : NodeId)
  | measureProjective (projectors : List NodeId) (state : NodeId)
deriving DecidableEq, Repr

namespace Operation

variable {R : Type}

/- The name of an operation in documents and messages. -/
def word : Operation R → String
  | loadMatrix _ _ => "LoadMatrix"
  | loadVector _ _ => "LoadVector"
  | scalar _ _ => "Scalar"
  | matrixAdd _ _ => "MatrixAdd"
  | matrixMul _ _ => "MatrixMul"
  | scalarMul _ _ => "ScalarMul"
  | tensorProduct _ _ => "TensorProduct"
  | dagger _ => "Dagger"
  | trace _ => "Trace"
  | commutator _ _ => "Commutator"
  | matrixExp _ => "MatrixExp"
  | unitaryPropagator _ _ => "UnitaryPropagator"
  | applyUnitaryKet _ _ => "ApplyUnitaryKet"
  | applyUnitaryRho _ _ => "ApplyUnitaryRho"
  | integrateLindblad _ _ _ _ => "IntegrateLindblad"
  | measureExpectation _ _ => "MeasureExpectation"
  | measureProjective _ _ => "MeasureProjective"

/- The operands of an operation, in the order in which they are used. -/
def operands : Operation R → List NodeId
  | loadMatrix _ _ => []
  | loadVector _ _ => []
  | scalar _ _ => []
  | matrixAdd lhs rhs => [lhs, rhs]
  | matrixMul lhs rhs => [lhs, rhs]
  | scalarMul factor operand => [factor, operand]
  | tensorProduct lhs rhs => [lhs, rhs]
  | dagger operand => [operand]
  | trace operand => [operand]
  | commutator lhs rhs => [lhs, rhs]
  | matrixExp operand => [operand]
  | unitaryPropagator hamiltonian _ => [hamiltonian]
  | applyUnitaryKet unitary ket => [unitary, ket]
  | applyUnitaryRho unitary rho => [unitary, rho]
  | integrateLindblad hamiltonian initialState jumps _ =>
      hamiltonian :: initialState :: jumps.map Jump.operator
  | measureExpectation observable state => [observable, state]
  | measureProjective projectors state => projectors ++ [state]

/- Whether an operation is a constant. -/
def isLeaf : Operation R → Bool
  | loadMatrix _ _ => true
  | loadVector _ _ => true
  | scalar _ _ => true
  | _ => false

/- The operation that gives a value. -/
def constant (name : String) : Value R → Operation R
  | .scalar z => .scalar name z
  | .vector v => .loadVector name v
  | .matrix a => .loadMatrix name a

end Operation

/-
  An operation together with its position.
-/
structure Node (R : Type) where
  id : NodeId
  operation : Operation R
deriving DecidableEq, Repr

------------------------------------------------------------
-- Experiments
------------------------------------------------------------

/-
  The kinds of measurements of a plan.
-/
inductive OutcomeKind where
  | projective
  | povm
  | observable
deriving DecidableEq, Repr

namespace OutcomeKind

/- The name of a kind of measurement in documents. -/
def word : OutcomeKind → String
  | projective => "Projective"
  | povm => "POVM"
  | observable => "Observable"

/- The kind of a name. -/
def ofWord? (name : String) : Option OutcomeKind :=
  [projective, povm, observable].find? (fun kind => kind.word == name)

theorem ofWord?_word
    (kind : OutcomeKind) :
    ofWord? kind.word = some kind := by
  cases kind <;> decide

/- The kind of a defined measurement. -/
def ofDefinition : MeasurementKind → OutcomeKind
  | .projective => projective
  | .povm => povm

end OutcomeKind

/-
  The methods of evolution: of kets by propagators, or of
  density matrices with dissipation.
-/
inductive EvolutionMethod where
  | schrodinger
  | lindblad
deriving DecidableEq, Repr

namespace EvolutionMethod

/- The name of a method in documents. -/
def word : EvolutionMethod → String
  | schrodinger => "Schrodinger"
  | lindblad => "Lindblad"

/- The method of a name. -/
def ofWord? (name : String) : Option EvolutionMethod :=
  [schrodinger, lindblad].find? (fun method => method.word == name)

theorem ofWord?_word
    (method : EvolutionMethod) :
    ofWord? method.word = some method := by
  cases method <;> decide

end EvolutionMethod

/-
  The evolution of an experiment over the nodes of a plan.
-/
structure PlannedEvolution (R : Type) where
  method : EvolutionMethod
  hamiltonian : NodeId
  jumps : List (Jump R)
  times : List R
deriving DecidableEq, Repr

/-
  A measurement at a point of the time grid.
-/
structure PlannedMeasurement where
  name : String
  timeIndex : Nat
  kind : OutcomeKind
  operators : List NodeId
deriving DecidableEq, Repr

/-
  An experiment over the nodes of a plan.
-/
structure PlannedExperiment (R : Type) where
  name : String
  initialState : NodeId
  evolution : Option (PlannedEvolution R)
  measurements : List PlannedMeasurement
deriving DecidableEq, Repr

------------------------------------------------------------
-- Plans
------------------------------------------------------------

/-
  A plan: its nodes by position, and its experiments.
-/
structure Plan (R : Type) where
  nodes : Array (Operation R)
  experiments : List (PlannedExperiment R)
deriving DecidableEq, Repr

namespace Plan

variable {R : Type}

/- The plan without nodes. -/
def empty : Plan R :=
  ⟨#[], []⟩

/- The number of nodes. -/
def size (plan : Plan R) : Nat :=
  plan.nodes.size

/- The operation of a node. -/
def operation? (plan : Plan R) (id : NodeId) : Option (Operation R) :=
  plan.nodes[id]?

/- The plan with one more node, whose position is the old size. -/
def addNode (plan : Plan R) (operation : Operation R) : Plan R :=
  { plan with nodes := plan.nodes.push operation }

/- The plan with one more experiment. -/
def addExperiment
    (plan : Plan R)
    (experiment : PlannedExperiment R) : Plan R :=
  { plan with experiments := plan.experiments ++ [experiment] }

/- The nodes with their positions. -/
def nodeList (plan : Plan R) : List (Node R) :=
  plan.nodes.toList.zipIdx.map fun (operation, id) => ⟨id, operation⟩

------------------------------------------------------------
-- Verification
------------------------------------------------------------

/- Refuses a node with an operand that does not come before it. -/
def requireBackward (node : Node R) : Except (Fault R) Unit :=
  match node.operation.operands.find? (fun id => node.id ≤ id) with
  | some operand =>
      .error ⟨.forwardOperand node.operation.word operand, some node.id⟩
  | none => .ok ()

/- Refuses a position without a node. -/
def requireNode
    (plan : Plan R)
    (id : NodeId)
    (cause : Cause R) : Except (Fault R) Unit :=
  if id < plan.size then .ok () else refuse cause

/- Refuses an evolution that refers to a position without a node. -/
def requireEvolution
    (plan : Plan R)
    (experiment : String)
    (evolution : PlannedEvolution R) : Except (Fault R) Unit := do
  plan.requireNode evolution.hamiltonian
    (.unknownHamiltonian experiment evolution.hamiltonian)
  evolution.jumps.forM fun jump =>
    plan.requireNode jump.operator
      (.unknownLindbladOperator experiment jump.operator)

/- Refuses a measurement outside of the grid or without proper operators. -/
def requireMeasurement
    (plan : Plan R)
    (experiment : String)
    (points : Nat)
    (m : PlannedMeasurement) : Except (Fault R) Unit := do
  if points ≤ m.timeIndex then
    refuse (.eventOutsideGrid m.name experiment m.timeIndex points)
  if m.operators.isEmpty then
    refuse (.eventWithoutOperators m.name experiment)
  if m.kind = .observable ∧ m.operators.length ≠ 1 then
    refuse
      (.eventOperatorCount m.name experiment m.operators.length)
  m.operators.forM fun id =>
    plan.requireNode id (.eventUnknownOperator m.name experiment id)

/- Refuses an experiment that refers to what is not there. -/
def requireExperiment
    (plan : Plan R)
    (e : PlannedExperiment R) : Except (Fault R) Unit := do
  plan.requireNode e.initialState
    (.unknownInitialState e.name e.initialState)
  match e.evolution with
  | some evolution =>
      plan.requireEvolution e.name evolution
      e.measurements.forM
        (plan.requireMeasurement e.name evolution.times.length)
  | none => e.measurements.forM (plan.requireMeasurement e.name 1)

/- Refuses a plan that refers to what is not there or comes later. -/
def verify (plan : Plan R) : Except (Fault R) Unit := do
  plan.nodeList.forM requireBackward
  plan.experiments.forM plan.requireExperiment

end Plan

end QuantumLab
