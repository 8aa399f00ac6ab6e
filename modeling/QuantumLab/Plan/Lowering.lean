import QuantumLab.Plan.Basic
import QuantumLab.Validation.Validator

/-
  This file turns validated programs into execution plans.
  Declarations with a value become nodes, constant parts
  are folded, and experiments refer to the nodes of the
  operators that their names stand for.

  Key definitions include:
    * `Lowering`
    * `Lowering.resolve`
    * `Lowering.lower`
    * `Lowering.addStatement`
    * `LoweringStop`
    * `ValidatedProgram.plan`
-/

namespace QuantumLab

/-
  The state of a lowering: the plan so far with the shape of
  each node, the nodes of names, the names known without a
  node, the nodes of the operators of measurements, and the
  values of names.
-/
structure Lowering (R : Type) where
  plan : Plan R
  shapes : Array Shape
  symbols : Table NodeId
  symbolic : Names
  measurements : Table (OutcomeKind × List NodeId)
  environment : Environment R
deriving DecidableEq, Repr

namespace Lowering

variable {R : Type}

------------------------------------------------------------
-- Nodes and names
------------------------------------------------------------

/- The state with one more node, and its position. -/
def emit
    (s : Lowering R)
    (operation : Operation R)
    (shape : Shape) : NodeId × Lowering R :=
  (s.plan.size,
    { s with
      plan := s.plan.addNode operation
      shapes := s.shapes.push shape })

/- The state with a node that gives a value, and its position. -/
def emitConstant
    (s : Lowering R)
    (name : String)
    (value : Value R) : NodeId × Lowering R :=
  s.emit (.constant name value) value.shape

/- The shape of a node. -/
def shapeOf (s : Lowering R) (id : NodeId) : Shape :=
  s.shapes[id]?.getD .scalar

/- The state with a name bound to a node. -/
def bind (s : Lowering R) (name : String) (id : NodeId) : Lowering R :=
  { s with
    symbols := s.symbols.insert name id
    symbolic := s.symbolic.erase name }

/- The state with a name known without a node or a value. -/
def declareSymbolic (s : Lowering R) (name : String) : Lowering R :=
  { s with
    symbols := s.symbols.erase name
    symbolic := s.symbolic.add name
    environment := s.environment.declareSymbolic name }

/- The state with the value of a name. -/
def define
    (s : Lowering R)
    (name : String)
    (value : Value R) : Lowering R :=
  { s with environment := s.environment.define name value }

variable [Arithmetic R]

/- The state in which a lowering starts. -/
def initial : Lowering R where
  plan := .empty
  shapes := #[]
  symbols := .empty
  symbolic := .empty
  measurements := .empty
  environment := .initial

/-
  The node of a name.  A predefined operator gets its node
  when it is first used.
-/
def resolve
    (s : Lowering R)
    (name : String) : Except (Fault R) (NodeId × Lowering R) :=
  match s.symbols.find? name with
  | some id => .ok (id, s)
  | none =>
      if s.symbolic.contains name then
        refuse (.loweredSymbol name)
      else
        match Predefined.find? name with
        | some a =>
            let (id, s) := s.emitConstant name (.matrix a)
            .ok (id, s.bind name id)
        | none => refuse (.unresolvedName name)

------------------------------------------------------------
-- Expressions
------------------------------------------------------------

/- The node of a scalar that an expression is evaluated to. -/
def fold
    (s : Lowering R)
    (function : String)
    (expression : Expr R) : Except (Fault R) (NodeId × Lowering R) := do
  match ← s.environment.evaluate? expression with
  | some (.scalar z) => return s.emitConstant "" (.scalar z)
  | some _ => refuse (.nonScalarOperand function)
  | none => refuse (.nonConstantOperand function)

/- The reciprocal of a divisor that has to be a nonzero constant. -/
def reciprocal
    (s : Lowering R)
    (divisor : Expr R) : Except (Fault R) (Scalar R) := do
  match ← s.environment.evaluate? divisor with
  | none => refuse .nonConstantDivisor
  | some (.scalar w) =>
      if w.isZero then refuse (.divisionByZero .lowering)
      else return Scalar.one / w
  | some value => refuse (.mismatch .scalar value.shape "division")

/- The node of a product. -/
def emitProduct
    (s : Lowering R)
    (lhs rhs : NodeId) : NodeId × Lowering R :=
  let lhsShape := s.shapeOf lhs
  let rhsShape := s.shapeOf rhs
  if lhsShape.isScalar then
    s.emit (.scalarMul lhs rhs) rhsShape
  else if rhsShape.isScalar then
    s.emit (.scalarMul rhs lhs) lhsShape
  else if rhsShape.isVector then
    s.emit (.matrixMul lhs rhs) (.vector lhsShape.rows)
  else
    s.emit (.matrixMul lhs rhs) (.matrix lhsShape.rows rhsShape.cols)

/- The node of a Kronecker product. -/
def emitTensor
    (s : Lowering R)
    (lhs rhs : NodeId) : NodeId × Lowering R :=
  let lhsShape := s.shapeOf lhs
  let rhsShape := s.shapeOf rhs
  let rows := Shape.wrap (lhsShape.rows * rhsShape.rows)
  let cols := Shape.wrap (lhsShape.cols * rhsShape.cols)
  s.emit (.tensorProduct lhs rhs)
    (if lhsShape.isVector then .vector rows else .matrix rows cols)

/- The node of a difference: the sum with the negated subtrahend. -/
def emitDifference
    (s : Lowering R)
    (lhs rhs : NodeId) : NodeId × Lowering R :=
  let lhsShape := s.shapeOf lhs
  let rhsShape := s.shapeOf rhs
  let (minusOne, s) :=
    s.emitConstant "" (.scalar (Scalar.ofReal (-(1.0 : R))))
  let (negated, s) := s.emit (.scalarMul minusOne rhs) rhsShape
  s.emit (.matrixAdd lhs negated) lhsShape

/- The node of an anticommutator: the sum of both products. -/
def emitAnticommutator
    (s : Lowering R)
    (lhs rhs : NodeId) : NodeId × Lowering R :=
  let shape := s.shapeOf lhs
  let (forth, s) := s.emit (.matrixMul lhs rhs) shape
  let (back, s) := s.emit (.matrixMul rhs lhs) shape
  s.emit (.matrixAdd forth back) shape

/-
  The node of an expression.  Scalar functions and powers
  are folded, and literals are loaded as they are.
-/
def lower
    (s : Lowering R) :
    Expr R → Except (Fault R) (NodeId × Lowering R)
  | .missing => refuse (.missingExpression .lowering)
  | .number z => .ok (s.emitConstant "" (.scalar z))
  | .identifier name => s.resolve name
  | .matrix rows => do
      let value ← s.environment.evaluate (.matrix rows)
      return s.emitConstant "" value
  | .vector elements => do
      let value ← s.environment.evaluate (.vector elements)
      return s.emitConstant "" value
  | .binary .power lhs rhs =>
      s.fold "Exponentiation" (.binary .power lhs rhs)
  | .binary .divide lhs rhs => do
      let factor ← s.reciprocal rhs
      let (dividend, s) ← s.lower lhs
      let (factor, s) := s.emitConstant "" (.scalar factor)
      return s.emit (.scalarMul factor dividend) (s.shapeOf dividend)
  | .binary .add lhs rhs => do
      let (lhs, s) ← s.lower lhs
      let (rhs, s) ← s.lower rhs
      return s.emit (.matrixAdd lhs rhs) (s.shapeOf lhs)
  | .binary .subtract lhs rhs => do
      let (lhs, s) ← s.lower lhs
      let (rhs, s) ← s.lower rhs
      return s.emitDifference lhs rhs
  | .binary .multiply lhs rhs => do
      let (lhs, s) ← s.lower lhs
      let (rhs, s) ← s.lower rhs
      return s.emitProduct lhs rhs
  | .binary .tensor lhs rhs => do
      let (lhs, s) ← s.lower lhs
      let (rhs, s) ← s.lower rhs
      return s.emitTensor lhs rhs
  | .binary .commutator lhs rhs => do
      let (lhs, s) ← s.lower lhs
      let (rhs, s) ← s.lower rhs
      return s.emit (.commutator lhs rhs) (s.shapeOf lhs)
  | .binary .anticommutator lhs rhs => do
      let (lhs, s) ← s.lower lhs
      let (rhs, s) ← s.lower rhs
      return s.emitAnticommutator lhs rhs
  | .unary .sqrt operand => s.fold "Square root" (.unary .sqrt operand)
  | .unary .sin operand => s.fold "Sine" (.unary .sin operand)
  | .unary .cos operand => s.fold "Cosine" (.unary .cos operand)
  | .unary .exp operand => s.fold "Exponential" (.unary .exp operand)
  | .unary .dagger operand => do
      let (id, s) ← s.lower operand
      return s.emit (.dagger id) (s.shapeOf id).dagger
  | .unary .trace operand => do
      let (id, s) ← s.lower operand
      return s.emit (.trace id) .scalar
  | .unary .expm operand => do
      let (id, s) ← s.lower operand
      if (s.shapeOf id).isScalar then
        s.fold "Exponential" (.unary .expm operand)
      else
        return s.emit (.matrixExp id) (s.shapeOf id)
  | .call function _ => refuse (.loweredCall function)

------------------------------------------------------------
-- Declarations
------------------------------------------------------------

/- The state after a constant. -/
def addConst
    (s : Lowering R)
    (name : String)
    (expression : Expr R) : Except (Fault R) (Lowering R) := do
  match ← s.environment.evaluate? expression with
  | none => return s.declareSymbolic name
  | some value =>
      let (id, s) := (s.define name value).emitConstant name value
      return s.bind name id

/-
  The state after a quantity.  Literals are loaded as they
  are, and other expressions keep their structure.
-/
def addQuantity
    (s : Lowering R)
    (name : String)
    (expression : Expr R) : Except (Fault R) (Lowering R) := do
  match ← s.environment.evaluate? expression with
  | none => return s.declareSymbolic name
  | some value =>
      if expression.isLiteral then
        let (id, s) := (s.define name value).emitConstant name value
        return s.bind name id
      else
        let (id, s) ← (s.define name value).lower expression
        return s.bind name id

/- The state after a Hamiltonian. -/
def addHamiltonian
    (s : Lowering R)
    (name : String)
    (parameters : List String)
    (expression : Expr R) : Except (Fault R) (Lowering R) := do
  if !parameters.isEmpty then
    return s.declareSymbolic name
  match ← s.environment.evaluate? expression with
  | none => return s.declareSymbolic name
  | some value =>
      let (id, s) ← (s.define name value).lower expression
      return s.bind name id

/- The nodes of the operators of a measurement, from number `k` on. -/
def emitOperators
    (s : Lowering R)
    (name : String)
    (k : Nat) :
    List (Expr R) → Except (Fault R) (List NodeId × Lowering R)
  | [] => .ok ([], s)
  | operator :: rest => do
      let value ← s.environment.evaluate operator
      let (id, s) := s.emitConstant (operatorName name k) value
      let (later, s) ← s.emitOperators name (k + 1) rest
      return (id :: later, s)

/- The state after the definition of a measurement. -/
def addMeasurement
    (s : Lowering R)
    (name : String)
    (kind : MeasurementKind)
    (operators : List (Expr R)) : Except (Fault R) (Lowering R) := do
  let (ids, s) ← s.emitOperators name 0 operators
  return { s with
    measurements := s.measurements.insert name
      (OutcomeKind.ofDefinition kind, ids) }

------------------------------------------------------------
-- Experiments
------------------------------------------------------------

/- The node of an initial state. -/
def lowerInitialState
    (s : Lowering R)
    (e : Experiment R) : Except (Fault R) (NodeId × Lowering R) := do
  match e.initialState with
  | none => refuse (.unvalidatedExperiment e.name)
  | some state =>
      match state.kind, ← s.environment.evaluate state.value with
      | .ket, .vector ket =>
          return s.emitConstant "init_ket" (.vector ket)
      | .ket, value =>
          refuse (.mismatch value.shape.column value.shape
            ("initial ket of experiment " ++ Cause.quote e.name))
      | .rho, .matrix rho =>
          return s.emitConstant "init_rho" (.matrix rho)
      | .rho, value =>
          refuse (.mismatch value.shape.square value.shape
            ("initial density matrix of experiment "
              ++ Cause.quote e.name))

/- The dissipation channels of the terms of an evolution. -/
def lowerTerms
    (s : Lowering R) :
    List (LindbladTerm R) →
      Except (Fault R) (List (Jump R) × Lowering R)
  | [] => .ok ([], s)
  | term :: rest => do
      let (operator, s) ← s.resolve term.operator
      let usage := Validator.rateUsage term.operator
      match s.environment.evaluateReal usage term.rate with
      | .ok rate =>
          let (later, s) ← s.lowerTerms rest
          return (⟨operator, rate⟩ :: later, s)
      | .error fault =>
          if fault.isUnsupported then
            refuse (.nonConstantRate term.operator)
          else
            .error fault

/- The evolution of an experiment; without channels it is that of a ket. -/
def lowerEvolution
    (s : Lowering R) :
    Option (Evolution R) →
      Except (Fault R) (Option (PlannedEvolution R) × Lowering R)
  | none => .ok (none, s)
  | some evolution => do
      let (hamiltonian, s) ← s.resolve evolution.hamiltonian
      let (jumps, s) ← s.lowerTerms evolution.terms
      let method : EvolutionMethod :=
        if jumps.isEmpty then .schrodinger else .lindblad
      return (some
        ⟨method, hamiltonian, jumps, evolution.grid.times⟩, s)

/- A scheduled measurement, at the grid point nearest to its time. -/
def lowerEvent
    (s : Lowering R)
    (times : List R)
    (event : Event R) :
    Except (Fault R) (PlannedMeasurement × Lowering R) :=
  let index := nearestIndex times event.time
  match s.measurements.find? event.measurement with
  | some (kind, operators) =>
      .ok (⟨event.measurement, index, kind, operators⟩, s)
  | none => do
      let (operator, s) ← s.resolve event.measurement
      return (⟨event.measurement, index, .observable, [operator]⟩, s)

/- The measurements of a schedule. -/
def lowerSchedule
    (s : Lowering R)
    (times : List R) :
    List (Event R) →
      Except (Fault R) (List PlannedMeasurement × Lowering R)
  | [] => .ok ([], s)
  | event :: rest => do
      let (measurement, s) ← s.lowerEvent times event
      let (later, s) ← s.lowerSchedule times rest
      return (measurement :: later, s)

/- The times of an evolution; without one, time zero. -/
def timesOf : Option (PlannedEvolution R) → List R
  | some evolution => evolution.times
  | none => [0.0]

/- The state after an experiment. -/
def addExperiment
    (s : Lowering R)
    (e : Experiment R) : Except (Fault R) (Lowering R) := do
  let (initialState, s) ← s.lowerInitialState e
  let (evolution, s) ← s.lowerEvolution e.evolution
  let (measurements, s) ← s.lowerSchedule (timesOf evolution) e.schedule
  return { s with
    plan := s.plan.addExperiment
      ⟨e.name, initialState, evolution, measurements⟩ }

/- The state after a statement. -/
def addStatement
    (s : Lowering R) : Statement R → Except (Fault R) (Lowering R)
  | .empty => refuse .emptyStatement
  | .const name value => s.addConst name value
  | .symbol name => .ok (s.declareSymbolic name)
  | .matrix name value => s.addQuantity name value
  | .function name _ _ => .ok (s.declareSymbolic name)
  | .hamiltonian name parameters expression =>
      s.addHamiltonian name parameters expression
  | .measurement name kind operators =>
      s.addMeasurement name kind operators
  | .experiment e => s.addExperiment e

end Lowering

------------------------------------------------------------
-- Plans of programs
------------------------------------------------------------

/-
  What ended a lowering: a statement, or a plan that does
  not verify.
-/
inductive LoweringStop (R : Type) where
  | statement (stop : Stop R)
  | malformed (fault : Fault R)
deriving DecidableEq, Repr

/- The fault that a lowering ends with. -/
def LoweringStop.fault
    {R : Type}
    [Arithmetic R] : LoweringStop R → Fault R
  | statement stop => stop.fault
  | malformed fault => ⟨.malformedPlan fault.cause.message, none⟩

/- The plan of a validated program. -/
def ValidatedProgram.plan
    {R : Type}
    [Arithmetic R]
    (p : ValidatedProgram R) : Except (LoweringStop R) (Plan R) :=
  match p.typed.program.walk Lowering.addStatement Lowering.initial with
  | .error stop => .error (.statement stop)
  | .ok s =>
      match s.plan.verify with
      | .error fault => .error (.malformed fault)
      | .ok () => .ok s.plan

end QuantumLab
