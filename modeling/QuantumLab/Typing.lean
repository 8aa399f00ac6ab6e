import QuantumLab.Program.Predefined
import QuantumLab.Program.Walk
import QuantumLab.Value

/-
  This file infers the shapes of expressions and checks that
  the declarations of a program fit together.

  Key definitions include:
    * `BinaryOp.shape`, `UnaryOp.shape`
    * `Scope`
    * `Scope.infer`
    * `Scope.declare`
    * `Scope.check`
    * `TypedProgram`
    * `Program.typed`
-/

namespace QuantumLab

variable {R : Type}

------------------------------------------------------------
-- Shapes of operations
------------------------------------------------------------

/- The shape of a product. -/
def multiplyShape (lhs rhs : Shape) : Except (Fault R) Shape :=
  match lhs, rhs with
  | .scalar, _ => .ok rhs
  | _, .scalar => .ok lhs
  | .matrix r c, .matrix r' c' =>
      if c = r' then .ok (.matrix r c')
      else refuse (.mismatch lhs rhs "multiplication")
  | .matrix r c, .vector n =>
      if c = n then .ok (.vector r)
      else refuse (.mismatch lhs rhs "multiplication")
  | _, _ => refuse (.mismatch lhs rhs "multiplication")

/- The shape of a Kronecker product, if the operands are of one kind. -/
def tensorShape? : Shape → Shape → Option Shape
  | .matrix r c, .matrix r' c' =>
      some (.matrix (Shape.wrap (r * r')) (Shape.wrap (c * c')))
  | .vector n, .vector n' => some (.vector (Shape.wrap (n * n')))
  | _, _ => none

/- The shape of the result of an operation on two operands. -/
def BinaryOp.shape
    (op : BinaryOp)
    (lhs rhs : Shape) : Except (Fault R) Shape :=
  match op with
  | .add | .subtract =>
      if lhs = rhs then .ok lhs
      else refuse (.mismatch lhs rhs op.activity)
  | .multiply => multiplyShape lhs rhs
  | .divide =>
      if rhs.isScalar then .ok lhs
      else refuse (.mismatch .scalar rhs "division")
  | .power =>
      if !rhs.isScalar then
        refuse (.mismatch .scalar rhs "exponent of power")
      else if lhs.isScalar || lhs.isSquareMatrix then
        .ok lhs
      else
        refuse (.mismatch lhs.square lhs "base of power")
  | .tensor =>
      match tensorShape? lhs rhs with
      | some shape => .ok shape
      | none => refuse (.mismatch lhs rhs "tensor product")
  | .commutator | .anticommutator =>
      if lhs.isSquareMatrix && lhs == rhs then .ok lhs
      else refuse (.mismatch lhs rhs op.activity)

/- The shape of the result of an operation on one operand. -/
def UnaryOp.shape
    (op : UnaryOp)
    (operand : Shape) : Except (Fault R) Shape :=
  match op with
  | .dagger => .ok operand.dagger
  | .trace =>
      if operand.isSquareMatrix then .ok .scalar
      else refuse (.mismatch operand.square operand "trace")
  | .expm | .sqrt =>
      if operand.isScalar || operand.isSquareMatrix then .ok operand
      else refuse (.mismatch operand.square operand op.activity)
  | .sin | .cos | .exp =>
      if operand.isScalar then .ok .scalar
      else refuse (.mismatch .scalar operand "scalar function")

------------------------------------------------------------
-- Scopes
------------------------------------------------------------

/-
  What a program has declared so far.  A predefined name may
  be declared once more while it is shadowable; the
  parameters of a definition are scalars inside of its body.
-/
structure Scope where
  shapes : Table Shape
  functions : Names
  measurements : Names
  shadowable : Names
  parameters : List String
deriving DecidableEq, Repr

namespace Scope

/- The scope in which a program starts. -/
def initial : Scope where
  shapes := Table.ofList
    (Predefined.names.map fun name => (name, .matrix 2 2))
  functions := .empty
  measurements := .empty
  shadowable := Table.ofList
    (Predefined.names.map fun name => (name, ()))
  parameters := []

/- The shape of a name. -/
def lookup (scope : Scope) (name : String) : Except (Fault R) Shape :=
  if name ∈ scope.parameters then
    .ok .scalar
  else
    match scope.shapes.find? name with
    | some shape => .ok shape
    | none => refuse (.undeclaredIdentifier name)

/- The scope with a name declared. -/
def declare
    (scope : Scope)
    (name : String)
    (shape : Shape) : Except (Fault R) Scope :=
  if scope.shadowable.contains name then
    .ok { scope with
      shadowable := scope.shadowable.erase name
      shapes := scope.shapes.insert name shape }
  else if scope.functions.contains name
      || scope.shapes.contains name then
    refuse (.duplicateDeclaration name)
  else
    .ok { scope with shapes := scope.shapes.insert name shape }

------------------------------------------------------------
-- Shapes of expressions
------------------------------------------------------------

mutual

/- The shape of an expression. -/
def infer (scope : Scope) : Expr R → Except (Fault R) Shape
  | .missing => refuse (.missingExpression .inference)
  | .number _ => .ok .scalar
  | .identifier name => scope.lookup name
  | .matrix rows =>
      if Expr.columns rows = 0 then
        refuse .emptyMatrixLiteral
      else do
        scope.inferRows (Expr.columns rows) 0 rows
        return .matrix rows.length (Expr.columns rows)
  | .vector elements =>
      if elements.isEmpty then
        refuse .emptyVectorLiteral
      else do
        scope.inferScalars "element of vector literal" elements
        return .vector elements.length
  | .binary op lhs rhs => do
      let lhsShape ← scope.infer lhs
      let rhsShape ← scope.infer rhs
      op.shape lhsShape rhsShape
  | .unary op operand => do
      let shape ← scope.infer operand
      op.shape shape
  | .call function arguments =>
      if scope.functions.contains function then do
        scope.inferAll arguments
        return .scalar
      else
        refuse (.undeclaredFunction function)

/- Refuses elements of a literal that are not scalars. -/
def inferScalars
    (scope : Scope)
    (subject : String) : List (Expr R) → Except (Fault R) Unit
  | [] => .ok ()
  | element :: rest => do
      let shape ← scope.infer element
      if shape.isScalar then
        scope.inferScalars subject rest
      else
        refuse (.mismatch .scalar shape subject)

/-
  Refuses rows of a literal, from row `k` on, that do not
  have `columns` scalars.
-/
def inferRows
    (scope : Scope)
    (columns k : Nat) : List (List (Expr R)) → Except (Fault R) Unit
  | [] => .ok ()
  | row :: rest =>
      if row.length = columns then do
        scope.inferScalars "element of matrix literal" row
        scope.inferRows columns (k + 1) rest
      else
        refuse (.raggedMatrixLiteral k row.length columns)

/- Refuses arguments without a shape. -/
def inferAll (scope : Scope) : List (Expr R) → Except (Fault R) Unit
  | [] => .ok ()
  | argument :: rest => do
      let _ ← scope.infer argument
      scope.inferAll rest

end

------------------------------------------------------------
-- Declarations
------------------------------------------------------------

/- The shape of a Hamiltonian, which is square. -/
def hamiltonianShape
    (scope : Scope)
    (name : String)
    (parameters : List String)
    (expression : Expr R) : Except (Fault R) Shape := do
  let shape ← { scope with parameters }.infer expression
  if shape.isSquareMatrix then
    return shape
  refuse (.mismatch shape.square shape
    ("Hamiltonian " ++ Cause.quote name))

/-
  The shape that the operators of a measurement share.  The
  operators from number `k` on are left, and those before
  have the shape `shared`.
-/
def measurementShape
    (scope : Scope)
    (name : String)
    (k : Nat)
    (shared : Option Shape) : List (Expr R) → Except (Fault R) Shape
  | [] =>
      match shared with
      | some shape => .ok shape
      | none => refuse (.measurementWithoutOperators name)
  | operator :: rest => do
      let shape ← scope.infer operator
      let subject :=
        "measurement operator " ++ Cause.quote (operatorName name k)
      if !shape.isSquareMatrix then
        refuse (.mismatch shape.square shape subject)
      else if shared.getD shape ≠ shape then
        refuse (.mismatch (shared.getD shape) shape subject)
      else
        measurementShape scope name (k + 1) (some shape) rest

/- Refuses an initial state that does not have the shape of its kind. -/
def requireStateShape
    (experiment : String)
    (kind : StateKind)
    (shape : Shape) : Except (Fault R) Unit :=
  match kind with
  | .ket =>
      if shape.isVector then .ok ()
      else refuse (.mismatch shape.column shape
        ("initial ket of experiment " ++ Cause.quote experiment))
  | .rho =>
      if shape.isSquareMatrix then .ok ()
      else refuse (.mismatch shape.square shape
        ("initial density matrix of experiment "
          ++ Cause.quote experiment))

/-
  Refuses a name that is not an operator on the space of an
  experiment.  The dimension is unknown without a state.
-/
def requireOperator
    (scope : Scope)
    (experiment : String)
    (dimension : Option Nat)
    (usage name : String) : Except (Fault R) Unit := do
  let shape ← scope.lookup name
  let subject := usage ++ " " ++ Cause.quote name
  if !shape.isSquareMatrix then
    refuse (.mismatch shape.square shape subject)
  else if dimension.getD shape.rows ≠ shape.rows then
    let n := dimension.getD shape.rows
    refuse (.mismatch (.matrix n n) shape
      (subject ++ " of experiment " ++ Cause.quote experiment))
  else
    return ()

/- Refuses a dissipation term without an operator or a scalar rate. -/
def requireTerm
    (scope : Scope)
    (experiment : String)
    (dimension : Option Nat)
    (term : LindbladTerm R) : Except (Fault R) Unit := do
  scope.requireOperator experiment dimension
    "Lindblad operator" term.operator
  let shape ← scope.infer term.rate
  if shape.isScalar then
    return ()
  refuse (.mismatch .scalar shape
    ("rate of Lindblad operator " ++ Cause.quote term.operator))

/- Refuses an evolution whose operators do not fit the state. -/
def requireEvolution
    (scope : Scope)
    (experiment : String)
    (dimension : Option Nat)
    (evolution : Evolution R) : Except (Fault R) Unit := do
  scope.requireOperator experiment dimension
    "Hamiltonian" evolution.hamiltonian
  evolution.terms.forM (scope.requireTerm experiment dimension)

/-
  Refuses a scheduled measurement or observable that does
  not fit the state.
-/
def requireEvent
    (scope : Scope)
    (experiment : String)
    (dimension : Option Nat)
    (event : Event R) : Except (Fault R) Unit :=
  let usage :=
    if scope.measurements.contains event.measurement
    then "measurement" else "observable"
  scope.requireOperator experiment dimension usage event.measurement

/- The scope with an initial state recorded, and its dimension. -/
def declareState
    (scope : Scope)
    (experiment : String) :
    Option (InitialState R) → Except (Fault R) (Scope × Option Nat)
  | none => .ok (scope, none)
  | some state => do
      let shape ← scope.infer state.value
      requireStateShape experiment state.kind shape
      let scope ← scope.declare (initialStateName experiment) shape
      return (scope, some shape.rows)

/- The scope after an experiment. -/
def checkExperiment
    (scope : Scope)
    (e : Experiment R) : Except (Fault R) Scope := do
  let (scope, dimension) ← scope.declareState e.name e.initialState
  match e.evolution with
  | some evolution =>
      scope.requireEvolution e.name dimension evolution
  | none => .ok ()
  e.schedule.forM (scope.requireEvent e.name dimension)
  return scope

/-
  The scope after a function definition.  The function is
  known inside of its own body.
-/
def checkFunction
    (scope : Scope)
    (name : String)
    (parameters : List String)
    (body : Expr R) : Except (Fault R) Scope := do
  if scope.functions.contains name
      || (scope.shapes.contains name
        && !scope.shadowable.contains name) then
    refuse (.duplicateDeclaration name)
  else
    let scope := { scope with functions := scope.functions.add name }
    let _ ← { scope with parameters }.infer body
    return scope

/- The scope after a statement. -/
def check
    (scope : Scope) : Statement R → Except (Fault R) Scope
  | .empty => refuse .emptyStatement
  | .const name value => do
      let shape ← scope.infer value
      if shape.isScalar then
        scope.declare name shape
      else
        refuse (.mismatch .scalar shape
          ("constant " ++ Cause.quote name))
  | .symbol name => scope.declare name .scalar
  | .matrix name value => do
      let shape ← scope.infer value
      scope.declare name shape
  | .function name parameters body =>
      scope.checkFunction name parameters body
  | .hamiltonian name parameters expression => do
      let shape ← scope.hamiltonianShape name parameters expression
      scope.declare name shape
  | .measurement name _ operators => do
      let shape ← scope.measurementShape name 0 none operators
      { scope with measurements := scope.measurements.add name }.declare
        name shape
  | .experiment e => scope.checkExperiment e

end Scope

------------------------------------------------------------
-- Typed programs
------------------------------------------------------------

/-
  A program and the shapes of its names.
-/
structure TypedProgram (R : Type) where
  program : Program R
  shapes : Table Shape
deriving Repr

/- The program with its shapes, if its declarations fit together. -/
def Program.typed
    (program : Program R) : Except (Stop R) (TypedProgram R) := do
  let scope ← program.walk Scope.check Scope.initial
  return ⟨program, scope.shapes⟩

end QuantumLab
