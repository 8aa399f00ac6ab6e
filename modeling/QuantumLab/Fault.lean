import QuantumLab.Backend
import QuantumLab.Shape
import QuantumLab.Value

/-
  This file defines why a program, a plan or a document can
  be turned down.  A fault is a cause together with the
  plan node it is blamed on, if there is one.

  Key definitions include:
    * `FaultKind`
    * `Invariant`
    * `Activity`
    * `Cause`
    * `Cause.kind`
    * `Cause.message`
    * `Fault`
    * `Fault.atNode`
-/

namespace QuantumLab

open Arithmetic

------------------------------------------------------------
-- Kinds and invariants
------------------------------------------------------------

/-
  The classes of faults.
-/
inductive FaultKind where
  | type
  | validation
  | dimensionMismatch
  | unsupported
  | internal
  | execution
deriving DecidableEq, Repr

namespace FaultKind

/- The name of a kind in messages and documents. -/
def word : FaultKind → String
  | type => "TypeError"
  | validation => "ValidationError"
  | dimensionMismatch => "DimensionMismatch"
  | unsupported => "Unsupported"
  | internal => "InternalError"
  | execution => "ExecutionError"

/- All kinds. -/
def all : List FaultKind :=
  [type, validation, dimensionMismatch, unsupported, internal, execution]

/- The kind of a name. -/
def ofWord? (name : String) : Option FaultKind :=
  all.find? (fun kind => kind.word == name)

theorem ofWord?_word
    (kind : FaultKind) :
    ofWord? kind.word = some kind := by
  cases kind <;> decide

end FaultKind

/-
  The physical invariants that are checked.
-/
inductive Invariant where
  | hermiticity
  | positiveSemiDefiniteness
  | trace
  | normalization
  | idempotence
  | completeness
  | dissipationRate
  | timeOrdering
deriving DecidableEq, Repr

namespace Invariant

/- The name of an invariant in messages and documents. -/
def word : Invariant → String
  | hermiticity => "Hermiticity"
  | positiveSemiDefiniteness => "PositiveSemiDefiniteness"
  | trace => "Trace"
  | normalization => "Normalization"
  | idempotence => "Idempotence"
  | completeness => "Completeness"
  | dissipationRate => "DissipationRate"
  | timeOrdering => "TimeOrdering"

/- All invariants. -/
def all : List Invariant :=
  [hermiticity, positiveSemiDefiniteness, trace, normalization,
    idempotence, completeness, dissipationRate, timeOrdering]

/- The invariant of a name. -/
def ofWord? (name : String) : Option Invariant :=
  all.find? (fun invariant => invariant.word == name)

theorem ofWord?_word
    (invariant : Invariant) :
    ofWord? invariant.word = some invariant := by
  cases invariant <;> decide

end Invariant

------------------------------------------------------------
-- Activities
------------------------------------------------------------

/-
  What is done with an expression.
-/
inductive Activity where
  | inference
  | evaluation
  | lowering
deriving DecidableEq, Repr

namespace Activity

/- The name of an activity in messages. -/
def word : Activity → String
  | inference => "shape inference"
  | evaluation => "constant evaluation"
  | lowering => "lowering"

/- The activity on an expression that is not there. -/
def missingText : Activity → String
  | inference => "infer the shape of a missing expression"
  | evaluation => "evaluate a missing expression"
  | lowering => "lower an empty expression"

end Activity

------------------------------------------------------------
-- Causes
------------------------------------------------------------

/-
  Everything that can go wrong.
-/
inductive Cause (R : Type) where
  -- Ill-formed programs and documents.
  | undeclaredIdentifier (name : String)
  | undeclaredFunction (name : String)
  | duplicateDeclaration (name : String)
  | emptyMatrixLiteral
  | raggedMatrixLiteral (row length expected : Nat)
  | emptyVectorLiteral
  | measurementWithoutOperators (name : String)
  | notReal (usage : String) (z : Scalar R)
  | noInitialState (experiment : String)
  | undeclaredOperator (usage name : String)
  | malformedDocument (subject reason : String)
  -- Physical invariants.
  | violation
      (invariant : Invariant)
      (declaration : String)
      (deviation : R)
      (detail : String)
  -- Shapes.
  | mismatch (expected actual : Shape) (subject : String)
  -- Features that are not supported.
  | symbolicValue (name : String)
  | evaluatedCall (function : String)
  | powerOf (base exponent : Shape)
  | squareRootOf (operand : Shape)
  | exponentialOf (hermiticityGap skewHermiticityGap : R)
  | unsupportedBackend (backend : Backend)
  | nonConstantRate (operator : String)
  | loweredCall (function : String)
  | nonConstantDivisor
  | nonConstantOperand (function : String)
  | nonScalarOperand (function : String)
  | loweredSymbol (name : String)
  -- States that accepted programs do not lead to.
  | missingExpression (activity : Activity)
  | emptyStatement
  | malformedPlan (reason : String)
  | unvalidatedExperiment (experiment : String)
  | unresolvedName (name : String)
  -- Numeric failures.
  | divisionByZero (activity : Activity)
  | emptyTimeGrid
  | unorderedTimeGrid (step : Nat) (difference : R)
  | unsettledExponential
  | unsettledSpectrum (declaration : String)
  -- Failures of plan nodes.
  | missingNode (id : Nat)
  | unallocatedOperand (operation : String) (node operand : Nat)
  | operandKind
      (node operand : Nat)
      (expected : String)
      (actual : ValueKind)
  | addedKinds (node : Nat) (lhs rhs : ValueKind)
  | combinedKinds (node : Nat) (lhs rhs : ValueKind)
  -- Failures of experiments.
  | missingInitialState (experiment : String)
  | scalarInitialState (experiment : String)
  | ketRequired (experiment : String)
  | timeIndexOutside (measurement : String) (index states : Nat)
  | noOperators (measurement : String)
  | observableOperators (measurement : String) (count : Nat)
  -- Plans that refer to what is not there.
  | forwardOperand (operation : String) (operand : Nat)
  | unknownInitialState (experiment : String) (id : Nat)
  | unknownHamiltonian (experiment : String) (id : Nat)
  | unknownLindbladOperator (experiment : String) (id : Nat)
  | eventOutsideGrid
      (measurement experiment : String)
      (index points : Nat)
  | eventWithoutOperators (measurement experiment : String)
  | eventOperatorCount (measurement experiment : String) (count : Nat)
  | eventUnknownOperator (measurement experiment : String) (id : Nat)
deriving DecidableEq, Repr

namespace Cause

variable {R : Type}

/- The class of a cause. -/
def kind : Cause R → FaultKind
  | undeclaredIdentifier _
  | undeclaredFunction _
  | duplicateDeclaration _
  | emptyMatrixLiteral
  | raggedMatrixLiteral _ _ _
  | emptyVectorLiteral
  | measurementWithoutOperators _
  | notReal _ _
  | noInitialState _
  | undeclaredOperator _ _
  | malformedDocument _ _ => .type
  | violation _ _ _ _ => .validation
  | mismatch _ _ _ => .dimensionMismatch
  | symbolicValue _
  | evaluatedCall _
  | powerOf _ _
  | squareRootOf _
  | exponentialOf _ _
  | unsupportedBackend _
  | nonConstantRate _
  | loweredCall _
  | nonConstantDivisor
  | nonConstantOperand _
  | nonScalarOperand _
  | loweredSymbol _ => .unsupported
  | missingExpression _
  | emptyStatement
  | malformedPlan _
  | unvalidatedExperiment _
  | unresolvedName _ => .internal
  | divisionByZero _
  | emptyTimeGrid
  | unorderedTimeGrid _ _
  | unsettledExponential
  | unsettledSpectrum _
  | missingNode _
  | unallocatedOperand _ _ _
  | operandKind _ _ _ _
  | addedKinds _ _ _
  | combinedKinds _ _ _
  | missingInitialState _
  | scalarInitialState _
  | ketRequired _
  | timeIndexOutside _ _ _
  | noOperators _
  | observableOperators _ _
  | forwardOperand _ _
  | unknownInitialState _ _
  | unknownHamiltonian _ _
  | unknownLindbladOperator _ _
  | eventOutsideGrid _ _ _ _
  | eventWithoutOperators _ _
  | eventOperatorCount _ _ _
  | eventUnknownOperator _ _ _ => .execution

/- Text in single quotes. -/
def quote (text : String) : String :=
  "'" ++ text ++ "'"

/- The beginning of a message about a measurement of an experiment. -/
def eventText (subject measurement experiment : String) : String :=
  subject ++ " " ++ quote measurement ++ " of experiment "
    ++ quote experiment

/- The message of a violated invariant. -/
def violationMessage
    [Arithmetic R]
    (invariant : Invariant)
    (declaration : String)
    (deviation : R)
    (detail : String) : String :=
  "Declaration " ++ quote declaration ++ " violates " ++ invariant.word
    ++ " (deviation: " ++ generalText deviation ++ ")"
    ++ if detail.isEmpty then "" else ": " ++ detail

/- The message of a shape mismatch. -/
def mismatchMessage
    (expected actual : Shape)
    (subject : String) : String :=
  subject ++ ": expected " ++ expected.text ++ " but got " ++ actual.text

/- The message of a cause. -/
def message [Arithmetic R] : Cause R → String
  | undeclaredIdentifier name =>
      "Use of undeclared identifier " ++ quote name
  | undeclaredFunction name =>
      "Call of undeclared function " ++ quote name
  | duplicateDeclaration name =>
      "Duplicate declaration of " ++ quote name
  | emptyMatrixLiteral =>
      "Matrix literal must have at least one row and one column"
  | raggedMatrixLiteral row length expected =>
      "Matrix literal is not rectangular, row " ++ Nat.repr row
        ++ " has " ++ Nat.repr length ++ " instead of "
        ++ Nat.repr expected ++ " elements"
  | emptyVectorLiteral =>
      "Vector literal must have at least one element"
  | measurementWithoutOperators name =>
      "Measurement " ++ quote name
        ++ " must define at least one operator"
  | notReal usage z =>
      usage ++ " must be real but was (" ++ fixedText z.re ++ ", "
        ++ fixedText z.im ++ ")"
  | noInitialState experiment =>
      "Experiment " ++ quote experiment
        ++ " does not specify an initial state"
  | undeclaredOperator usage name =>
      "Reference to undeclared " ++ usage ++ " " ++ quote name
  | malformedDocument subject reason =>
      "Malformed " ++ subject ++ ": " ++ reason
  | violation invariant declaration deviation detail =>
      violationMessage invariant declaration deviation detail
  | mismatch expected actual subject =>
      mismatchMessage expected actual subject
  | symbolicValue name =>
      quote name
        ++ " has no numeric value and can only be used symbolically"
  | evaluatedCall function =>
      "Call of function " ++ quote function
        ++ " cannot be evaluated numerically"
  | powerOf base exponent =>
      "Power is only supported for scalar operands but got "
        ++ base.text ++ " and " ++ exponent.text
  | squareRootOf operand =>
      "Square root of a " ++ operand.text ++ " is not yet supported"
  | exponentialOf hermiticityGap skewHermiticityGap =>
      "Matrix exponential is only supported for Hermitian or "
        ++ "skew-Hermitian generators (deviation from Hermiticity: "
        ++ fixedText hermiticityGap
        ++ ", deviation from skew-Hermiticity: "
        ++ fixedText skewHermiticityGap ++ ")"
  | unsupportedBackend backend =>
      "Backend " ++ quote backend.word ++ " not yet supported"
  | nonConstantRate operator =>
      "Non-constant Lindblad rates not yet supported (operator "
        ++ quote operator ++ ")"
  | loweredCall function =>
      "Lowering of call to function " ++ quote function
        ++ " not yet supported"
  | nonConstantDivisor =>
      "Division by a non-constant quantity not yet supported"
  | nonConstantOperand function =>
      function
        ++ " of non-constant or non-scalar operands not yet supported"
  | nonScalarOperand function =>
      function ++ " of non-scalar operands not yet supported"
  | loweredSymbol name =>
      "Lowering of symbolic quantity " ++ quote name
        ++ " not yet supported"
  | missingExpression activity =>
      "Cannot " ++ activity.missingText
  | emptyStatement =>
      "Program contains an empty statement"
  | malformedPlan reason =>
      "Lowering produced a malformed IR program: " ++ reason
  | unvalidatedExperiment experiment =>
      "Experiment " ++ quote experiment
        ++ " without an initial state passed the validation"
  | unresolvedName name =>
      "Could not resolve identifier " ++ quote name
        ++ " accepted by the validation"
  | divisionByZero activity =>
      "Division by zero during " ++ activity.word
  | emptyTimeGrid =>
      "Time grid of evolution is empty"
  | unorderedTimeGrid step difference =>
      "Time grid must be strictly increasing but step "
        ++ Nat.repr step ++ " has dt = " ++ fixedText difference
  | unsettledExponential =>
      "Eigendecomposition of the generator of the matrix exponential "
        ++ "did not converge"
  | unsettledSpectrum declaration =>
      "Eigendecomposition of " ++ quote declaration
        ++ " did not converge"
  | missingNode id =>
      "Node " ++ Nat.repr id ++ " does not exist"
  | unallocatedOperand operation node operand =>
      operation ++ " node " ++ Nat.repr node ++ " references node "
        ++ Nat.repr operand ++ " which was not allocated before it"
  | operandKind node operand expected actual =>
      "Node " ++ Nat.repr node ++ " expected a " ++ expected
        ++ " operand but node " ++ Nat.repr operand ++ " is a "
        ++ actual.word
  | addedKinds node lhs rhs =>
      "MatrixAdd node " ++ Nat.repr node ++ " cannot add a "
        ++ lhs.word ++ " and a " ++ rhs.word
  | combinedKinds node lhs rhs =>
      "TensorProduct node " ++ Nat.repr node ++ " cannot combine a "
        ++ lhs.word ++ " and a " ++ rhs.word
  | missingInitialState experiment =>
      "Initial state not found for experiment " ++ quote experiment
  | scalarInitialState experiment =>
      "Initial state of experiment " ++ quote experiment
        ++ " must be a ket or a density matrix but is a scalar"
  | ketRequired experiment =>
      "Schrödinger evolution requires initial ket (experiment "
        ++ quote experiment ++ ")"
  | timeIndexOutside measurement index states =>
      "Measurement " ++ quote measurement ++ " references time index "
        ++ Nat.repr index ++ " of a trajectory with "
        ++ Nat.repr states ++ " states"
  | noOperators measurement =>
      "Measurement " ++ quote measurement ++ " defines no operators"
  | observableOperators measurement count =>
      "Observable measurement " ++ quote measurement
        ++ " must reference exactly one operator but references "
        ++ Nat.repr count
  | forwardOperand operation operand =>
      operation ++ " references node " ++ Nat.repr operand
        ++ " which was not allocated before it"
  | unknownInitialState experiment id =>
      "Initial state of experiment " ++ quote experiment
        ++ " references unknown node " ++ Nat.repr id
  | unknownHamiltonian experiment id =>
      "Evolution of experiment " ++ quote experiment
        ++ " references unknown Hamiltonian node " ++ Nat.repr id
  | unknownLindbladOperator experiment id =>
      "Evolution of experiment " ++ quote experiment
        ++ " references unknown Lindblad operator node "
        ++ Nat.repr id
  | eventOutsideGrid measurement experiment index points =>
      eventText "Measurement" measurement experiment
        ++ " references time index " ++ Nat.repr index
        ++ " of a grid with " ++ Nat.repr points ++ " points"
  | eventWithoutOperators measurement experiment =>
      eventText "Measurement" measurement experiment
        ++ " defines no operators"
  | eventOperatorCount measurement experiment count =>
      eventText "Observable measurement" measurement experiment
        ++ " must reference exactly one operator but references "
        ++ Nat.repr count
  | eventUnknownOperator measurement experiment id =>
      eventText "Measurement" measurement experiment
        ++ " references unknown node " ++ Nat.repr id

end Cause

------------------------------------------------------------
-- Faults
------------------------------------------------------------

/-
  A cause and the plan node that is blamed.
-/
structure Fault (R : Type) where
  cause : Cause R
  node : Option Nat := none
deriving DecidableEq, Repr

namespace Fault

variable {R : Type}

instance : Coe (Cause R) (Fault R) :=
  ⟨fun cause => ⟨cause, none⟩⟩

/- The class of a fault. -/
def kind (f : Fault R) : FaultKind :=
  f.cause.kind

/- The fault blamed on a node, unless a node is blamed already. -/
def atNode (f : Fault R) (id : Nat) : Fault R :=
  { f with node := some (f.node.getD id) }

/- Whether a quantity only lacks a numeric value or a supported form. -/
def isUnsupported (f : Fault R) : Bool :=
  f.kind == .unsupported

end Fault

/- A computation that may end in a fault without a node. -/
def refuse {R α : Type} (cause : Cause R) : Except (Fault R) α :=
  .error ⟨cause, none⟩

end QuantumLab
