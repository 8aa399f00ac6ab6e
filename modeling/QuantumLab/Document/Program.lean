import QuantumLab.Document.Plan
import QuantumLab.Validation.Validator

/-
  This file writes and reads programs and what was
  established about them as documents.

  Key definitions include:
    * `Json.depth`
    * `Expr.toJson`, `Expr.ofJson`
    * `TimeGrid.toJson`, `TimeGrid.ofJson`
    * `Statement.toJson`, `Statement.ofJson`
    * `Program.toJson`, `Program.ofJson`
    * `TypedProgram.toJson`, `TypedProgram.ofJson`
    * `ValidationResults.toJson`, `ValidationResults.ofJson`
    * `ValidatedProgram.toJson`, `ValidatedProgram.ofJson`
    * `ValidatedProgram.parse`
-/

namespace QuantumLab

------------------------------------------------------------
-- Expressions
------------------------------------------------------------

namespace Json

mutual

/- How deep a value is nested. -/
def depth : Json → Nat
  | arr xs => depthOfElements xs + 1
  | obj members => depthOfMembers members + 1
  | _ => 1

/- How deep the elements of an array are nested. -/
def depthOfElements : List Json → Nat
  | [] => 0
  | x :: rest => max (depth x) (depthOfElements rest)

/- How deep the members of an object are nested. -/
def depthOfMembers : List (String × Json) → Nat
  | [] => 0
  | (_, x) :: rest => max (depth x) (depthOfMembers rest)

end

end Json

namespace Expr

mutual

/- An expression with the name of its form; a missing one is null. -/
def toJson : Expr Float → Json
  | missing => .null
  | number z =>
      .ofMembers [("expr", .str "Number"), ("value", z.toJson)]
  | identifier name =>
      .ofMembers [("expr", .str "Identifier"), ("name", .str name)]
  | matrix rows =>
      .ofMembers
        [("expr", .str "Matrix"), ("rows", .arr (rowsToJson rows))]
  | vector elements =>
      .ofMembers
        [("expr", .str "Vector"),
          ("elements", .arr (elementsToJson elements))]
  | binary op lhs rhs =>
      .ofMembers
        [("expr", .str "Binary"),
          ("operation", .str op.word),
          ("lhs", toJson lhs),
          ("rhs", toJson rhs)]
  | unary op operand =>
      .ofMembers
        [("expr", .str "Unary"),
          ("operation", .str op.word),
          ("operand", toJson operand)]
  | call function arguments =>
      .ofMembers
        [("expr", .str "Call"),
          ("function", .str function),
          ("arguments", .arr (elementsToJson arguments))]

/- Expressions one by one. -/
def elementsToJson : List (Expr Float) → List Json
  | [] => []
  | e :: rest => toJson e :: elementsToJson rest

/- Rows of expressions one by one. -/
def rowsToJson : List (List (Expr Float)) → List Json
  | [] => []
  | row :: rest => .arr (elementsToJson row) :: rowsToJson rest

end

/- The operation on two operands of a document. -/
def readBinaryOp (j : Json) : Decode BinaryOp := do
  let word ← j.asString
  known ("expressionFromJson: unknown value " ++ word)
    (BinaryOp.ofWord? word)

/- The operation on one operand of a document. -/
def readUnaryOp (j : Json) : Decode UnaryOp := do
  let word ← j.asString
  known ("expressionFromJson: unknown value " ++ word)
    (UnaryOp.ofWord? word)

/-
  The expression of a document that is nested less than
  `fuel` deep.  Of two operands the right one is read first,
  of an operation on one operand the operand, and of a call
  the arguments.
-/
def ofJsonWithin : (fuel : Nat) → Json → Decode (Expr Float)
  | _, .null => .ok missing
  | 0, _ => malformed
  | fuel + 1, j => do
      let form ← (← j.field "expr").asString
      let readAll (j : Json) : Decode (List (Expr Float)) :=
        j.elements.mapM (ofJsonWithin fuel)
      match form with
      | "Number" => do
          let z ← Scalar.ofJson (← j.field "value")
          return number z
      | "Identifier" => do
          let name ← (← j.field "name").asString
          return identifier name
      | "Matrix" => do
          let rows ← (← j.field "rows").elements.mapM readAll
          return matrix rows
      | "Vector" => do
          let elements ← readAll (← j.field "elements")
          return vector elements
      | "Binary" => do
          let rhs ← ofJsonWithin fuel (← j.field "rhs")
          let op ← readBinaryOp (← j.field "operation")
          let lhs ← ofJsonWithin fuel (← j.field "lhs")
          return binary op lhs rhs
      | "Unary" => do
          let operand ← ofJsonWithin fuel (← j.field "operand")
          let op ← readUnaryOp (← j.field "operation")
          return unary op operand
      | "Call" => do
          let arguments ← readAll (← j.field "arguments")
          let function ← (← j.field "function").asString
          return call function arguments
      | _ => reject ("expressionFromJson: unknown expression " ++ form)

/- The expression of a document. -/
def ofJson (j : Json) : Decode (Expr Float) :=
  ofJsonWithin j.depth j

end Expr

------------------------------------------------------------
-- Parts of experiments
------------------------------------------------------------

/- The name of a kind of state in documents. -/
def StateKind.word : StateKind → String
  | ket => "Ket"
  | rho => "Rho"

/- An initial state as its kind and its value. -/
def InitialState.toJson (state : InitialState Float) : Json :=
  .ofMembers
    [("kind", .str state.kind.word), ("value", state.value.toJson)]

/- The initial state of a document; null stands for none. -/
def InitialState.ofJson : Json → Decode (Option (InitialState Float))
  | .null => .ok none
  | j => do
      let word ← (← j.field "kind").asString
      let kind ← known
        ("initialStateFromJson: unknown state kind " ++ word)
        ([StateKind.ket, .rho].find? (fun kind => kind.word == word))
      let value ← Expr.ofJson (← j.field "value")
      return some ⟨kind, value⟩

/- A time grid as its kind and its numbers. -/
def TimeGrid.toJson : TimeGrid Float → Json
  | regular start step steps =>
      .ofMembers
        [("kind", .str "Regular"),
          ("start", .real start),
          ("step", .real step),
          ("num_steps", .nat steps)]
  | points times =>
      .ofMembers
        [("kind", .str "Explicit"),
          ("times", Json.ofList Json.real times)]

/- The time grid of a document. -/
def TimeGrid.ofJson (j : Json) : Decode (TimeGrid Float) := do
  let kind ← (← j.field "kind").asString
  match kind with
  | "Regular" => do
      let steps ← (← j.field "num_steps").asNat
      let step ← (← j.field "step").asReal
      let start ← (← j.field "start").asReal
      return regular start step steps
  | "Explicit" => do
      let times ← (← j.field "times").asList Json.asReal
      return points times
  | _ => reject ("timeGridFromJson: unknown time grid kind " ++ kind)

/- A dissipation term as its operator and its rate. -/
def LindbladTerm.toJson (term : LindbladTerm Float) : Json :=
  .ofMembers
    [("operator", .str term.operator), ("rate", term.rate.toJson)]

/- The dissipation term of a document. -/
def LindbladTerm.ofJson (j : Json) : Decode (LindbladTerm Float) := do
  let operator ← (← j.field "operator").asString
  let rate ← Expr.ofJson (← j.field "rate")
  return ⟨operator, rate⟩

/- An evolution. -/
def Evolution.toJson (evolution : Evolution Float) : Json :=
  .ofMembers
    [("state", .str evolution.state),
      ("hamiltonian", .str evolution.hamiltonian),
      ("time_grid", evolution.grid.toJson),
      ("lindblad_terms",
        Json.ofList LindbladTerm.toJson evolution.terms)]

/- The evolution of a document, its terms first; null stands for none. -/
def Evolution.ofJson : Json → Decode (Option (Evolution Float))
  | .null => .ok none
  | j => do
      let serialized ← j.fieldOr "lindblad_terms" .ok (.arr [])
      let terms ← serialized.elements.mapM LindbladTerm.ofJson
      let state ← j.fieldOr "state" Json.asString ""
      let hamiltonian ← (← j.field "hamiltonian").asString
      let grid ← TimeGrid.ofJson (← j.field "time_grid")
      return some ⟨state, hamiltonian, grid, terms⟩

/- A scheduled measurement as its time and its name. -/
def Event.toJson (event : Event Float) : Json :=
  .ofMembers
    [("time", .real event.time), ("measurement", .str event.measurement)]

/- The scheduled measurement of a document. -/
def Event.ofJson (j : Json) : Decode (Event Float) := do
  let time ← (← j.field "time").asReal
  let measurement ← (← j.field "measurement").asString
  return ⟨time, measurement⟩

------------------------------------------------------------
-- Statements
------------------------------------------------------------

/- The kind of a measurement definition of a document. -/
def MeasurementKind.ofJson (j : Json) : Decode MeasurementKind := do
  let word ← j.asString
  known ("statementFromJson: unknown measurement kind " ++ word)
    ([projective, povm].find? (fun kind => kind.word == word))

/- An experiment; what it leaves out is null. -/
def Experiment.toJson (e : Experiment Float) : Json :=
  .ofMembers
    [("statement", .str "Experiment"),
      ("name", .str e.name),
      ("initial_state",
        Json.ofOption InitialState.toJson e.initialState),
      ("evolution", Json.ofOption Evolution.toJson e.evolution),
      ("measurements", Json.ofList Event.toJson e.schedule)]

/- The experiment of a document with the given name, its schedule first. -/
def Experiment.ofJson
    (name : String)
    (j : Json) : Decode (Experiment Float) := do
  let serialized ← j.fieldOr "measurements" .ok (.arr [])
  let schedule ← serialized.elements.mapM Event.ofJson
  let evolution ← j.fieldOr "evolution" Evolution.ofJson none
  let initialState ← j.fieldOr "initial_state" InitialState.ofJson none
  return ⟨name, initialState, evolution, schedule⟩

/- A statement with the name of its form; an empty one has no document. -/
def Statement.toJson : Statement Float → Decode Json
  | empty => reject "statementToJson: empty statement"
  | const name value =>
      .ok (.ofMembers
        [("statement", .str "Const"),
          ("name", .str name),
          ("value", value.toJson)])
  | symbol name =>
      .ok (.ofMembers
        [("statement", .str "Symbol"), ("name", .str name)])
  | matrix name value =>
      .ok (.ofMembers
        [("statement", .str "Matrix"),
          ("name", .str name),
          ("value", value.toJson)])
  | function name parameters body =>
      .ok (.ofMembers
        [("statement", .str "Function"),
          ("name", .str name),
          ("parameters", Json.ofList Json.str parameters),
          ("body", body.toJson)])
  | hamiltonian name parameters expression =>
      .ok (.ofMembers
        [("statement", .str "Hamiltonian"),
          ("name", .str name),
          ("parameters", Json.ofList Json.str parameters),
          ("expression", expression.toJson)])
  | measurement name kind operators =>
      .ok (.ofMembers
        [("statement", .str "Measurement"),
          ("name", .str name),
          ("kind", .str kind.word),
          ("operators", Json.ofList Expr.toJson operators)])
  | experiment e => .ok e.toJson

/-
  The statement of a document.  Of a definition with
  parameters the body is read before them.
-/
def Statement.ofJson (j : Json) : Decode (Statement Float) := do
  let form ← (← j.field "statement").asString
  let name ← (← j.field "name").asString
  match form with
  | "Const" => do
      let value ← Expr.ofJson (← j.field "value")
      return const name value
  | "Symbol" => return symbol name
  | "Matrix" => do
      let value ← Expr.ofJson (← j.field "value")
      return matrix name value
  | "Function" => do
      let body ← Expr.ofJson (← j.field "body")
      let parameters ← (← j.field "parameters").asList Json.asString
      return function name parameters body
  | "Hamiltonian" => do
      let expression ← Expr.ofJson (← j.field "expression")
      let parameters ←
        j.fieldOr "parameters" (Json.asList Json.asString) []
      return hamiltonian name parameters expression
  | "Measurement" => do
      let kind ← MeasurementKind.ofJson (← j.field "kind")
      let operators ← (← j.field "operators").elements.mapM Expr.ofJson
      return measurement name kind operators
  | "Experiment" => do
      let e ← Experiment.ofJson name j
      return experiment e
  | _ => reject ("statementFromJson: unknown statement " ++ form)

------------------------------------------------------------
-- Programs
------------------------------------------------------------

/- A program as its statements. -/
def Program.toJson (program : Program Float) : Decode Json := do
  let statements ← program.mapM Statement.toJson
  return .arr statements

/- The program of a document. -/
def Program.ofJson (j : Json) : Decode (Program Float) :=
  j.elements.mapM Statement.ofJson

/- A typed program as its statements and shapes. -/
def TypedProgram.toJson (typed : TypedProgram Float) : Decode Json := do
  let statements ← typed.program.toJson
  return .ofMembers
    [("statements", statements),
      ("shapes", Json.ofTable Shape.toJson typed.shapes)]

/- The typed program of a document. -/
def TypedProgram.ofJson (j : Json) : Decode (TypedProgram Float) := do
  let program ← Program.ofJson (← j.field "statements")
  let shapes ← (← j.field "shapes").asTable Shape.ofJson
  return ⟨program, shapes⟩

namespace ValidationResults

/- What was established about operators. -/
def toJson (results : ValidationResults Float) : Json :=
  .ofMembers
    [("hermitian_operators", Json.ofTable Json.bool results.hermitian),
      ("psd_operators", Json.ofTable Json.bool results.psd),
      ("trace_values", Json.ofTable Scalar.toJson results.traces)]

/- The scalars of a value that is iterated together with names. -/
def readTraces (j : Json) : Decode (Table (Scalar Float)) := do
  let rows ← j.namedElements.mapM fun row => do
    let z ← Scalar.ofJson row.2
    return (row.1, z)
  return Table.ofList rows

/- What a document says about operators. -/
def ofJson (j : Json) : Decode (ValidationResults Float) := do
  let hermitian ←
    (← j.field "hermitian_operators").asTable Json.asBool
  let psd ← (← j.field "psd_operators").asTable Json.asBool
  let traces ← readTraces (← j.field "trace_values")
  return ⟨hermitian, psd, traces⟩

end ValidationResults

namespace ValidatedProgram

/- A validated program as its typed program and what was established. -/
def toJson (p : ValidatedProgram Float) : Decode Json := do
  let typed ← p.typed.toJson
  return .ofMembers
    [("typed_program", typed),
      ("validation_results", p.results.toJson)]

/- The validated program of a document. -/
def ofJson (j : Json) : Decode (ValidatedProgram Float) := do
  let typed ← TypedProgram.ofJson (← j.field "typed_program")
  let results ← ValidationResults.ofJson (← j.field "validation_results")
  return ⟨typed, results⟩

/- The validated program of a text. -/
def parse (text : String) : Except (Fault Float) (ValidatedProgram Float) :=
  readDocument "validated program" ofJson text

end ValidatedProgram

end QuantumLab
