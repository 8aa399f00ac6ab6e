import QuantumLab.Document.Value
import QuantumLab.Json.Parse
import QuantumLab.Plan.Basic

/-
  This file writes and reads execution plans and backend
  choices as documents.

  Key definitions include:
    * `Operation.members`, `Operation.ofJson`
    * `Node.toJson`, `Node.ofJson`
    * `PlannedExperiment.toJson`, `PlannedExperiment.ofJson`
    * `Plan.toJson`, `Plan.ofJson`
    * `Plan.parse`
    * `BackendConfig.toJson`, `BackendConfig.ofJson`
-/

namespace QuantumLab

------------------------------------------------------------
-- Nodes
------------------------------------------------------------

/- A dissipation channel as its operator and its rate. -/
def Jump.toJson (jump : Jump Float) : Json :=
  .ofMembers [("operator", .nat jump.operator), ("rate", .real jump.rate)]

/- The dissipation channel of a document. -/
def Jump.ofJson (j : Json) : Decode (Jump Float) := do
  let operator ← (← j.field "operator").asNat
  let rate ← (← j.field "rate").asReal
  return ⟨operator, rate⟩

namespace Operation

/- The members that an operation has besides its name. -/
def members : Operation Float → List (String × Json)
  | loadMatrix name data => [("name", .str name), ("data", data.toJson)]
  | loadVector name data => [("name", .str name), ("data", data.toJson)]
  | scalar name value => [("name", .str name), ("value", value.toJson)]
  | matrixAdd lhs rhs => [("lhs", .nat lhs), ("rhs", .nat rhs)]
  | matrixMul lhs rhs => [("lhs", .nat lhs), ("rhs", .nat rhs)]
  | scalarMul factor operand =>
      [("scalar", .nat factor), ("operand", .nat operand)]
  | tensorProduct lhs rhs => [("lhs", .nat lhs), ("rhs", .nat rhs)]
  | dagger operand => [("operand", .nat operand)]
  | trace operand => [("operand", .nat operand)]
  | commutator lhs rhs => [("lhs", .nat lhs), ("rhs", .nat rhs)]
  | matrixExp operand => [("operand", .nat operand)]
  | unitaryPropagator hamiltonian time =>
      [("hamiltonian", .nat hamiltonian), ("time", .real time)]
  | applyUnitaryKet unitary ket =>
      [("unitary", .nat unitary), ("ket", .nat ket)]
  | applyUnitaryRho unitary rho =>
      [("unitary", .nat unitary), ("rho", .nat rho)]
  | integrateLindblad hamiltonian initialState jumps times =>
      [("hamiltonian", .nat hamiltonian),
        ("initial_state", .nat initialState),
        ("operators", Json.ofList Jump.toJson jumps),
        ("times", Json.ofList Json.real times)]
  | measureExpectation observable state =>
      [("observable", .nat observable), ("state", .nat state)]
  | measureProjective projectors state =>
      [("projectors", Json.ofList Json.nat projectors),
        ("state", .nat state)]

/- The operation of a document, with members read from left to right. -/
def ofJson (j : Json) : Decode (Operation Float) := do
  let word ← (← j.field "op").asString
  let id (name : String) : Decode NodeId := do
    (← j.field name).asNat
  match word with
  | "LoadMatrix" => do
      let name ← (← j.field "name").asString
      let data ← Mat.ofJson (← j.field "data")
      return loadMatrix name data
  | "LoadVector" => do
      let name ← (← j.field "name").asString
      let data ← Vec.ofJson (← j.field "data")
      return loadVector name data
  | "Scalar" => do
      let name ← (← j.field "name").asString
      let value ← Scalar.ofJson (← j.field "value")
      return scalar name value
  | "MatrixAdd" => return matrixAdd (← id "lhs") (← id "rhs")
  | "MatrixMul" => return matrixMul (← id "lhs") (← id "rhs")
  | "ScalarMul" => return scalarMul (← id "scalar") (← id "operand")
  | "TensorProduct" => return tensorProduct (← id "lhs") (← id "rhs")
  | "Dagger" => return dagger (← id "operand")
  | "Trace" => return trace (← id "operand")
  | "Commutator" => return commutator (← id "lhs") (← id "rhs")
  | "MatrixExp" => return matrixExp (← id "operand")
  | "UnitaryPropagator" => do
      let hamiltonian ← id "hamiltonian"
      let time ← (← j.field "time").asReal
      return unitaryPropagator hamiltonian time
  | "ApplyUnitaryKet" =>
      return applyUnitaryKet (← id "unitary") (← id "ket")
  | "ApplyUnitaryRho" =>
      return applyUnitaryRho (← id "unitary") (← id "rho")
  | "IntegrateLindblad" => do
      let hamiltonian ← id "hamiltonian"
      let initialState ← id "initial_state"
      let jumps ← (← j.field "operators").elements.mapM Jump.ofJson
      let times ← (← j.field "times").asList Json.asReal
      return integrateLindblad hamiltonian initialState jumps times
  | "MeasureExpectation" =>
      return measureExpectation (← id "observable") (← id "state")
  | "MeasureProjective" => do
      let projectors ← (← j.field "projectors").asList Json.asNat
      let state ← id "state"
      return measureProjective projectors state
  | _ => reject ("parseOperation: unknown op " ++ word)

end Operation

/- A node as its position, the name of its operation and its members. -/
def Node.toJson (node : Node Float) : Json :=
  .ofMembers
    (("id", .nat node.id) :: ("op", .str node.operation.word)
      :: node.operation.members)

/- The node of a document. -/
def Node.ofJson (j : Json) : Decode (Node Float) := do
  let id ← (← j.field "id").asNat
  let operation ← Operation.ofJson j
  return ⟨id, operation⟩

------------------------------------------------------------
-- Experiments
------------------------------------------------------------

/- The kind of measurement of a document. -/
def OutcomeKind.ofJson (j : Json) : Decode OutcomeKind := do
  let word ← j.asString
  known ("parseMeasurementKind: unknown measurement kind " ++ word)
    (ofWord? word)

/- The method of evolution of a document. -/
def EvolutionMethod.ofJson (j : Json) : Decode EvolutionMethod := do
  let word ← j.asString
  known ("parseEvolutionMethod: unknown evolution method " ++ word)
    (ofWord? word)

/- An evolution as its method, Hamiltonian, channels and times. -/
def PlannedEvolution.toJson (evolution : PlannedEvolution Float) : Json :=
  .ofMembers
    [("method", .str evolution.method.word),
      ("hamiltonian", .nat evolution.hamiltonian),
      ("operators", Json.ofList Jump.toJson evolution.jumps),
      ("times", Json.ofList Json.real evolution.times)]

/- The evolution of a document. -/
def PlannedEvolution.ofJson
    (j : Json) : Decode (PlannedEvolution Float) := do
  let method ← EvolutionMethod.ofJson (← j.field "method")
  let hamiltonian ← (← j.field "hamiltonian").asNat
  let jumps ← (← j.field "operators").elements.mapM Jump.ofJson
  let times ← (← j.field "times").asList Json.asReal
  return ⟨method, hamiltonian, jumps, times⟩

/- A measurement as its name, time index, kind and operators. -/
def PlannedMeasurement.toJson (m : PlannedMeasurement) : Json :=
  .ofMembers
    [("name", .str m.name),
      ("time_index", .nat m.timeIndex),
      ("kind", .str m.kind.word),
      ("operators", Json.ofList Json.nat m.operators)]

/- The measurement of a document. -/
def PlannedMeasurement.ofJson (j : Json) : Decode PlannedMeasurement := do
  let name ← (← j.field "name").asString
  let timeIndex ← (← j.field "time_index").asNat
  let kind ← OutcomeKind.ofJson (← j.field "kind")
  let operators ← (← j.field "operators").asList Json.asNat
  return ⟨name, timeIndex, kind, operators⟩

/- An experiment; one without an evolution has null in its place. -/
def PlannedExperiment.toJson (e : PlannedExperiment Float) : Json :=
  .ofMembers
    [("name", .str e.name),
      ("initial_state", .nat e.initialState),
      ("evolution", Json.ofOption PlannedEvolution.toJson e.evolution),
      ("measurements",
        Json.ofList PlannedMeasurement.toJson e.measurements)]

/- The experiment of a document. -/
def PlannedExperiment.ofJson
    (j : Json) : Decode (PlannedExperiment Float) := do
  let name ← (← j.field "name").asString
  let initialState ← (← j.field "initial_state").asNat
  let evolution ← j.nullable "evolution" PlannedEvolution.ofJson
  let serialized ← j.fieldOr "measurements" .ok (.arr [])
  let measurements ← serialized.elements.mapM PlannedMeasurement.ofJson
  return ⟨name, initialState, evolution, measurements⟩

------------------------------------------------------------
-- Plans
------------------------------------------------------------

namespace Plan

/- A plan as its nodes and its experiments. -/
def toJson (plan : Plan Float) : Json :=
  .ofMembers
    [("nodes", Json.ofList Node.toJson plan.nodeList),
      ("experiments",
        Json.ofList PlannedExperiment.toJson plan.experiments)]

/- The operations of nodes, which have to be numbered from `position` on. -/
def readNodes
    (position : Nat) : List Json → Decode (List (Operation Float))
  | [] => .ok []
  | j :: rest => do
      let node ← Node.ofJson j
      if node.id = position then
        let later ← readNodes (position + 1) rest
        return node.operation :: later
      else
        reject ("from_json: node ids must be consecutive starting at 0 "
          ++ "but found id " ++ Nat.repr node.id ++ " at position "
          ++ Nat.repr position)

/- The plan of a document. -/
def ofJson (j : Json) : Decode (Plan Float) := do
  let operations ← readNodes 0 (← j.field "nodes").elements
  let serialized ← j.fieldOr "experiments" .ok (.arr [])
  let experiments ← serialized.elements.mapM PlannedExperiment.ofJson
  return ⟨operations.toArray, experiments⟩

end Plan

/- The value that a text stands for. -/
def parseDocument (text : String) : Decode Json :=
  match Json.parse? text with
  | some j => .ok j
  | none => malformed

/-
  What a reader makes of a text; a fault of the document
  becomes one of the subject.
-/
def readDocument
    {α : Type}
    (subject : String)
    (decode : Json → Decode α)
    (text : String) : Except (Fault Float) α :=
  match parseDocument text >>= decode with
  | .ok x => .ok x
  | .error fault => refuse (.malformedDocument subject fault.reason)

/- The plan of a text, which has to verify. -/
def Plan.parse (text : String) : Except (Fault Float) (Plan Float) := do
  let plan ← readDocument "IR program" Plan.ofJson text
  plan.verify
  return plan

------------------------------------------------------------
-- Backends
------------------------------------------------------------

/-
  A backend choice; without a number of threads it has null
  in its place.
-/
def BackendConfig.toJson (config : BackendConfig) : Json :=
  .ofMembers
    [("backend_type", .str config.backend.word),
      ("num_threads", Json.ofOption Json.nat config.threads)]

/- The backend choice of a document. -/
def BackendConfig.ofJson (j : Json) : Decode BackendConfig := do
  let word ← j.fieldOr "backend_type" Json.asString Backend.cpuDense.word
  let backend ← known ("parseBackendType: unknown backend type " ++ word)
    (Backend.ofWord? word)
  let threads ← j.nullable "num_threads" Json.asNat
  return ⟨backend, threads⟩

end QuantumLab
