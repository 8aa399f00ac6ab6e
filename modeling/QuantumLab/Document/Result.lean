import QuantumLab.Document.Plan
import QuantumLab.Plan.Result
import QuantumLab.Report

/-
  This file writes and reads results and reports as
  documents.

  Key definitions include:
    * `Outcome.toJson`, `Outcome.ofJson`
    * `ExperimentResult.toJson`, `ExperimentResult.ofJson`
    * `ExecutionResult.toJson`, `ExecutionResult.ofJson`
    * `Report.toJson`, `Report.ofJson`
-/

namespace QuantumLab

------------------------------------------------------------
-- Results
------------------------------------------------------------

/- An outcome; one without an expectation has null in its place. -/
def Outcome.toJson (outcome : Outcome Float) : Json :=
  .ofMembers
    [("name", .str outcome.name),
      ("kind", .str outcome.kind.word),
      ("time_index", .nat outcome.timeIndex),
      ("time", .real outcome.time),
      ("probabilities", Json.ofList Json.real outcome.probabilities),
      ("expectation_value",
        Json.ofOption Json.real outcome.expectation)]

/- The outcome of a document. -/
def Outcome.ofJson (j : Json) : Decode (Outcome Float) := do
  let name ← (← j.field "name").asString
  let kind ← OutcomeKind.ofJson (← j.field "kind")
  let timeIndex ← (← j.field "time_index").asNat
  let time ← (← j.field "time").asReal
  let probabilities ← (← j.field "probabilities").asList Json.asReal
  let expectation ← j.nullable "expectation_value" Json.asReal
  return ⟨name, kind, timeIndex, time, probabilities, expectation⟩

/- The state type of a document. -/
def StateType.ofJson (j : Json) : Decode StateType := do
  let word ← j.asString
  known ("parseStateType: unknown state type " ++ word) (ofWord? word)

/- The result of an experiment. -/
def ExperimentResult.toJson (result : ExperimentResult Float) : Json :=
  .ofMembers
    [("name", .str result.name),
      ("times", Json.ofList Json.real result.times),
      ("state_type", .str result.stateType.word),
      ("measurements", Json.ofList Outcome.toJson result.outcomes)]

/- The result of an experiment of a document. -/
def ExperimentResult.ofJson
    (j : Json) : Decode (ExperimentResult Float) := do
  let name ← (← j.field "name").asString
  let times ← (← j.field "times").asList Json.asReal
  let stateType ← StateType.ofJson (← j.field "state_type")
  let outcomes ← (← j.field "measurements").asList Outcome.ofJson
  return ⟨name, times, stateType, outcomes⟩

/- The results of a plan. -/
def ExecutionResult.toJson (result : ExecutionResult Float) : Json :=
  .ofMembers
    [("experiments",
      Json.ofList ExperimentResult.toJson result.experiments)]

/- The results of a plan of a document. -/
def ExecutionResult.ofJson (j : Json) : Decode (ExecutionResult Float) := do
  let experiments ←
    (← j.field "experiments").asList ExperimentResult.ofJson
  return ⟨experiments⟩

------------------------------------------------------------
-- Reports
------------------------------------------------------------

/- A member for a value that is there. -/
def presentMember
    {α : Type}
    (name : String)
    (encode : α → Json) : Option α → List (String × Json)
  | some x => [(name, encode x)]
  | none => []

namespace Report

/-
  A report with the members that it carries.  The
  declaration goes with the invariant.
-/
def toJson (r : Report Float) : Json :=
  let invariant :=
    match r.invariant with
    | some invariant =>
        [("invariant", Json.str invariant.word),
          ("declaration_name", Json.str r.declaration)]
    | none => []
  .ofMembers
    ([("kind", Json.str r.kind.word), ("message", Json.str r.message)]
      ++ invariant
      ++ presentMember "deviation" Json.real r.deviation
      ++ presentMember "expected_shape" Shape.toJson r.expected
      ++ presentMember "actual_shape" Shape.toJson r.actual
      ++ presentMember "node_id" Json.nat r.node)

/- The invariant of a document. -/
def readInvariant (j : Json) : Decode Invariant := do
  let word ← j.asString
  known ("engineErrorFromJson: unknown invariant " ++ word)
    (Invariant.ofWord? word)

/-
  The report of a document.  Kind and invariant are read
  first, the other members from the last to the first.
-/
def ofJson (j : Json) : Decode (Report Float) := do
  let word ← (← j.field "kind").asString
  let kind ← known ("engineErrorFromJson: unknown error kind " ++ word)
    (FaultKind.ofWord? word)
  let invariant ← j.optional "invariant" readInvariant
  let node ← j.optional "node_id" Json.asNat
  let actual ← j.optional "actual_shape" Shape.ofJson
  let expected ← j.optional "expected_shape" Shape.ofJson
  let deviation ← j.optional "deviation" Json.asReal
  let declaration ← j.fieldOr "declaration_name" Json.asString ""
  let message ← (← j.field "message").asString
  return { kind, message, invariant, declaration, deviation, expected,
           actual, node }

end Report

end QuantumLab
