import QuantumLab.Evaluation.Environment
import QuantumLab.Typing
import QuantumLab.Validation.Invariant

/-
  This file validates programs: every declaration with a
  value is evaluated, and operators, states, rates and time
  grids are checked against the physical invariants.

  Key definitions include:
    * `ValidationResults`
    * `Validator`
    * `Validator.check`
    * `ValidatedProgram`
    * `TypedProgram.validated`
-/

namespace QuantumLab

open Arithmetic

------------------------------------------------------------
-- Results
------------------------------------------------------------

/-
  What was established about operators by name.
-/
structure ValidationResults (R : Type) where
  hermitian : Table Bool
  psd : Table Bool
  traces : Table (Scalar R)
deriving DecidableEq, Repr

/- Nothing established. -/
def ValidationResults.empty {R : Type} : ValidationResults R :=
  ⟨.empty, .empty, .empty⟩

/- The results with an operator noted as Hermitian. -/
def ValidationResults.noteHermitian
    {R : Type}
    (results : ValidationResults R)
    (name : String) : ValidationResults R :=
  { results with hermitian := results.hermitian.insert name true }

/- The results with an operator noted as positive. -/
def ValidationResults.notePositive
    {R : Type}
    (results : ValidationResults R)
    (name : String) : ValidationResults R :=
  { results.noteHermitian name with psd := results.psd.insert name true }

/- The results with an operator noted as a density matrix. -/
def ValidationResults.noteState
    {R : Type}
    (results : ValidationResults R)
    (name : String)
    (trace : Scalar R) : ValidationResults R :=
  { results.notePositive name with
    traces := results.traces.insert name trace }

------------------------------------------------------------
-- Validation of statements
------------------------------------------------------------

/-
  The state of a validation: the values of names, what was
  established, and the measurements defined so far.
-/
structure Validator (R : Type) where
  environment : Environment R
  results : ValidationResults R
  measurements : Names
deriving DecidableEq, Repr

namespace Validator

variable {R : Type} [Arithmetic R]

/- The state in which a validation starts. -/
def initial : Validator R :=
  ⟨.initial, .empty, .empty⟩

/- The state with a name set to a value. -/
def define
    (v : Validator R)
    (name : String)
    (value : Value R) : Validator R :=
  { v with environment := v.environment.define name value }

/- The state with a name known without a value. -/
def declareSymbolic (v : Validator R) (name : String) : Validator R :=
  { v with environment := v.environment.declareSymbolic name }

/- The state after the declaration of a quantity. -/
def checkQuantity
    (v : Validator R)
    (name : String)
    (value : Expr R) : Except (Fault R) (Validator R) := do
  match ← v.environment.evaluate? value with
  | some value => return v.define name value
  | none => return v.declareSymbolic name

/- The state after the definition of a Hamiltonian. -/
def checkHamiltonian
    (tolerance : R)
    (v : Validator R)
    (name : String)
    (parameters : List String)
    (expression : Expr R) : Except (Fault R) (Validator R) := do
  if !parameters.isEmpty then
    return v.declareSymbolic name
  match ← v.environment.evaluate? expression with
  | none => return v.declareSymbolic name
  | some (.matrix h) =>
      requireHermitian tolerance name h
      return { v with results := v.results.noteHermitian name }.define
        name (.matrix h)
  | some value =>
      refuse (.mismatch value.shape.square value.shape
        ("Hamiltonian " ++ Cause.quote name))

/- The matrices of the operators of a measurement, from number `k` on. -/
def operatorMatrices
    (env : Environment R)
    (name : String)
    (k : Nat) : List (Expr R) → Except (Fault R) (List (Mat R))
  | [] => .ok []
  | operator :: rest => do
      match ← env.evaluate operator with
      | .matrix a =>
          let later ← operatorMatrices env name (k + 1) rest
          return a :: later
      | value =>
          refuse (.mismatch value.shape.square value.shape
            ("measurement operator " ++ Cause.quote (operatorName name k)))

/- The results with each operator of a measurement noted. -/
def noteOperators
    (note : ValidationResults R → String → ValidationResults R)
    (results : ValidationResults R)
    (name : String)
    (count : Nat) : ValidationResults R :=
  (List.range count).foldl
    (fun results k => note results (operatorName name k)) results

/- The state after the definition of a measurement. -/
def checkMeasurement
    (tolerance : R)
    (v : Validator R)
    (name : String)
    (kind : MeasurementKind)
    (operators : List (Expr R)) : Except (Fault R) (Validator R) := do
  let matrices ← operatorMatrices v.environment name 0 operators
  let measurements := v.measurements.add name
  match kind with
  | .projective =>
      requireProjective tolerance name matrices
      let results := noteOperators
        ValidationResults.noteHermitian v.results name matrices.length
      return { v with results, measurements }
  | .povm =>
      requirePovm tolerance name matrices
      let results := noteOperators
        ValidationResults.notePositive v.results name matrices.length
      return { v with results, measurements }

------------------------------------------------------------
-- Validation of experiments
------------------------------------------------------------

/- The state after the initial state of an experiment. -/
def checkInitialState
    (tolerance : R)
    (v : Validator R)
    (e : Experiment R) : Except (Fault R) (Validator R) := do
  match e.initialState with
  | none => refuse (.noInitialState e.name)
  | some state =>
      let record := initialStateName e.name
      match state.kind, ← v.environment.evaluate state.value with
      | .ket, .vector ket =>
          requireNormalized tolerance record ket
          return v
      | .ket, value =>
          refuse (.mismatch value.shape.column value.shape
            ("initial ket of experiment " ++ Cause.quote e.name))
      | .rho, .matrix rho =>
          requirePositive tolerance record rho
          let trace ← requireUnitTrace tolerance record rho
          return { v with results := v.results.noteState record trace }
      | .rho, value =>
          refuse (.mismatch value.shape.square value.shape
            ("initial density matrix of experiment "
              ++ Cause.quote e.name))

/- Refuses an evolution whose time grid does not ascend. -/
def requireAscendingGrid
    (experiment : String)
    (grid : TimeGrid R) : Except (Fault R) Unit :=
  let times := grid.times
  if times.isEmpty then
    refuse (.violation .timeOrdering experiment 0.0
      "time grid of evolution must not be empty")
  else
    match firstUnordered? times with
    | none => .ok ()
    | some (step, difference) =>
        refuse (.violation .timeOrdering experiment difference
          ("time grid of evolution must be strictly increasing but step "
            ++ Nat.repr step ++ " is not"))

/- The matrix of a referenced operator, or none if it is symbolic. -/
def referencedMatrix
    (v : Validator R)
    (usage name : String) : Except (Fault R) (Option (Mat R)) :=
  if v.environment.isSymbolic name then
    .ok none
  else
    match v.environment.lookup name with
    | none => refuse (.undeclaredOperator usage name)
    | some (.matrix a) => .ok (some a)
    | some value =>
        refuse (.mismatch value.shape.square value.shape
          (usage ++ " " ++ Cause.quote name))

/-
  The state after a reference to an operator that has to be
  Hermitian.  An operator noted as Hermitian is not checked
  again.
-/
def checkObservable
    (tolerance : R)
    (v : Validator R)
    (usage name : String) : Except (Fault R) (Validator R) := do
  match ← v.referencedMatrix usage name with
  | none => return v
  | some a =>
      if v.results.hermitian.contains name then
        return v
      else
        requireHermitian tolerance name a
        return { v with results := v.results.noteHermitian name }

/- The text of a use of a rate. -/
def rateUsage (operator : String) : String :=
  "rate of Lindblad operator " ++ Cause.quote operator

/-
  Refuses a dissipation term without an operator or with a
  negative rate.
-/
def requireTerm
    (v : Validator R)
    (experiment : String)
    (term : LindbladTerm R) : Except (Fault R) Unit := do
  let _ ← v.referencedMatrix "Lindblad operator" term.operator
  match v.environment.evaluateReal (rateUsage term.operator) term.rate with
  | .ok rate =>
      if less rate 0.0 then
        refuse (.violation .dissipationRate term.operator rate
          ("rate of Lindblad operator in experiment "
            ++ Cause.quote experiment ++ " must not be negative"))
      else
        .ok ()
  | .error fault =>
      if fault.isUnsupported then .ok () else .error fault

/- The state after the evolution of an experiment. -/
def checkEvolution
    (tolerance : R)
    (v : Validator R)
    (experiment : String) :
    Option (Evolution R) → Except (Fault R) (Validator R)
  | none => .ok v
  | some evolution => do
      requireAscendingGrid experiment evolution.grid
      let v ← checkObservable tolerance v
        "Hamiltonian" evolution.hamiltonian
      evolution.terms.forM (v.requireTerm experiment)
      return v

/- The state after a scheduled measurement or observable. -/
def checkEvent
    (tolerance : R)
    (v : Validator R)
    (event : Event R) : Except (Fault R) (Validator R) :=
  if v.measurements.contains event.measurement then .ok v
  else checkObservable tolerance v "observable" event.measurement

/- The state after an experiment. -/
def checkExperiment
    (tolerance : R)
    (v : Validator R)
    (e : Experiment R) : Except (Fault R) (Validator R) := do
  let v ← checkInitialState tolerance v e
  let v ← checkEvolution tolerance v e.name e.evolution
  e.schedule.foldlM (checkEvent tolerance) v

/- The state after a statement. -/
def check
    (tolerance : R)
    (v : Validator R) : Statement R → Except (Fault R) (Validator R)
  | .empty => refuse .emptyStatement
  | .const name value => v.checkQuantity name value
  | .symbol name => .ok (v.declareSymbolic name)
  | .matrix name value => v.checkQuantity name value
  | .function name _ _ => .ok (v.declareSymbolic name)
  | .hamiltonian name parameters expression =>
      checkHamiltonian tolerance v name parameters expression
  | .measurement name kind operators =>
      checkMeasurement tolerance v name kind operators
  | .experiment e => checkExperiment tolerance v e

end Validator

------------------------------------------------------------
-- Validated programs
------------------------------------------------------------

/-
  A typed program and what was established about it.
-/
structure ValidatedProgram (R : Type) where
  typed : TypedProgram R
  results : ValidationResults R
deriving Repr

/- The tolerance of a validation that asks for no other. -/
def defaultValidationTolerance {R : Type} [Arithmetic R] : R :=
  1e-10

/- The program with what was established, if it keeps all invariants. -/
def TypedProgram.validated
    {R : Type}
    [Arithmetic R]
    (tolerance : R)
    (typed : TypedProgram R) : Except (Stop R) (ValidatedProgram R) := do
  let v ← typed.program.walk (Validator.check tolerance) Validator.initial
  return ⟨typed, v.results⟩

end QuantumLab
