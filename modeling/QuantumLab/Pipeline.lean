import QuantumLab.Plan.Execution
import QuantumLab.Plan.Lowering
import QuantumLab.Report

/-
  This file runs programs through all stages and words the
  log of a stage that fails.

  Key definitions include:
    * `Stage`
    * `Halt`
    * `Stop.log`, `LoweringStop.log`, `ExecutionStop.log`
    * `Options`
    * `Program.run`
-/

namespace QuantumLab

variable {R : Type} [Arithmetic R]

------------------------------------------------------------
-- Logs
------------------------------------------------------------

/- The line about something that failed. -/
def failureLine (subject : String) (fault : Fault R) : String :=
  subject ++ ": " ++ fault.text ++ "\n"

/- The log of a walk that a statement ended. -/
def Stop.log (activity : String) (stop : Stop R) : String :=
  failureLine
    (activity ++ " of declaration " ++ Cause.quote stop.declaration
      ++ " failed")
    stop.fault

/- The log of a lowering that failed. -/
def LoweringStop.log : LoweringStop R → String
  | statement stop => stop.log "Lowering"
  | malformed fault => failureLine "Lowered program is malformed" fault

/- The log of an execution that failed. -/
def Plan.ExecutionStop.log : Plan.ExecutionStop R → String
  | backend fault => failureLine "Execution failed" fault
  | experiment name fault =>
      failureLine
        ("Execution of experiment " ++ Cause.quote name ++ " failed")
        fault

------------------------------------------------------------
-- Stages
------------------------------------------------------------

/-
  The stages that a program goes through.
-/
inductive Stage where
  | typing
  | validation
  | lowering
  | execution
deriving DecidableEq, Repr

/-
  The stage that failed, its fault and its log.
-/
structure Halt (R : Type) where
  stage : Stage
  fault : Fault R
  log : String
deriving DecidableEq, Repr

/-
  What a run may choose: the tolerances and the backend.
-/
structure Options (R : Type) where
  validationTolerance : R
  imaginaryTolerance : R
  config : BackendConfig
deriving DecidableEq, Repr

/- The choices of a run that makes none. -/
def Options.default : Options R where
  validationTolerance := defaultValidationTolerance
  imaginaryTolerance := Plan.defaultImaginaryTolerance
  config := {}

/- The first stage. -/
def Program.typedStage
    (program : Program R) : Except (Halt R) (TypedProgram R) :=
  program.typed.mapError fun stop =>
    ⟨.typing, stop.fault, stop.log "Shape check"⟩

/- The second stage. -/
def TypedProgram.validatedStage
    (options : Options R)
    (typed : TypedProgram R) : Except (Halt R) (ValidatedProgram R) :=
  (typed.validated options.validationTolerance).mapError fun stop =>
    ⟨.validation, stop.fault, stop.log "Validation"⟩

/- The third stage. -/
def ValidatedProgram.planStage
    (p : ValidatedProgram R) : Except (Halt R) (Plan R) :=
  p.plan.mapError fun stop => ⟨.lowering, stop.fault, stop.log⟩

/- The last stage. -/
def Plan.executionStage
    (options : Options R)
    (plan : Plan R) : Except (Halt R) (ExecutionResult R × Nat) :=
  (plan.execute options.config options.imaginaryTolerance).mapError
    fun stop => ⟨.execution, stop.fault, stop.log⟩

------------------------------------------------------------
-- Runs
------------------------------------------------------------

/- The plan of a program that passes the stages before execution. -/
def Program.plan
    (options : Options R)
    (program : Program R) : Except (Halt R) (Plan R) := do
  let typed ← program.typedStage
  let validated ← typed.validatedStage options
  validated.planStage

/- The results of a program and the number of nodes computed. -/
def Program.run
    (options : Options R)
    (program : Program R) :
    Except (Halt R) (ExecutionResult R × Nat) := do
  let plan ← program.plan options
  plan.executionStage options

end QuantumLab
