import QuantumLab.Plan.Basic

/-
  This file defines what the execution of a plan yields.

  Key definitions include:
    * `StateType`
    * `Outcome`
    * `ExperimentResult`
    * `ExecutionResult`
-/

namespace QuantumLab

/-
  Whether an experiment kept a ket or a density matrix.
-/
inductive StateType where
  | pure
  | density
deriving DecidableEq, Repr

namespace StateType

/- The name of a state type in documents. -/
def word : StateType → String
  | pure => "PureState"
  | density => "DensityMatrix"

/- The state type of a name. -/
def ofWord? (name : String) : Option StateType :=
  [pure, density].find? (fun type => type.word == name)

theorem ofWord?_word
    (type : StateType) :
    ofWord? type.word = some type := by
  cases type <;> decide

end StateType

/-
  The outcome of a measurement: one probability for each of
  its operators, or the expectation of an observable.
-/
structure Outcome (R : Type) where
  name : String
  kind : OutcomeKind
  timeIndex : Nat
  time : R
  probabilities : List R
  expectation : Option R
deriving DecidableEq, Repr

/-
  The outcomes of an experiment.
-/
structure ExperimentResult (R : Type) where
  name : String
  times : List R
  stateType : StateType
  outcomes : List (Outcome R)
deriving DecidableEq, Repr

/-
  The results of the experiments of a plan, in order.
-/
structure ExecutionResult (R : Type) where
  experiments : List (ExperimentResult R)
deriving DecidableEq, Repr

end QuantumLab
