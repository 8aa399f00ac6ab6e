import QuantumLab.Program.Expression
import QuantumLab.TimeGrid

/-
  This file defines the statements of programs.

  Key definitions include:
    * `InitialState`, `LindbladTerm`, `Evolution`, `Event`
    * `Experiment`
    * `Statement`
    * `Statement.name`
    * `Program`
-/

namespace QuantumLab

------------------------------------------------------------
-- Parts of experiments
------------------------------------------------------------

/-
  How an initial state is given: as a ket or as a density
  matrix.
-/
inductive StateKind where
  | ket
  | rho
deriving DecidableEq, Repr

/-
  The initial state of an experiment.
-/
structure InitialState (R : Type) where
  kind : StateKind
  value : Expr R
deriving Repr

/-
  A dissipation term: the name of a jump operator and its
  rate.
-/
structure LindbladTerm (R : Type) where
  operator : String
  rate : Expr R
deriving Repr

/-
  The evolution of an experiment.
-/
structure Evolution (R : Type) where
  state : String
  hamiltonian : String
  grid : TimeGrid R
  terms : List (LindbladTerm R)
deriving Repr

/-
  A measurement or an observable at a time.
-/
structure Event (R : Type) where
  time : R
  measurement : String
deriving DecidableEq, Repr

/-
  An experiment: a state, its evolution and a schedule of
  measurements.
-/
structure Experiment (R : Type) where
  name : String
  initialState : Option (InitialState R)
  evolution : Option (Evolution R)
  schedule : List (Event R)
deriving Repr

------------------------------------------------------------
-- Statements
------------------------------------------------------------

/-
  The kinds of measurement definitions.
-/
inductive MeasurementKind where
  | projective
  | povm
deriving DecidableEq, Repr

/- The name of a kind of measurement. -/
def MeasurementKind.word : MeasurementKind → String
  | projective => "Projective"
  | povm => "POVM"

/-
  A statement of a program.  A statement that a front end
  left out is `empty`.
-/
inductive Statement (R : Type) where
  | empty
  | const (name : String) (value : Expr R)
  | symbol (name : String)
  | matrix (name : String) (value : Expr R)
  | function (name : String) (parameters : List String) (body : Expr R)
  | hamiltonian
      (name : String)
      (parameters : List String)
      (expression : Expr R)
  | measurement
      (name : String)
      (kind : MeasurementKind)
      (operators : List (Expr R))
  | experiment (experiment : Experiment R)
deriving Repr

/- The name that a statement declares, empty for an empty statement. -/
def Statement.name {R : Type} : Statement R → String
  | empty => ""
  | const name _ => name
  | symbol name => name
  | matrix name _ => name
  | function name _ _ => name
  | hamiltonian name _ _ => name
  | measurement name _ _ => name
  | experiment e => e.name

/- A program is a list of statements, in order. -/
abbrev Program (R : Type) :=
  List (Statement R)

/- The name of one operator of a measurement. -/
def operatorName (measurement : String) (k : Nat) : String :=
  measurement ++ "[" ++ Nat.repr k ++ "]"

/- The name under which an experiment's initial state is recorded. -/
def initialStateName (experiment : String) : String :=
  experiment ++ ".init"

end QuantumLab
