import QuantumLab.Fault
import QuantumLab.Program.Statement

/-
  This file defines the walk of a stage over a program: the
  statements are taken in order, and the first fault ends
  the walk with the name of its statement.

  Key definitions include:
    * `Stop`
    * `Program.walk`
-/

namespace QuantumLab

/-
  The fault that ended a walk and the statement it came
  from.
-/
structure Stop (R : Type) where
  declaration : String
  fault : Fault R
deriving DecidableEq, Repr

/- The state after all statements. -/
def Program.walk
    {R σ : Type}
    (step : σ → Statement R → Except (Fault R) σ)
    (state : σ) : Program R → Except (Stop R) σ
  | [] => .ok state
  | statement :: rest =>
      match step state statement with
      | .ok next => Program.walk step next rest
      | .error fault => .error ⟨statement.name, fault⟩

end QuantumLab
