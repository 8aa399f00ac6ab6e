/-
  This file defines the execution backends that a run can
  ask for.

  Key definitions include:
    * `Backend`
    * `Backend.word`
    * `BackendConfig`
-/

namespace QuantumLab

/-
  The backends with a name; only the dense one runs.
-/
inductive Backend where
  | cpuDense
  | cpuSparse
  | gpu
deriving DecidableEq, Repr, Inhabited

namespace Backend

/- The name of a backend in documents and messages. -/
def word : Backend → String
  | cpuDense => "CpuDense"
  | cpuSparse => "CpuSparse"
  | gpu => "Gpu"

/- The backend of a name. -/
def ofWord? (name : String) : Option Backend :=
  [cpuDense, cpuSparse, gpu].find? (fun b => b.word == name)

theorem ofWord?_word
    (b : Backend) :
    ofWord? b.word = some b := by
  cases b <;> decide

end Backend

/-
  A backend and a hint for the number of worker threads.
-/
structure BackendConfig where
  backend : Backend := .cpuDense
  threads : Option Nat := none
deriving DecidableEq, Repr, Inhabited

end QuantumLab
