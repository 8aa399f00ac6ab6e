import QuantumLab.Fault

/-
  This file defines reports: what a fault looks like to a
  caller or in a document, with the message already worded.

  Key definitions include:
    * `Report`
    * `Report.plain`, `Report.violation`, `Report.mismatch`,
      `Report.execution`
    * `Report.atNode`
    * `Report.text`
    * `Fault.report`
-/

namespace QuantumLab

open Arithmetic

/-
  A worded fault.  The declaration is empty unless an
  invariant was violated.
-/
structure Report (R : Type) where
  kind : FaultKind
  message : String
  invariant : Option Invariant := none
  declaration : String := ""
  deviation : Option R := none
  expected : Option Shape := none
  actual : Option Shape := none
  node : Option Nat := none
deriving DecidableEq, Repr

namespace Report

variable {R : Type}

------------------------------------------------------------
-- Construction
------------------------------------------------------------

/- A report of a kind that carries nothing but its message. -/
def plain (kind : FaultKind) (message : String) : Report R :=
  { kind, message }

/- The report of a failed execution. -/
def execution (message : String) (node : Option Nat) : Report R :=
  { kind := .execution, message, node }

/- The report of a violated invariant. -/
def violation
    [Arithmetic R]
    (invariant : Invariant)
    (declaration : String)
    (deviation : R)
    (detail : String) : Report R :=
  { kind := .validation
    message :=
      Cause.violationMessage invariant declaration deviation detail
    invariant := some invariant
    declaration
    deviation := some deviation }

/- The report of a shape mismatch. -/
def mismatch
    (expected actual : Shape)
    (subject : String) : Report R :=
  { kind := .dimensionMismatch
    message := Cause.mismatchMessage expected actual subject
    expected := some expected
    actual := some actual }

/- The report blamed on a node, unless a node is blamed already. -/
def atNode (r : Report R) (id : Nat) : Report R :=
  { r with node := some (r.node.getD id) }

------------------------------------------------------------
-- Text
------------------------------------------------------------

/- The text of a report: kind, message and node. -/
def text (r : Report R) : String :=
  r.kind.word ++ ": " ++ r.message
    ++ match r.node with
      | some id => " [node " ++ Nat.repr id ++ "]"
      | none => ""

end Report

namespace Fault

variable {R : Type} [Arithmetic R]

/- The message of a fault. -/
def message (f : Fault R) : String :=
  f.cause.message

/- The report of a fault. -/
def report (f : Fault R) : Report R :=
  let worded : Report R :=
    match f.cause with
    | .violation invariant declaration deviation detail =>
        Report.violation invariant declaration deviation detail
    | .mismatch expected actual subject =>
        Report.mismatch expected actual subject
    | cause => Report.plain cause.kind cause.message
  { worded with node := f.node }

/- The text of a fault. -/
def text (f : Fault R) : String :=
  f.report.text

end Fault

end QuantumLab
