import QuantumLab.Proofs.Execution.Faults
import QuantumLab.Proofs.Typing.Expressions

/-
  This file says which faults are internal to the stages of a
  run, and that the evaluation of an expression does not end
  with one unless a part of the expression is missing.

  Key definitions include:
    * `NotInternal`

  Main statements:
    * `Operates.notInternal` says that computations on values
      do not end with internal faults.
    * `Environment.notInternal_evaluate` says how an
      expression can fail that has a value in another
      environment.
-/

------------------------------------------------------------
-- Faults that are not internal
------------------------------------------------------------

namespace QuantumLab

variable {R α : Type}

/- A computation does not end with an internal fault. -/
abbrev NotInternal (x : Except (Fault R) α) : Prop :=
  Fails (fun fault => fault.kind ≠ .internal) x

theorem notInternal_refuse
    {cause : Cause R}
    (hKind : (cause.kind == .internal) = false) :
    NotInternal (refuse cause : Except (Fault R) α) := by
  change cause.kind ≠ .internal
  exact beq_eq_false_iff_ne.1 hKind

theorem Cause.kind_of_isOperational
    {cause : Cause R}
    (hOperational : cause.isOperational = true) :
    cause.kind ≠ .internal := by
  cases cause <;> simp [isOperational, kind] at hOperational ⊢

/-
  Computations on values do not end with internal faults,
  whichever node makes them.
-/
theorem Operates.notInternal
    {x : Except (Fault R) α}
    (hOperates : Operates 0 x) :
    NotInternal x :=
  hOperates.imp_error fun _ hArises =>
    Cause.kind_of_isOperational hArises.operational

end QuantumLab

------------------------------------------------------------
-- Evaluation
------------------------------------------------------------

namespace QuantumLab

variable {R : Type} [Arithmetic R]

open Guarded

theorem notInternal_addMultiple
    (op : BinaryOp)
    (factor : Scalar R)
    (lhs rhs : Value R) :
    NotInternal (addMultiple op factor lhs rhs) := by
  unfold addMultiple
  split
  · exact trivial
  · exact (offGrid_vectorSum _ _).operates.notInternal.map
  · exact (offGrid_sum _ _).operates.notInternal.map
  · exact notInternal_refuse rfl

theorem notInternal_multiplyValues
    (lhs rhs : Value R) :
    NotInternal (multiplyValues lhs rhs) := by
  unfold multiplyValues
  split
  · exact trivial
  · exact trivial
  · exact (offGrid_product _ _).operates.notInternal.map
  · exact (offGrid_vectorProduct _ _).operates.notInternal.map
  · exact notInternal_refuse rfl

theorem notInternal_divideValue
    (lhs rhs : Value R) :
    NotInternal (divideValue lhs rhs) := by
  unfold divideValue
  split
  · split
    · exact notInternal_refuse rfl
    · exact trivial
  · exact notInternal_refuse rfl

theorem BinaryOp.notInternal_apply
    (op : BinaryOp)
    (lhs rhs : Value R) :
    NotInternal (op.apply lhs rhs) := by
  cases op with
  | add => exact notInternal_addMultiple _ _ lhs rhs
  | subtract => exact notInternal_addMultiple _ _ lhs rhs
  | multiply => exact notInternal_multiplyValues lhs rhs
  | divide => exact notInternal_divideValue lhs rhs
  | power =>
      simp only [apply]
      split
      · exact trivial
      · exact notInternal_refuse rfl
  | tensor =>
      simp only [apply]
      split
      · exact trivial
      · exact trivial
      · exact notInternal_refuse rfl
  | commutator =>
      simp only [apply]
      split
      · exact (offGrid_commutator _ _).operates.notInternal.map
      · exact notInternal_refuse rfl
  | anticommutator =>
      simp only [apply]
      split
      · exact (offGrid_anticommutator _ _).operates.notInternal.map
      · exact notInternal_refuse rfl

omit [Arithmetic R] in
theorem notInternal_applyToScalar
    (op : UnaryOp)
    (f : Scalar R → Scalar R)
    (operand : Value R) :
    NotInternal (applyToScalar op f operand) := by
  unfold applyToScalar
  split
  · exact trivial
  · exact notInternal_refuse rfl

theorem UnaryOp.notInternal_apply
    (op : UnaryOp)
    (operand : Value R) :
    NotInternal (op.apply operand) := by
  cases op with
  | dagger => exact trivial
  | trace =>
      simp only [apply]
      split
      · exact (offGrid_trace _).operates.notInternal.map
      · exact notInternal_refuse rfl
  | expm =>
      simp only [apply]
      split
      · exact trivial
      · exact (offGrid_exponential _).operates.notInternal.map
      · exact notInternal_refuse rfl
  | sqrt =>
      simp only [apply]
      split
      · exact trivial
      · exact notInternal_refuse rfl
  | sin => exact notInternal_applyToScalar _ _ operand
  | cos => exact notInternal_applyToScalar _ _ operand
  | exp => exact notInternal_applyToScalar _ _ operand

namespace Environment

omit [Arithmetic R] in
theorem notInternal_resolve
    (env : Environment R)
    (name : String) :
    NotInternal (env.resolve name) := by
  unfold resolve
  split
  · exact trivial
  · split
    · exact notInternal_refuse rfl
    · exact notInternal_refuse rfl

omit [Arithmetic R] in
theorem notInternal_elementOf
    (value : Value R) :
    NotInternal (elementOf value) := by
  unfold elementOf
  split
  · exact trivial
  · exact notInternal_refuse rfl

theorem notInternal_evaluateElements
    {env : Environment R}
    {elements : List (Expr R)}
    (hEach : ∀ element ∈ elements, NotInternal (env.evaluate element)) :
    NotInternal (env.evaluateElements elements) := by
  induction elements with
  | nil => exact trivial
  | cons element rest ih =>
      rcases List.forall_mem_cons.1 hEach with ⟨hHead, hRest⟩
      unfold evaluateElements
      refine hHead.bind fun value => ?_
      refine (notInternal_elementOf value).bind fun z => ?_
      exact (ih hRest).bind fun _ => trivial

theorem notInternal_evaluateRows
    {env : Environment R}
    {columns k : Nat}
    {rows : List (List (Expr R))}
    (hEach : ∀ row ∈ rows, ∀ element ∈ row,
      NotInternal (env.evaluate element)) :
    NotInternal (env.evaluateRows columns k rows) := by
  induction rows generalizing k with
  | nil => exact trivial
  | cons row rest ih =>
      rcases List.forall_mem_cons.1 hEach with ⟨hHead, hRest⟩
      unfold evaluateRows
      split
      · refine (notInternal_evaluateElements hHead).bind fun _ => ?_
        exact (ih hRest).bind fun _ => trivial
      · exact notInternal_refuse rfl

/-
  An expression that has a value in one environment has no
  missing part, so that it fails in another only for the
  values of names there.
-/
theorem notInternal_evaluate
    {names : Environment R}
    {e : Expr R}
    {v : Value R}
    (env : Environment R)
    (hValue : names.evaluate e = .ok v) :
    NotInternal (env.evaluate e) := by
  induction e using Expr.induction generalizing v with
  | missing => exact absurd hValue refuse_ne_ok
  | number z => exact trivial
  | identifier name => exact env.notInternal_resolve name
  | matrix rows ih =>
      unfold evaluate at hValue ⊢
      split at hValue
      · exact absurd hValue refuse_ne_ok
      · next hColumns =>
        rcases bind_eq_ok_iff.1 hValue with ⟨entries, hEntries, _⟩
        rw [if_neg hColumns]
        refine (notInternal_evaluateRows ?_).bind fun _ => trivial
        intro row hRow element hElement
        rcases exists_of_evaluateRows hEntries row hRow with
          ⟨_, hElements⟩
        rcases hElements element hElement with ⟨z, hElementValue⟩
        exact ih row hRow element hElement hElementValue
  | vector elements ih =>
      unfold evaluate at hValue ⊢
      split at hValue
      · exact absurd hValue refuse_ne_ok
      · next hEmpty =>
        rcases bind_eq_ok_iff.1 hValue with ⟨entries, hEntries, _⟩
        rw [if_neg hEmpty]
        refine (notInternal_evaluateElements ?_).bind fun _ => trivial
        intro element hElement
        rcases exists_of_evaluateElements hEntries element hElement with
          ⟨z, hElementValue⟩
        exact ih element hElement hElementValue
  | binary op lhs rhs ihLhs ihRhs =>
      unfold evaluate at hValue ⊢
      rcases exists_of_bind_bind_ok hValue with ⟨⟨a, hLhs⟩, b, hRhs⟩
      refine (ihLhs hLhs).bind fun lhsValue => ?_
      refine (ihRhs hRhs).bind fun rhsValue => ?_
      exact op.notInternal_apply lhsValue rhsValue
  | unary op operand ih =>
      unfold evaluate at hValue ⊢
      rcases exists_of_bind_ok hValue with ⟨a, hOperand⟩
      refine (ih hOperand).bind fun value => ?_
      exact op.notInternal_apply value
  | call function arguments => exact absurd hValue refuse_ne_ok

theorem notInternal_evaluate?
    {env : Environment R}
    {e : Expr R}
    (hEvaluate : NotInternal (env.evaluate e)) :
    NotInternal (env.evaluate? e) := by
  unfold evaluate?
  cases hValue : env.evaluate e with
  | ok value => exact trivial
  | error fault =>
      by_cases hUnsupported : fault.isUnsupported = true
      · simp only [hUnsupported]
        exact trivial
      · simp only [hUnsupported]
        exact hEvaluate.of_error hValue

end Environment

end QuantumLab
