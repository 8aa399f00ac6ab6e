import QuantumLab.Evaluation.Environment
import QuantumLab.Proofs.Outcome

/-
  This file gives an induction over expressions, and says
  how the value of an expression depends on the values of
  names.

  Key definitions include:
    * `Environment.Extends`

  Main statements:
    * `Expr.induction` is an induction over expressions that
      reaches the elements of literals and the arguments of
      calls.
    * `Environment.evaluate_mono` says that an expression
      keeps its value when more names have values.
-/

------------------------------------------------------------
-- Induction over expressions
------------------------------------------------------------

namespace QuantumLab

variable {R : Type}

namespace Expr

/-
  What holds of an expression if it holds of its parts holds
  of every expression.
-/
@[elab_as_elim]
theorem induction
    {motive : Expr R → Prop}
    (missing : motive .missing)
    (number : ∀ z, motive (.number z))
    (identifier : ∀ name, motive (.identifier name))
    (matrix : ∀ rows : List (List (Expr R)),
      (∀ row ∈ rows, ∀ element ∈ row, motive element) →
        motive (.matrix rows))
    (vector : ∀ elements : List (Expr R),
      (∀ element ∈ elements, motive element) →
        motive (.vector elements))
    (binary : ∀ op lhs rhs,
      motive lhs → motive rhs → motive (.binary op lhs rhs))
    (unary : ∀ op operand, motive operand → motive (.unary op operand))
    (call : ∀ (function : String) (arguments : List (Expr R)),
      (∀ argument ∈ arguments, motive argument) →
        motive (.call function arguments))
    (expression : Expr R) :
    motive expression := by
  match expression with
  | .missing => exact missing
  | .number z => exact number z
  | .identifier name => exact identifier name
  | .matrix rows =>
      exact matrix rows fun row hRow element hElement =>
        induction missing number identifier matrix vector binary unary
          call element
  | .vector elements =>
      exact vector elements fun element hElement =>
        induction missing number identifier matrix vector binary unary
          call element
  | .binary op lhs rhs =>
      exact binary op lhs rhs
        (induction missing number identifier matrix vector binary unary
          call lhs)
        (induction missing number identifier matrix vector binary unary
          call rhs)
  | .unary op operand =>
      exact unary op operand
        (induction missing number identifier matrix vector binary unary
          call operand)
  | .call function arguments =>
      exact call function arguments fun argument hArgument =>
        induction missing number identifier matrix vector binary unary
          call argument
termination_by expression
decreasing_by
  · have hRowSize := List.sizeOf_lt_of_mem hRow
    have hElementSize := List.sizeOf_lt_of_mem hElement
    simp only [Expr.matrix.sizeOf_spec]
    omega
  · have hElementSize := List.sizeOf_lt_of_mem hElement
    simp only [Expr.vector.sizeOf_spec]
    omega
  · simp only [Expr.binary.sizeOf_spec]
    omega
  · simp only [Expr.binary.sizeOf_spec]
    omega
  · simp only [Expr.unary.sizeOf_spec]
    omega
  · have hArgumentSize := List.sizeOf_lt_of_mem hArgument
    simp only [Expr.call.sizeOf_spec]
    omega

end Expr

end QuantumLab

------------------------------------------------------------
-- Names
------------------------------------------------------------

namespace QuantumLab

variable {R : Type}

namespace Environment

@[simp] theorem lookup_define
    (env : Environment R)
    (name other : String)
    (value : Value R) :
    (env.define name value).lookup other =
      if name = other then some value else env.lookup other :=
  Table.find?_insert _ _ _ _

@[simp] theorem lookup_declareSymbolic
    (env : Environment R)
    (name other : String) :
    (env.declareSymbolic name).lookup other =
      if name = other then none else env.lookup other :=
  Table.find?_erase _ _ _

@[simp] theorem isSymbolic_define
    (env : Environment R)
    (name other : String)
    (value : Value R) :
    (env.define name value).isSymbolic other =
      (!decide (name = other) && env.isSymbolic other) :=
  Table.contains_erase _ _ _

@[simp] theorem isSymbolic_declareSymbolic
    (env : Environment R)
    (name other : String) :
    (env.declareSymbolic name).isSymbolic other =
      (decide (name = other) || env.isSymbolic other) :=
  Table.contains_insert _ _ _ _

/- At first the predefined operators have their values. -/
theorem lookup_initial
    [Arithmetic R]
    (name : String) :
    (Environment.initial : Environment R).lookup name =
      (Predefined.find? name).map Value.matrix := by
  have hEmpty : (Environment.empty : Environment R).lookup name = none :=
    rfl
  simp only [Environment.initial, Predefined.operators,
    List.foldl_cons, List.foldl_nil, Environment.lookup_define,
    Predefined.find?, Rows.find?, hEmpty]
  by_cases hIdentity : "identity" = name
  · simp [← hIdentity]
  · by_cases hX : "sigma_x" = name
    · simp [← hX]
    · by_cases hY : "sigma_y" = name
      · simp [← hY]
      · simp [hIdentity, hX, hY]

theorem isSymbolic_initial
    [Arithmetic R]
    (name : String) :
    (Environment.initial : Environment R).isSymbolic name = false := by
  have hEmpty :
      (Environment.empty : Environment R).isSymbolic name = false := rfl
  simp [Environment.initial, Predefined.operators, hEmpty]

/- Every name that has a value has the same value in a later environment. -/
def Extends (env later : Environment R) : Prop :=
  ∀ name value, env.lookup name = some value →
    later.lookup name = some value

/- A new name does not change the values of the others. -/
theorem extends_define
    {env : Environment R}
    {name : String}
    (hFresh : env.lookup name = none)
    (value : Value R) :
    env.Extends (env.define name value) := by
  intro other old hOld
  rw [lookup_define]
  by_cases hSame : name = other
  · rw [← hSame, hFresh] at hOld
    cases hOld
  · rw [if_neg hSame, hOld]

theorem resolve_eq_ok_iff
    {env : Environment R}
    {name : String}
    {value : Value R} :
    env.resolve name = .ok value ↔ env.lookup name = some value := by
  rw [resolve]
  cases env.lookup name with
  | some old => simp
  | none =>
      simp only [reduceCtorEq, iff_false]
      split
      · exact refuse_ne_ok
      · exact refuse_ne_ok

end Environment

end QuantumLab

------------------------------------------------------------
-- Values
------------------------------------------------------------

namespace QuantumLab

variable {R : Type} [Arithmetic R]

namespace Environment

variable {env later : Environment R}

/- A literal is evaluated element by element. -/
theorem evaluateElements_mono
    {elements : List (Expr R)}
    (hEach : ∀ element ∈ elements, ∀ value,
      env.evaluate element = .ok value →
        later.evaluate element = .ok value)
    {entries : List (Scalar R)}
    (hEntries : env.evaluateElements elements = .ok entries) :
    later.evaluateElements elements = .ok entries := by
  induction elements generalizing entries with
  | nil => simpa [evaluateElements] using hEntries
  | cons element rest ih =>
      unfold evaluateElements at hEntries
      rcases bind_eq_ok_iff.1 hEntries with ⟨value, hValue, hRest⟩
      rcases bind_eq_ok_iff.1 hRest with ⟨z, hElement, hTail⟩
      rcases bind_eq_ok_iff.1 hTail with ⟨others, hOthers, hDone⟩
      have hLater := ih
        (fun other hOther =>
          hEach other (List.mem_cons_of_mem element hOther))
        hOthers
      rw [evaluateElements,
        hEach element List.mem_cons_self value hValue]
      simpa [hElement, hLater] using hDone

theorem evaluateRows_mono
    {rows : List (List (Expr R))}
    {columns k : Nat}
    (hEach : ∀ row ∈ rows, ∀ element ∈ row, ∀ value,
      env.evaluate element = .ok value →
        later.evaluate element = .ok value)
    {entries : List (Scalar R)}
    (hEntries : env.evaluateRows columns k rows = .ok entries) :
    later.evaluateRows columns k rows = .ok entries := by
  induction rows generalizing k entries with
  | nil => simpa [evaluateRows] using hEntries
  | cons row rest ih =>
      unfold evaluateRows at hEntries
      by_cases hLength : row.length = columns
      · rw [if_pos hLength] at hEntries
        rcases bind_eq_ok_iff.1 hEntries with ⟨first, hFirst, hRest⟩
        rcases bind_eq_ok_iff.1 hRest with ⟨others, hOthers, hDone⟩
        have hRow := evaluateElements_mono
          (hEach row List.mem_cons_self) hFirst
        have hLater := ih
          (fun other hOther =>
            hEach other (List.mem_cons_of_mem row hOther))
          hOthers
        rw [evaluateRows, if_pos hLength]
        simpa [hRow, hLater] using hDone
      · rw [if_neg hLength] at hEntries
        exact absurd hEntries refuse_ne_ok

/- An expression keeps its value when more names have values. -/
theorem evaluate_mono
    (hExtends : env.Extends later)
    {expression : Expr R}
    {value : Value R}
    (hValue : env.evaluate expression = .ok value) :
    later.evaluate expression = .ok value := by
  induction expression using Expr.induction generalizing value with
  | missing => exact absurd hValue refuse_ne_ok
  | number z => exact hValue
  | identifier name =>
      rw [evaluate, resolve_eq_ok_iff] at hValue ⊢
      exact hExtends name value hValue
  | matrix rows ih =>
      unfold evaluate at hValue ⊢
      by_cases hEmpty : Expr.columns rows = 0
      · rw [if_pos hEmpty] at hValue
        exact absurd hValue refuse_ne_ok
      · rw [if_neg hEmpty] at hValue ⊢
        rcases bind_eq_ok_iff.1 hValue with ⟨entries, hEntries, hDone⟩
        have hLater := evaluateRows_mono
          (fun row hRow element hElement value hElementValue =>
            ih row hRow element hElement hElementValue)
          hEntries
        simpa [hLater] using hDone
  | vector elements ih =>
      unfold evaluate at hValue ⊢
      by_cases hEmpty : elements.isEmpty = true
      · rw [if_pos hEmpty] at hValue
        exact absurd hValue refuse_ne_ok
      · rw [if_neg hEmpty] at hValue ⊢
        rcases bind_eq_ok_iff.1 hValue with ⟨entries, hEntries, hDone⟩
        have hLater := evaluateElements_mono
          (fun element hElement value hElementValue =>
            ih element hElement hElementValue)
          hEntries
        simpa [hLater] using hDone
  | binary op lhs rhs ihLhs ihRhs =>
      unfold evaluate at hValue ⊢
      rcases bind_eq_ok_iff.1 hValue with ⟨a, hLhs, hRest⟩
      rcases bind_eq_ok_iff.1 hRest with ⟨b, hRhs, hDone⟩
      rw [ihLhs hLhs, ihRhs hRhs]
      exact hDone
  | unary op operand ih =>
      unfold evaluate at hValue ⊢
      rcases bind_eq_ok_iff.1 hValue with ⟨a, hOperand, hDone⟩
      rw [ih hOperand]
      exact hDone
  | call function arguments => exact absurd hValue refuse_ne_ok

/- An expression that only lacks a value has none. -/
theorem evaluate?_eq_some_iff
    {expression : Expr R}
    {value : Value R} :
    env.evaluate? expression = .ok (some value) ↔
      env.evaluate expression = .ok value := by
  unfold evaluate?
  cases env.evaluate expression with
  | ok other => simp
  | error fault =>
      by_cases hUnsupported : fault.isUnsupported = true
      · simp [hUnsupported]
      · simp [hUnsupported]

theorem evaluate?_eq_none
    {expression : Expr R}
    (hNone : env.evaluate? expression = .ok none) :
    ∃ fault, env.evaluate expression = .error fault ∧
      fault.isUnsupported = true := by
  unfold evaluate? at hNone
  cases hValue : env.evaluate expression with
  | ok other => simp [hValue] at hNone
  | error fault =>
      by_cases hUnsupported : fault.isUnsupported = true
      · exact ⟨fault, rfl, hUnsupported⟩
      · simp [hValue, hUnsupported] at hNone

end Environment

end QuantumLab
