import QuantumLab.Plan.Compute
import QuantumLab.Proofs.Dense.Extents
import QuantumLab.Proofs.Evaluation.Expressions
import QuantumLab.Proofs.Lowering.Emission

/-
  This file says what the nodes of a lowered expression
  compute, in terms of the expression.  Folded parts have
  the values that the names have when they are folded, and
  sums are taken as they are, without the unit factor that
  an evaluation gives to the second operand.

  Key definitions include:
    * `BinaryOp.resultShape`, `UnaryOp.resultShape`
    * `BinaryOp.combine`
    * `Expr.planned`
    * `Expr.Steady`

  Main statements:
    * `BinaryOp.shape_combine` says that what is computed from
      two values has the shape of the result.
    * `Expr.planned_eq_of_steady` says when what is computed
      is the value of the expression.
-/

------------------------------------------------------------
-- Shapes of results
------------------------------------------------------------

namespace QuantumLab

/- The shape of the result of an operation on two values. -/
def BinaryOp.resultShape : BinaryOp → Shape → Shape → Shape
  | .multiply, .scalar, rhs => rhs
  | .multiply, lhs, .scalar => lhs
  | .multiply, .matrix r _, .matrix _ c => .matrix r c
  | .multiply, .matrix r _, .vector _ => .vector r
  | .tensor, .matrix r c, .matrix r' c' => .matrix (r * r') (c * c')
  | .tensor, .vector n, .vector n' => .vector (n * n')
  | _, lhs, _ => lhs

/- The shape of the result of an operation on one value. -/
def UnaryOp.resultShape : UnaryOp → Shape → Shape
  | .dagger, operand => operand.dagger
  | .trace, _ => .scalar
  | _, operand => operand

variable {R : Type} [Arithmetic R]

theorem shape_addMultiple
    {op : BinaryOp}
    {factor : Scalar R}
    {a b v : Value R}
    (hValue : addMultiple op factor a b = .ok v) :
    v.shape = a.shape := by
  cases a <;> cases b <;>
    simp [addMultiple, BinaryOp.mismatch, map_eq_ok_iff,
      Guarded.sum_eq_ok_iff, Guarded.vectorSum_eq_ok_iff] at hValue
  · rw [← hValue]
    rfl
  · rw [← hValue.2]
    exact Vec.shape_add _ _
  · rw [← hValue.2]
    rfl

theorem shape_multiplyValues
    {a b v : Value R}
    (hValue : multiplyValues a b = .ok v) :
    v.shape = BinaryOp.multiply.resultShape a.shape b.shape := by
  cases a with
  | scalar z =>
      rw [← Except.ok.inj hValue, Value.shape_scale]
      rfl
  | vector v =>
      cases b with
      | scalar w =>
          rw [← Except.ok.inj hValue, Value.shape_scale]
          rfl
      | vector w => exact absurd hValue refuse_ne_ok
      | matrix b => exact absurd hValue refuse_ne_ok
  | matrix a =>
      cases b with
      | scalar w =>
          rw [← Except.ok.inj hValue, Value.shape_scale]
          rfl
      | vector w =>
          rcases map_eq_ok_iff.1 hValue with ⟨u, hProduct, rfl⟩
          rw [Guarded.vectorProduct_eq_ok_iff] at hProduct
          rw [← hProduct.2]
          exact Vec.shape_mulVec a w
      | matrix b =>
          rcases map_eq_ok_iff.1 hValue with ⟨c, hProduct, rfl⟩
          rw [Guarded.product_eq_ok_iff] at hProduct
          rw [← hProduct.2]
          rfl

theorem shape_divideValue
    {a b v : Value R}
    (hValue : divideValue a b = .ok v) :
    v.shape = a.shape := by
  cases b with
  | scalar w =>
      rw [divideValue] at hValue
      by_cases hZero : w.isZero = true
      · rw [if_pos hZero] at hValue
        exact absurd hValue refuse_ne_ok
      · rw [if_neg hZero] at hValue
        rw [← Except.ok.inj hValue, Value.shape_scale]
  | vector v => exact absurd hValue refuse_ne_ok
  | matrix a => exact absurd hValue refuse_ne_ok

/- The shapes of the operands give the shape of the result. -/
theorem BinaryOp.shape_apply
    {op : BinaryOp}
    {a b v : Value R}
    (hValue : op.apply a b = .ok v) :
    v.shape = op.resultShape a.shape b.shape := by
  cases op with
  | add => exact shape_addMultiple hValue
  | subtract => exact shape_addMultiple hValue
  | multiply => exact shape_multiplyValues hValue
  | divide => exact shape_divideValue hValue
  | power =>
      cases a <;> cases b <;> simp [apply] at hValue
      rw [← hValue]
      rfl
  | tensor =>
      cases a <;> cases b <;> simp [apply, mismatch] at hValue
      · rw [← hValue]
        exact Vec.shape_kronecker _ _
      · rw [← hValue]
        rfl
  | commutator =>
      cases a <;> cases b <;>
        simp [apply, mismatch, map_eq_ok_iff,
          Guarded.commutator_eq_ok_iff] at hValue
      rename_i a b
      rcases hValue with ⟨⟨hSquare, hShape⟩, rfl⟩
      have hCols : a.cols = b.cols := (Shape.matrix.inj hShape).2
      exact congrArg (Shape.matrix a.rows) hCols.symm
  | anticommutator =>
      cases a <;> cases b <;>
        simp [apply, mismatch, map_eq_ok_iff,
          Guarded.anticommutator_eq_ok_iff] at hValue
      rename_i a b
      rcases hValue with ⟨⟨hSquare, hShape⟩, rfl⟩
      have hCols : a.cols = b.cols := (Shape.matrix.inj hShape).2
      exact congrArg (Shape.matrix a.rows) hCols.symm

theorem UnaryOp.shape_apply
    {op : UnaryOp}
    {a v : Value R}
    (hValue : op.apply a = .ok v) :
    v.shape = op.resultShape a.shape := by
  cases op with
  | dagger =>
      rw [← Except.ok.inj hValue, Value.shape_adjoint]
      rfl
  | trace =>
      cases a <;> simp [apply, map_eq_ok_iff] at hValue
      rcases hValue with ⟨z, _, rfl⟩
      rfl
  | expm =>
      cases a <;> simp [apply, map_eq_ok_iff] at hValue
      · rw [← hValue]
        rfl
      · rcases hValue with ⟨b, hExponential, rfl⟩
        exact (Guarded.shape_exponential hExponential).2
  | sqrt =>
      cases a <;> simp [apply] at hValue
      rw [← hValue]
      rfl
  | sin =>
      cases a <;> simp [apply, applyToScalar] at hValue
      rw [← hValue]
      rfl
  | cos =>
      cases a <;> simp [apply, applyToScalar] at hValue
      rw [← hValue]
      rfl
  | exp =>
      cases a <;> simp [apply, applyToScalar] at hValue
      rw [← hValue]
      rfl

theorem Operation.shape_computeSum
    {node : NodeId}
    {a b v : Value R}
    (hValue : computeSum node a b = .ok v) :
    v.shape = a.shape := by
  cases a <;> cases b <;>
    simp [computeSum, map_eq_ok_iff, Guarded.sum_eq_ok_iff,
      Guarded.vectorSum_eq_ok_iff] at hValue
  · rw [← hValue]
    rfl
  · rw [← hValue.2]
    exact Vec.shape_add _ _
  · rw [← hValue.2]
    rfl

end QuantumLab

------------------------------------------------------------
-- What nodes compute
------------------------------------------------------------

namespace QuantumLab

variable {R : Type} [Arithmetic R]

/-
  An operation on two values as nodes carry it out: sums
  without a factor.
-/
def BinaryOp.combine
    (op : BinaryOp)
    (a b : Value R) : Option (Value R) :=
  match op with
  | .add => (Operation.computeSum 0 a b).toOption
  | _ => (op.apply a b).toOption

theorem BinaryOp.combine_eq_apply
    {op : BinaryOp}
    (hOther : op ≠ .add)
    (a b : Value R) :
    op.combine a b = (op.apply a b).toOption := by
  cases op with
  | add => exact absurd rfl hOther
  | subtract => rfl
  | multiply => rfl
  | divide => rfl
  | power => rfl
  | tensor => rfl
  | commutator => rfl
  | anticommutator => rfl

theorem BinaryOp.shape_combine
    {op : BinaryOp}
    {a b v : Value R}
    (hValue : op.combine a b = some v) :
    v.shape = op.resultShape a.shape b.shape := by
  by_cases hAdd : op = .add
  · subst hAdd
    exact Operation.shape_computeSum (toOption_eq_some_iff.1 hValue)
  · rw [combine_eq_apply hAdd, toOption_eq_some_iff] at hValue
    exact shape_apply hValue

/- Whether an expression has a scalar value. -/
def Environment.isScalar (env : Environment R) (e : Expr R) : Bool :=
  match env.evaluate e with
  | .ok (.scalar _) => true
  | _ => false

/- The value of an expression if it is a scalar. -/
def Environment.scalar?
    (env : Environment R)
    (e : Expr R) : Option (Value R) :=
  match env.evaluate e with
  | .ok (.scalar z) => some (.scalar z)
  | _ => none

namespace Expr

/-
  What the nodes of an expression compute.  The expression
  has a value under `names`, its folded parts are evaluated
  under `folds`, and the nodes of names compute `nodes`.
-/
def planned
    (names folds : Environment R)
    (nodes : String → Option (Value R)) :
    Expr R → Option (Value R)
  | .identifier name => nodes name
  | .binary .power lhs rhs =>
      (folds.evaluate (.binary .power lhs rhs)).toOption
  | .binary .divide lhs rhs => do
      let a ← planned names folds nodes lhs
      let b ← (folds.evaluate rhs).toOption
      (BinaryOp.divide.apply a b).toOption
  | .binary op lhs rhs => do
      let a ← planned names folds nodes lhs
      let b ← planned names folds nodes rhs
      op.combine a b
  | .unary .expm operand =>
      if names.isScalar operand then
        folds.scalar? (.unary .expm operand)
      else do
        let a ← planned names folds nodes operand
        (UnaryOp.expm.apply a).toOption
  | .unary op operand =>
      if op.isScalarFunction then
        (folds.evaluate (.unary op operand)).toOption
      else do
        let a ← planned names folds nodes operand
        (op.apply a).toOption
  | e => (folds.evaluate e).toOption

/-
  The parts of an expression have under `folds` the values
  that they have under `names`, as far as they are folded,
  and sums come out the same with and without the unit
  factor.
-/
def Steady (names folds : Environment R) : Expr R → Prop
  | .identifier _ => True
  | .binary .power lhs rhs =>
      folds.evaluate (.binary .power lhs rhs) =
        names.evaluate (.binary .power lhs rhs)
  | .binary .divide lhs rhs =>
      Steady names folds lhs ∧
        folds.evaluate rhs = names.evaluate rhs
  | .binary op lhs rhs =>
      Steady names folds lhs ∧ Steady names folds rhs ∧
        ∀ a b, names.evaluate lhs = .ok a →
          names.evaluate rhs = .ok b →
            op.combine a b = (op.apply a b).toOption
  | .unary .expm operand =>
      if names.isScalar operand then
        folds.evaluate (.unary .expm operand) =
          names.evaluate (.unary .expm operand)
      else Steady names folds operand
  | .unary op operand =>
      if op.isScalarFunction then
        folds.evaluate (.unary op operand) =
          names.evaluate (.unary op operand)
      else Steady names folds operand
  | e => folds.evaluate e = names.evaluate e

------------------------------------------------------------
-- Cases
------------------------------------------------------------

variable
  {names folds : Environment R}
  {nodes : String → Option (Value R)}

theorem planned_of_isFolded
    {e : Expr R}
    (hFolded : e.isFolded = true) :
    e.planned names folds nodes = (folds.evaluate e).toOption := by
  cases e with
  | missing => cases hFolded
  | number z => rfl
  | identifier name => cases hFolded
  | matrix rows => rfl
  | vector elements => rfl
  | binary op lhs rhs => cases op <;> first | rfl | cases hFolded
  | unary op operand => cases op <;> first | rfl | cases hFolded
  | call function arguments => cases hFolded

theorem planned_binary
    {op : BinaryOp}
    (hPower : op ≠ .power)
    (hDivide : op ≠ .divide)
    (lhs rhs : Expr R) :
    (Expr.binary op lhs rhs).planned names folds nodes =
      (lhs.planned names folds nodes).bind fun a =>
        (rhs.planned names folds nodes).bind fun b =>
          op.combine a b := by
  cases op with
  | power => exact absurd rfl hPower
  | divide => exact absurd rfl hDivide
  | add => rfl
  | subtract => rfl
  | multiply => rfl
  | tensor => rfl
  | commutator => rfl
  | anticommutator => rfl

theorem planned_unary
    {op : UnaryOp}
    {operand : Expr R}
    (hScalarFunction : op.isScalarFunction = false)
    (hScalar : op = .expm → names.isScalar operand = false) :
    (Expr.unary op operand).planned names folds nodes =
      (operand.planned names folds nodes).bind fun a =>
        (op.apply a).toOption := by
  cases op with
  | sqrt => cases hScalarFunction
  | sin => cases hScalarFunction
  | cos => cases hScalarFunction
  | exp => cases hScalarFunction
  | dagger => rfl
  | trace => rfl
  | expm =>
      rw [planned, if_neg (by simp [hScalar rfl])]
      rfl

theorem steady_binary
    {op : BinaryOp}
    (hPower : op ≠ .power)
    (hDivide : op ≠ .divide)
    (lhs rhs : Expr R) :
    (Expr.binary op lhs rhs).Steady names folds ↔
      lhs.Steady names folds ∧ rhs.Steady names folds ∧
        ∀ a b, names.evaluate lhs = .ok a →
          names.evaluate rhs = .ok b →
            op.combine a b = (op.apply a b).toOption := by
  cases op with
  | power => exact absurd rfl hPower
  | divide => exact absurd rfl hDivide
  | add => rfl
  | subtract => rfl
  | multiply => rfl
  | tensor => rfl
  | commutator => rfl
  | anticommutator => rfl

theorem steady_of_isFolded
    {e : Expr R}
    (hFolded : e.isFolded = true) :
    e.Steady names folds ↔ folds.evaluate e = names.evaluate e := by
  cases e with
  | missing => cases hFolded
  | number z => rfl
  | identifier name => cases hFolded
  | matrix rows => rfl
  | vector elements => rfl
  | binary op lhs rhs => cases op <;> first | rfl | cases hFolded
  | unary op operand => cases op <;> first | rfl | cases hFolded
  | call function arguments => cases hFolded

theorem steady_unary
    {op : UnaryOp}
    {operand : Expr R}
    (hScalarFunction : op.isScalarFunction = false)
    (hScalar : op = .expm → names.isScalar operand = false) :
    (Expr.unary op operand).Steady names folds ↔
      operand.Steady names folds := by
  cases op with
  | sqrt => cases hScalarFunction
  | sin => cases hScalarFunction
  | cos => cases hScalarFunction
  | exp => cases hScalarFunction
  | dagger => rfl
  | trace => rfl
  | expm => rw [Steady, if_neg (by simp [hScalar rfl])]

------------------------------------------------------------
-- Shapes
------------------------------------------------------------

/- The shape of what is folded does not depend on names. -/
def foldedShape : Expr R → Shape
  | .matrix rows => .matrix rows.length (columns rows)
  | .vector elements => .vector elements.length
  | _ => .scalar

theorem length_evaluateElements
    {elements : List (Expr R)}
    {entries : List (Scalar R)}
    (hEntries : names.evaluateElements elements = .ok entries) :
    entries.length = elements.length := by
  induction elements generalizing entries with
  | nil =>
      rw [← Except.ok.inj hEntries]
      rfl
  | cons element rest ih =>
      unfold Environment.evaluateElements at hEntries
      rcases bind_eq_ok_iff.1 hEntries with ⟨value, _, hRest⟩
      rcases bind_eq_ok_iff.1 hRest with ⟨z, _, hTail⟩
      rcases bind_eq_ok_iff.1 hTail with ⟨others, hOthers, hDone⟩
      rw [← pure_eq_ok_iff.1 hDone, List.length_cons, ih hOthers,
        List.length_cons]

theorem shape_of_isFolded
    {e : Expr R}
    {v : Value R}
    (hFolded : e.isFolded = true)
    (hValue : names.evaluate e = .ok v) :
    v.shape = e.foldedShape := by
  cases e with
  | missing => cases hFolded
  | number z =>
      rw [← Except.ok.inj hValue]
      rfl
  | identifier name => cases hFolded
  | matrix rows =>
      unfold Environment.evaluate at hValue
      by_cases hEmpty : Expr.columns rows = 0
      · rw [if_pos hEmpty] at hValue
        exact absurd hValue refuse_ne_ok
      · rw [if_neg hEmpty] at hValue
        rcases bind_eq_ok_iff.1 hValue with ⟨entries, _, hDone⟩
        rw [← pure_eq_ok_iff.1 hDone]
        rfl
  | vector elements =>
      unfold Environment.evaluate at hValue
      by_cases hEmpty : elements.isEmpty = true
      · rw [if_pos hEmpty] at hValue
        exact absurd hValue refuse_ne_ok
      · rw [if_neg hEmpty] at hValue
        rcases bind_eq_ok_iff.1 hValue with ⟨entries, hEntries, hDone⟩
        rw [← pure_eq_ok_iff.1 hDone, foldedShape,
          ← length_evaluateElements hEntries]
        rfl
  | binary op lhs rhs =>
      cases op <;> cases hFolded
      unfold Environment.evaluate at hValue
      rcases bind_eq_ok_iff.1 hValue with ⟨a, _, hRest⟩
      rcases bind_eq_ok_iff.1 hRest with ⟨b, _, hDone⟩
      cases a <;> cases b <;> simp [BinaryOp.apply] at hDone
      rw [← hDone]
      rfl
  | unary op operand =>
      unfold Environment.evaluate at hValue
      rcases bind_eq_ok_iff.1 hValue with ⟨a, _, hDone⟩
      cases op <;> cases hFolded <;> cases a <;>
        simp [UnaryOp.apply, applyToScalar] at hDone <;>
          (rw [← hDone]; rfl)
  | call function arguments => cases hFolded

theorem isScalar_eq_true_iff
    {e : Expr R}
    {v : Value R}
    (hValue : names.evaluate e = .ok v) :
    names.isScalar e = true ↔ v.shape = .scalar := by
  rw [Environment.isScalar, hValue]
  cases v with
  | scalar z => simp [Value.shape]
  | vector v => simp [Value.shape, Vec.shape]
  | matrix a => simp [Value.shape, Mat.shape]

theorem scalar?_of_evaluate
    {e : Expr R}
    {v : Value R}
    (hValue : folds.evaluate e = .ok v)
    (hShape : v.shape = .scalar) :
    folds.scalar? e = some v := by
  cases v with
  | scalar z => rw [Environment.scalar?, hValue]
  | vector v => cases hShape
  | matrix a => cases hShape

------------------------------------------------------------
-- Values
------------------------------------------------------------

/- What is computed of a steady expression is its value. -/
theorem planned_eq_of_steady
    (hNodes : ∀ name v, names.lookup name = some v →
      nodes name = some v)
    {e : Expr R}
    {v : Value R}
    (hValue : names.evaluate e = .ok v)
    (hSteady : e.Steady names folds) :
    e.planned names folds nodes = some v := by
  induction e using Expr.induction generalizing v with
  | missing => exact absurd hValue refuse_ne_ok
  | number z =>
      rw [planned_of_isFolded rfl, (steady_of_isFolded rfl).1 hSteady,
        hValue, toOption_ok]
  | identifier name =>
      rw [Environment.evaluate, Environment.resolve_eq_ok_iff] at hValue
      exact hNodes name v hValue
  | matrix rows _ =>
      rw [planned_of_isFolded rfl, (steady_of_isFolded rfl).1 hSteady,
        hValue, toOption_ok]
  | vector elements _ =>
      rw [planned_of_isFolded rfl, (steady_of_isFolded rfl).1 hSteady,
        hValue, toOption_ok]
  | binary op lhs rhs ihLhs ihRhs =>
      by_cases hPower : op = .power
      · subst hPower
        rw [planned_of_isFolded rfl, (steady_of_isFolded rfl).1 hSteady,
          hValue, toOption_ok]
      · unfold Environment.evaluate at hValue
        rcases bind_eq_ok_iff.1 hValue with ⟨a, hLhs, hRest⟩
        rcases bind_eq_ok_iff.1 hRest with ⟨b, hRhs, hApplied⟩
        by_cases hDivide : op = .divide
        · subst hDivide
          rw [planned, ihLhs hLhs hSteady.1, hSteady.2, hRhs]
          exact toOption_eq_some_iff.2 hApplied
        · rw [steady_binary hPower hDivide] at hSteady
          rcases hSteady with ⟨hSteadyLhs, hSteadyRhs, hSum⟩
          rw [planned_binary hPower hDivide, ihLhs hLhs hSteadyLhs,
            ihRhs hRhs hSteadyRhs]
          change op.combine a b = some v
          rw [hSum a b hLhs hRhs, hApplied, toOption_ok]
  | unary op operand ih =>
      by_cases hScalarFunction : op.isScalarFunction = true
      · have hFolded : (Expr.unary op operand).isFolded = true :=
          hScalarFunction
        rw [planned_of_isFolded hFolded,
          (steady_of_isFolded hFolded).1 hSteady, hValue, toOption_ok]
      · rw [Bool.not_eq_true] at hScalarFunction
        have hWhole := hValue
        unfold Environment.evaluate at hValue
        rcases bind_eq_ok_iff.1 hValue with ⟨a, hOperand, hApplied⟩
        by_cases hScalar :
            op = .expm ∧ names.isScalar operand = true
        · rcases hScalar with ⟨rfl, hScalar⟩
          rw [Steady, if_pos hScalar, hWhole] at hSteady
          rw [planned, if_pos hScalar]
          refine scalar?_of_evaluate hSteady ?_
          rw [UnaryOp.shape_apply hApplied,
            (isScalar_eq_true_iff hOperand).1 hScalar]
          rfl
        · have hOther :
              op = .expm → names.isScalar operand = false := by
            intro hExp
            rw [← Bool.not_eq_true]
            intro h
            exact hScalar ⟨hExp, h⟩
          rw [steady_unary hScalarFunction hOther] at hSteady
          rw [planned_unary hScalarFunction hOther,
            ih hOperand hSteady]
          exact toOption_eq_some_iff.2 hApplied
  | call function arguments => exact absurd hValue refuse_ne_ok

/-
  A new name does not matter: an expression with a value
  that is steady under its own names is steady.
-/
theorem Steady.of_extends
    (hExtends : names.Extends folds)
    {e : Expr R}
    {v : Value R}
    (hValue : names.evaluate e = .ok v)
    (hSteady : e.Steady names names) :
    e.Steady names folds := by
  induction e using Expr.induction generalizing v with
  | missing => exact absurd hValue refuse_ne_ok
  | number z => exact rfl
  | identifier name => trivial
  | matrix rows _ =>
      rw [steady_of_isFolded rfl, hValue]
      exact Environment.evaluate_mono hExtends hValue
  | vector elements _ =>
      rw [steady_of_isFolded rfl, hValue]
      exact Environment.evaluate_mono hExtends hValue
  | binary op lhs rhs ihLhs ihRhs =>
      by_cases hPower : op = .power
      · subst hPower
        rw [steady_of_isFolded rfl, hValue]
        exact Environment.evaluate_mono hExtends hValue
      · unfold Environment.evaluate at hValue
        rcases bind_eq_ok_iff.1 hValue with ⟨a, hLhs, hRest⟩
        rcases bind_eq_ok_iff.1 hRest with ⟨b, hRhs, hApplied⟩
        by_cases hDivide : op = .divide
        · subst hDivide
          refine ⟨ihLhs hLhs hSteady.1, ?_⟩
          rw [hRhs]
          exact Environment.evaluate_mono hExtends hRhs
        · rw [steady_binary hPower hDivide] at hSteady ⊢
          rcases hSteady with ⟨hSteadyLhs, hSteadyRhs, hSum⟩
          exact ⟨ihLhs hLhs hSteadyLhs, ihRhs hRhs hSteadyRhs, hSum⟩
  | unary op operand ih =>
      by_cases hScalarFunction : op.isScalarFunction = true
      · have hFolded : (Expr.unary op operand).isFolded = true :=
          hScalarFunction
        rw [steady_of_isFolded hFolded, hValue]
        exact Environment.evaluate_mono hExtends hValue
      · rw [Bool.not_eq_true] at hScalarFunction
        have hWhole := hValue
        unfold Environment.evaluate at hValue
        rcases bind_eq_ok_iff.1 hValue with ⟨a, hOperand, hApplied⟩
        by_cases hScalar :
            op = .expm ∧ names.isScalar operand = true
        · rcases hScalar with ⟨rfl, hScalar⟩
          rw [Steady, if_pos hScalar, hWhole]
          exact Environment.evaluate_mono hExtends hWhole
        · have hOther :
              op = .expm → names.isScalar operand = false := by
            intro hExp
            rw [← Bool.not_eq_true]
            intro h
            exact hScalar ⟨hExp, h⟩
          rw [steady_unary hScalarFunction hOther] at hSteady ⊢
          exact ih hOperand hSteady
  | call function arguments => exact absurd hValue refuse_ne_ok

end Expr

end QuantumLab
