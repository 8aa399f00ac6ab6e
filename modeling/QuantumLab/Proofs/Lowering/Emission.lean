import QuantumLab.Plan.Lowering
import QuantumLab.Proofs.Evaluation.Expressions
import QuantumLab.Proofs.Execution.Denotation

/-
  This file says how the nodes of a lowering come about:
  nodes are only ever added at the end, and an expression is
  lowered by one of a few rules.

  Key definitions include:
    * `Lowering.Grows`, `Lowering.Appends`
    * `Lowering.emitBinary`, `Lowering.emitUnary`
    * `Lowering.Lowers`

  Main statements:
    * `Lowering.Grows.denote_eq` says that nodes keep
      their values when others are added.
    * `Lowering.lowers_of_lower` says that every expression
      that is lowered is lowered by one of the rules.
-/

------------------------------------------------------------
-- Nodes added at the end
------------------------------------------------------------

namespace QuantumLab

variable {R : Type}

namespace Lowering

/- Nodes are added at the end, each with its shape. -/
structure Grows (s later : Lowering R) : Prop where
  nodes : ∃ added, later.plan.nodes = s.plan.nodes ++ added
  shapes : ∃ added, later.shapes = s.shapes ++ added

/-
  Nodes are added at the end, and nothing else changes but
  the nodes of names.
-/
structure Appends (s later : Lowering R) : Prop
    extends s.Grows later where
  experiments : later.plan.experiments = s.plan.experiments
  measurements : later.measurements = s.measurements
  environment : later.environment = s.environment

/- Nodes that are the same have not been added to. -/
theorem Grows.of_eq
    {s later : Lowering R}
    (hNodes : later.plan.nodes = s.plan.nodes)
    (hShapes : later.shapes = s.shapes) :
    s.Grows later where
  nodes := ⟨#[], by rw [hNodes, Array.append_empty]⟩
  shapes := ⟨#[], by rw [hShapes, Array.append_empty]⟩

theorem Grows.trans
    {s later last : Lowering R}
    (hFirst : s.Grows later)
    (hSecond : later.Grows last) :
    s.Grows last where
  nodes := by
    rcases hFirst.nodes with ⟨first, hFirst⟩
    rcases hSecond.nodes with ⟨second, hSecond⟩
    exact ⟨first ++ second, by
      rw [hSecond, hFirst, Array.append_assoc]⟩
  shapes := by
    rcases hFirst.shapes with ⟨first, hFirst⟩
    rcases hSecond.shapes with ⟨second, hSecond⟩
    exact ⟨first ++ second, by
      rw [hSecond, hFirst, Array.append_assoc]⟩

theorem Appends.refl (s : Lowering R) : s.Appends s where
  toGrows := .of_eq rfl rfl
  experiments := rfl
  measurements := rfl
  environment := rfl

theorem Appends.trans
    {s later last : Lowering R}
    (hFirst : s.Appends later)
    (hSecond : later.Appends last) :
    s.Appends last where
  toGrows := hFirst.toGrows.trans hSecond.toGrows
  experiments := hSecond.experiments.trans hFirst.experiments
  measurements := hSecond.measurements.trans hFirst.measurements
  environment := hSecond.environment.trans hFirst.environment

theorem appends_emit
    (s : Lowering R)
    (operation : Operation R)
    (shape : Shape) :
    s.Appends (s.emit operation shape).2 where
  nodes := ⟨#[operation], by simp [emit, Plan.addNode]⟩
  shapes := ⟨#[shape], by simp [emit]⟩
  experiments := rfl
  measurements := rfl
  environment := rfl

theorem appends_bind
    (s : Lowering R)
    (name : String)
    (id : NodeId) :
    s.Appends (s.bind name id) where
  toGrows := .of_eq rfl rfl
  experiments := rfl
  measurements := rfl
  environment := rfl

theorem Grows.size_le
    {s later : Lowering R}
    (hGrows : s.Grows later) :
    s.plan.size ≤ later.plan.size := by
  rcases hGrows.nodes with ⟨added, hNodes⟩
  rw [Plan.size, Plan.size, hNodes, Array.size_append]
  omega

/- A node stays what it is. -/
theorem Grows.operation?_eq
    {s later : Lowering R}
    {id : NodeId}
    (hGrows : s.Grows later)
    (hInside : id < s.plan.size) :
    later.plan.operation? id = s.plan.operation? id := by
  rcases hGrows.nodes with ⟨added, hNodes⟩
  rw [Plan.operation?, Plan.operation?, hNodes,
    Array.getElem?_append_left hInside]

theorem Grows.shapeOf_eq
    {s later : Lowering R}
    {id : NodeId}
    (hGrows : s.Grows later)
    (hInside : id < s.shapes.size) :
    later.shapeOf id = s.shapeOf id := by
  rcases hGrows.shapes with ⟨added, hShapes⟩
  rw [shapeOf, shapeOf, hShapes, Array.getElem?_append_left hInside]

/- A node keeps its value. -/
theorem Grows.denote_eq
    [Arithmetic R]
    {s later : Lowering R}
    {id : NodeId}
    (hGrows : s.Grows later)
    (hInside : id < s.plan.size) :
    later.plan.denote id = s.plan.denote id :=
  Plan.denote_congr
    (fun _ hBelow => hGrows.operation?_eq hBelow) hInside

/- Each node has a shape. -/
def Aligned (s : Lowering R) : Prop :=
  s.shapes.size = s.plan.size

theorem Aligned.emit
    {s : Lowering R}
    (hAligned : s.Aligned)
    (operation : Operation R)
    (shape : Shape) :
    (s.emit operation shape).2.Aligned := by
  have hSizes : s.shapes.size = s.plan.nodes.size := hAligned
  simp [Aligned, Lowering.emit, Plan.addNode, Plan.size, hSizes]

@[simp] theorem emit_fst
    (s : Lowering R)
    (operation : Operation R)
    (shape : Shape) :
    (s.emit operation shape).1 = s.plan.size :=
  rfl

@[simp] theorem size_emit
    (s : Lowering R)
    (operation : Operation R)
    (shape : Shape) :
    (s.emit operation shape).2.plan.size = s.plan.size + 1 := by
  simp [emit, Plan.addNode, Plan.size]

/- The node that is added is the last one. -/
theorem operation?_emit
    (s : Lowering R)
    (operation : Operation R)
    (shape : Shape) :
    (s.emit operation shape).2.plan.operation? s.plan.size =
      some operation := by
  simp [emit, Plan.addNode, Plan.operation?, Plan.size]

theorem shapeOf_emit
    {s : Lowering R}
    (hAligned : s.Aligned)
    (operation : Operation R)
    (shape : Shape) :
    (s.emit operation shape).2.shapeOf s.plan.size = shape := by
  have hSizes : s.plan.size = s.shapes.size := hAligned.symm
  simp [emit, shapeOf, hSizes]

@[simp] theorem symbols_emit
    (s : Lowering R)
    (operation : Operation R)
    (shape : Shape) :
    (s.emit operation shape).2.symbols = s.symbols :=
  rfl

@[simp] theorem symbolic_emit
    (s : Lowering R)
    (operation : Operation R)
    (shape : Shape) :
    (s.emit operation shape).2.symbolic = s.symbolic :=
  rfl

end Lowering

end QuantumLab

------------------------------------------------------------
-- Parts that are folded
------------------------------------------------------------

namespace QuantumLab

variable {R : Type}

/- Whether an operation is only there for scalars, which are folded. -/
def UnaryOp.isScalarFunction : UnaryOp → Bool
  | .sqrt => true
  | .sin => true
  | .cos => true
  | .exp => true
  | .dagger => false
  | .trace => false
  | .expm => false

/- Whether an expression is lowered to a single constant. -/
def Expr.isFolded : Expr R → Bool
  | .number _ => true
  | .matrix _ => true
  | .vector _ => true
  | .binary .power _ _ => true
  | .unary op _ => op.isScalarFunction
  | _ => false

namespace Lowering

variable [Arithmetic R]

omit [Arithmetic R] in
theorem emitConstant_eq
    (s : Lowering R)
    (name : String)
    (value : Value R) :
    s.emitConstant name value =
      (s.plan.size, (s.emitConstant name value).2) :=
  rfl

/- A scalar is folded to its value. -/
theorem fold_eq_ok
    {s later : Lowering R}
    {function : String}
    {expression : Expr R}
    {id : NodeId}
    (hFold : s.fold function expression = .ok (id, later)) :
    ∃ z, s.environment.evaluate expression = .ok (.scalar z) ∧
      id = s.plan.size ∧
        later = (s.emitConstant "" (.scalar z)).2 := by
  rcases bind_eq_ok_iff.1 hFold with ⟨value?, hEvaluated, hRest⟩
  cases value? with
  | none => exact absurd hRest refuse_ne_ok
  | some value =>
      cases value with
      | scalar z =>
          have hEmitted := Except.ok.inj hRest
          rw [emitConstant_eq] at hEmitted
          cases hEmitted
          exact ⟨z, Environment.evaluate?_eq_some_iff.1 hEvaluated,
            rfl, rfl⟩
      | vector v => exact absurd hRest refuse_ne_ok
      | matrix a => exact absurd hRest refuse_ne_ok

theorem fold_of_evaluate
    {s : Lowering R}
    {expression : Expr R}
    {z : Scalar R}
    (function : String)
    (hValue : s.environment.evaluate expression = .ok (.scalar z)) :
    s.fold function expression =
      .ok (s.emitConstant "" (.scalar z)) := by
  rw [fold, Environment.evaluate?_eq_some_iff.2 hValue]
  rfl

/- A divisor is a scalar that is not zero. -/
theorem reciprocal_eq_ok
    {s : Lowering R}
    {divisor : Expr R}
    {factor : Scalar R}
    (hReciprocal : s.reciprocal divisor = .ok factor) :
    ∃ w, s.environment.evaluate divisor = .ok (.scalar w) ∧
      w.isZero = false ∧ factor = Scalar.one / w := by
  rcases bind_eq_ok_iff.1 hReciprocal with
    ⟨value?, hEvaluated, hRest⟩
  cases value? with
  | none => exact absurd hRest refuse_ne_ok
  | some value =>
      cases value with
      | scalar w =>
          by_cases hZero : w.isZero = true
          · simp [hZero] at hRest
          · rw [Bool.not_eq_true] at hZero
            simp [hZero] at hRest
            exact ⟨w, Environment.evaluate?_eq_some_iff.1 hEvaluated,
              hZero, hRest.symm⟩
      | vector v => exact absurd hRest refuse_ne_ok
      | matrix a => exact absurd hRest refuse_ne_ok

theorem reciprocal_of_evaluate
    {s : Lowering R}
    {divisor : Expr R}
    {w : Scalar R}
    (hValue : s.environment.evaluate divisor = .ok (.scalar w))
    (hNonzero : w.isZero = false) :
    s.reciprocal divisor = .ok (Scalar.one / w) := by
  rw [reciprocal, Environment.evaluate?_eq_some_iff.2 hValue]
  simp [hNonzero]

end Lowering

end QuantumLab

------------------------------------------------------------
-- Rules
------------------------------------------------------------

namespace QuantumLab

variable {R : Type} [Arithmetic R]

namespace Lowering

/- The node of a quotient: the multiple by the reciprocal. -/
def emitQuotient
    (s : Lowering R)
    (factor : Scalar R)
    (dividend : NodeId) : NodeId × Lowering R :=
  let (factor, s) := s.emitConstant "" (.scalar factor)
  s.emit (.scalarMul factor dividend) (s.shapeOf dividend)

/- The node of an operation on two nodes. -/
def emitBinary
    (s : Lowering R)
    (op : BinaryOp)
    (lhs rhs : NodeId) : NodeId × Lowering R :=
  match op with
  | .subtract => s.emitDifference lhs rhs
  | .multiply => s.emitProduct lhs rhs
  | .tensor => s.emitTensor lhs rhs
  | .commutator => s.emit (.commutator lhs rhs) (s.shapeOf lhs)
  | .anticommutator => s.emitAnticommutator lhs rhs
  | _ => s.emit (.matrixAdd lhs rhs) (s.shapeOf lhs)

/- The node of an operation on a node. -/
def emitUnary
    (s : Lowering R)
    (op : UnaryOp)
    (operand : NodeId) : NodeId × Lowering R :=
  match op with
  | .dagger => s.emit (.dagger operand) (s.shapeOf operand).dagger
  | .trace => s.emit (.trace operand) .scalar
  | _ => s.emit (.matrixExp operand) (s.shapeOf operand)

/-
  The rules by which an expression is lowered: folded to a
  constant, looked up, or built from the nodes of its parts.
-/
inductive Lowers :
    Lowering R → Expr R → NodeId → Lowering R → Prop
  | constant
      {s : Lowering R}
      {expression : Expr R}
      {value : Value R} :
      expression.isFolded = true →
      s.environment.evaluate expression = .ok value →
      Lowers s expression s.plan.size (s.emitConstant "" value).2
  | name
      {s later : Lowering R}
      {name : String}
      {id : NodeId} :
      s.resolve name = .ok (id, later) →
      Lowers s (.identifier name) id later
  | quotient
      {s later : Lowering R}
      {lhs rhs : Expr R}
      {w : Scalar R}
      {dividend : NodeId} :
      s.environment.evaluate rhs = .ok (.scalar w) →
      w.isZero = false →
      Lowers s lhs dividend later →
      Lowers s (.binary .divide lhs rhs)
        (later.emitQuotient (Scalar.one / w) dividend).1
        (later.emitQuotient (Scalar.one / w) dividend).2
  | binary
      {s first second : Lowering R}
      {op : BinaryOp}
      {lhs rhs : Expr R}
      {l r : NodeId} :
      op ≠ .power →
      op ≠ .divide →
      Lowers s lhs l first →
      Lowers first rhs r second →
      Lowers s (.binary op lhs rhs)
        (second.emitBinary op l r).1 (second.emitBinary op l r).2
  | unary
      {s later : Lowering R}
      {op : UnaryOp}
      {operand : Expr R}
      {id : NodeId} :
      op.isScalarFunction = false →
      (op = .expm → (later.shapeOf id).isScalar = false) →
      Lowers s operand id later →
      Lowers s (.unary op operand)
        (later.emitUnary op id).1 (later.emitUnary op id).2
  | scalarExponential
      {s later : Lowering R}
      {operand : Expr R}
      {id : NodeId}
      {z : Scalar R} :
      Lowers s operand id later →
      (later.shapeOf id).isScalar = true →
      later.environment.evaluate (.unary .expm operand) =
        .ok (.scalar z) →
      Lowers s (.unary .expm operand) later.plan.size
        (later.emitConstant "" (.scalar z)).2

/- A literal that is lowered is a constant. -/
theorem lowers_literal
    {s later : Lowering R}
    {expression : Expr R}
    {id : NodeId}
    (hFolded : expression.isFolded = true)
    (hLower : (do
      let value ← s.environment.evaluate expression
      return s.emitConstant "" value) = .ok (id, later)) :
    Lowers s expression id later := by
  rcases bind_eq_ok_iff.1 hLower with ⟨value, hValue, hDone⟩
  have hEmitted := pure_eq_ok_iff.1 hDone
  rw [emitConstant_eq] at hEmitted
  cases hEmitted
  exact .constant hFolded hValue

/- A scalar function that is lowered is a constant. -/
theorem lowers_fold
    {s later : Lowering R}
    {function : String}
    {expression : Expr R}
    {id : NodeId}
    (hFolded : expression.isFolded = true)
    (hLower : s.fold function expression = .ok (id, later)) :
    Lowers s expression id later := by
  rcases fold_eq_ok hLower with ⟨z, hValue, rfl, rfl⟩
  exact .constant hFolded hValue

/- An operation on two parts is lowered from their nodes. -/
theorem lowers_binary
    {s later : Lowering R}
    {op : BinaryOp}
    {lhs rhs : Expr R}
    {id : NodeId}
    (hPower : op ≠ .power)
    (hDivide : op ≠ .divide)
    (hLhs : ∀ {s later : Lowering R} {id : NodeId},
      s.lower lhs = .ok (id, later) → Lowers s lhs id later)
    (hRhs : ∀ {s later : Lowering R} {id : NodeId},
      s.lower rhs = .ok (id, later) → Lowers s rhs id later)
    (hLower : (do
      let (l, s) ← s.lower lhs
      let (r, s) ← s.lower rhs
      return s.emitBinary op l r) = .ok (id, later)) :
    Lowers s (.binary op lhs rhs) id later := by
  rcases bind_eq_ok_iff.1 hLower with ⟨⟨l, first⟩, hFirst, hRest⟩
  rcases bind_eq_ok_iff.1 hRest with ⟨⟨r, second⟩, hSecond, hDone⟩
  have hEmitted := pure_eq_ok_iff.1 hDone
  have hBinary :=
    Lowers.binary hPower hDivide (hLhs hFirst) (hRhs hSecond)
  rw [hEmitted] at hBinary
  exact hBinary

/- An operation on a part is lowered from its node. -/
theorem lowers_unary
    {s last later : Lowering R}
    {op : UnaryOp}
    {operand : Expr R}
    {k id : NodeId}
    (hScalarFunction : op.isScalarFunction = false)
    (hShape : op = .expm → (last.shapeOf k).isScalar = false)
    (hOperand : Lowers s operand k last)
    (hEmitted : last.emitUnary op k = (id, later)) :
    Lowers s (.unary op operand) id later := by
  have hUnary := Lowers.unary hScalarFunction hShape hOperand
  rw [hEmitted] at hUnary
  exact hUnary

/- Every expression that is lowered is lowered by one of the rules. -/
theorem lowers_of_lower
    {s later : Lowering R}
    {expression : Expr R}
    {id : NodeId}
    (hLower : s.lower expression = .ok (id, later)) :
    Lowers s expression id later := by
  induction expression using Expr.induction generalizing s later id with
  | missing => exact absurd hLower refuse_ne_ok
  | number z =>
      have hEmitted := Except.ok.inj hLower
      rw [emitConstant_eq] at hEmitted
      cases hEmitted
      exact .constant rfl rfl
  | identifier name => exact .name hLower
  | matrix rows => exact lowers_literal rfl hLower
  | vector elements => exact lowers_literal rfl hLower
  | binary op lhs rhs ihLhs ihRhs =>
      cases op with
      | power => exact lowers_fold rfl hLower
      | divide =>
          rcases bind_eq_ok_iff.1 hLower with
            ⟨factor, hFactor, hRest⟩
          rcases bind_eq_ok_iff.1 hRest with
            ⟨⟨dividend, last⟩, hDividend, hDone⟩
          rcases reciprocal_eq_ok hFactor with
            ⟨w, hDivisor, hNonzero, rfl⟩
          have hEmitted :
              last.emitQuotient (Scalar.one / w) dividend =
                (id, later) := pure_eq_ok_iff.1 hDone
          have hQuotient :=
            Lowers.quotient hDivisor hNonzero (ihLhs hDividend)
          rw [hEmitted] at hQuotient
          exact hQuotient
      | add => exact lowers_binary nofun nofun ihLhs ihRhs hLower
      | subtract => exact lowers_binary nofun nofun ihLhs ihRhs hLower
      | multiply => exact lowers_binary nofun nofun ihLhs ihRhs hLower
      | tensor => exact lowers_binary nofun nofun ihLhs ihRhs hLower
      | commutator => exact lowers_binary nofun nofun ihLhs ihRhs hLower
      | anticommutator =>
          exact lowers_binary nofun nofun ihLhs ihRhs hLower
  | unary op operand ih =>
      cases op with
      | sqrt => exact lowers_fold rfl hLower
      | sin => exact lowers_fold rfl hLower
      | cos => exact lowers_fold rfl hLower
      | exp => exact lowers_fold rfl hLower
      | dagger =>
          rcases bind_eq_ok_iff.1 hLower with
            ⟨⟨k, last⟩, hOperand, hDone⟩
          exact lowers_unary rfl nofun (ih hOperand)
            (pure_eq_ok_iff.1 hDone)
      | trace =>
          rcases bind_eq_ok_iff.1 hLower with
            ⟨⟨k, last⟩, hOperand, hDone⟩
          exact lowers_unary rfl nofun (ih hOperand)
            (pure_eq_ok_iff.1 hDone)
      | expm =>
          rcases bind_eq_ok_iff.1 hLower with
            ⟨⟨k, last⟩, hOperand, hDone⟩
          by_cases hScalar : (last.shapeOf k).isScalar = true
          · simp only [hScalar, if_true] at hDone
            rcases fold_eq_ok hDone with ⟨z, hValue, rfl, rfl⟩
            exact .scalarExponential (ih hOperand) hScalar hValue
          · simp only [hScalar] at hDone
            rw [Bool.not_eq_true] at hScalar
            exact lowers_unary rfl (fun _ => hScalar) (ih hOperand)
              (pure_eq_ok_iff.1 hDone)
  | call function arguments => exact absurd hLower refuse_ne_ok

end Lowering

end QuantumLab
