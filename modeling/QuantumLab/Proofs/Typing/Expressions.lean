import QuantumLab.Double
import QuantumLab.Proofs.Execution.Typing
import QuantumLab.Proofs.Lowering.Planned
import QuantumLab.Typing

/-
  This file compares the inference of shapes with the
  evaluation of expressions.

  Key definitions include:
    * `Expr.Part`, `Expr.Mentions`
    * `Environment.ExtentsFit`
    * `Scope.Consistent`
    * `Fault.EscapesShapes`

  Main statements:
    * `Scope.Consistent.infer_of_evaluate` says that an
      expression with a value has its shape inferred.
    * `Scope.infer_agrees_evaluate` says in addition how an
      expression with a shape is evaluated.
-/

------------------------------------------------------------
-- Operands of operations
------------------------------------------------------------

namespace QuantumLab

variable {R : Type} [Arithmetic R]

/- Values that are added have one shape. -/
theorem shape_eq_of_addMultiple
    {op : BinaryOp}
    {factor : Scalar R}
    {a b v : Value R}
    (hValue : addMultiple op factor a b = .ok v) :
    a.shape = b.shape := by
  cases a with
  | scalar z =>
      cases b with
      | scalar w => rfl
      | vector w => exact absurd hValue refuse_ne_ok
      | matrix b => exact absurd hValue refuse_ne_ok
  | vector v =>
      cases b with
      | scalar w => exact absurd hValue refuse_ne_ok
      | vector w =>
          rcases map_eq_ok_iff.1 hValue with ⟨u, hSum, _⟩
          have hSizes := (Guarded.vectorSum_eq_ok_iff.1 hSum).1
          rw [Vec.size_scale] at hSizes
          exact congrArg Shape.vector hSizes
      | matrix b => exact absurd hValue refuse_ne_ok
  | matrix a =>
      cases b with
      | scalar w => exact absurd hValue refuse_ne_ok
      | vector w => exact absurd hValue refuse_ne_ok
      | matrix b =>
          rcases map_eq_ok_iff.1 hValue with ⟨c, hSum, _⟩
          exact (Guarded.sum_eq_ok_iff.1 hSum).1

omit [Arithmetic R] in
/- Two matrices of one shape that is square have the same extent. -/
theorem Mat.exists_square
    {a b : Mat R}
    (hSquare : a.rows = a.cols)
    (hSame : a.shape = b.shape) :
    ∃ n, a.shape = .matrix n n ∧ b.shape = .matrix n n := by
  have hShape : a.shape = .matrix a.rows a.rows := by
    rw [Mat.shape, ← hSquare]
  exact ⟨a.rows, hShape, hSame.symm.trans hShape⟩

/- Only square matrices of one shape have a commutator. -/
theorem exists_square_of_commutator
    {a b v : Value R}
    (hValue : BinaryOp.commutator.apply a b = .ok v) :
    ∃ n, a.shape = .matrix n n ∧ b.shape = .matrix n n := by
  cases a <;> cases b <;>
    simp [BinaryOp.apply, BinaryOp.mismatch, map_eq_ok_iff,
      Guarded.commutator_eq_ok_iff] at hValue
  exact Mat.exists_square hValue.1.1 hValue.1.2

theorem exists_square_of_anticommutator
    {a b v : Value R}
    (hValue : BinaryOp.anticommutator.apply a b = .ok v) :
    ∃ n, a.shape = .matrix n n ∧ b.shape = .matrix n n := by
  cases a <;> cases b <;>
    simp [BinaryOp.apply, BinaryOp.mismatch, map_eq_ok_iff,
      Guarded.anticommutator_eq_ok_iff] at hValue
  exact Mat.exists_square hValue.1.1 hValue.1.2

/- Only a square matrix has a trace. -/
theorem exists_square_of_trace
    {a v : Value R}
    (hValue : UnaryOp.trace.apply a = .ok v) :
    ∃ n, a.shape = .matrix n n := by
  cases a with
  | scalar z => exact absurd hValue refuse_ne_ok
  | vector w => exact absurd hValue refuse_ne_ok
  | matrix a =>
      rcases map_eq_ok_iff.1 hValue with ⟨z, hTrace, _⟩
      have hSquare := (Guarded.trace_eq_ok_iff.1 hTrace).1
      exact ⟨a.cols, congrArg (Shape.matrix · a.cols) hSquare⟩

/- Only a scalar or a square matrix has an exponential. -/
theorem exists_square_of_exponential
    {a v : Value R}
    (hValue : UnaryOp.expm.apply a = .ok v)
    (hNotScalar : a.shape ≠ .scalar) :
    ∃ n, a.shape = .matrix n n := by
  cases a with
  | scalar z => exact absurd rfl hNotScalar
  | vector w => exact absurd hValue refuse_ne_ok
  | matrix a =>
      rcases map_eq_ok_iff.1 hValue with ⟨b, hExponential, _⟩
      have hSquare := (Guarded.shape_exponential hExponential).1
      exact ⟨a.cols, congrArg (Shape.matrix · a.cols) hSquare⟩

end QuantumLab

------------------------------------------------------------
-- Shapes of operations
------------------------------------------------------------

namespace QuantumLab

variable {R : Type}

theorem Shape.wrap_of_lt
    {n : Nat}
    (hFits : n < UInt64.size) :
    Shape.wrap n = n := by
  unfold Shape.wrap
  exact Nat.mod_eq_of_lt hFits

/- The shape of a product is the shape of the result. -/
theorem resultShape_of_multiplyShape
    {lhs rhs shape : Shape}
    (hShape : (multiplyShape lhs rhs : Except (Fault R) Shape) =
      .ok shape) :
    BinaryOp.multiply.resultShape lhs rhs = shape := by
  cases lhs with
  | scalar => exact Except.ok.inj hShape
  | vector n =>
      cases rhs with
      | scalar => exact Except.ok.inj hShape
      | vector n' => exact absurd hShape refuse_ne_ok
      | matrix r' c' => exact absurd hShape refuse_ne_ok
  | matrix r c =>
      cases rhs with
      | scalar => exact Except.ok.inj hShape
      | vector n => exact (ite_refuse_eq_ok_iff.1 hShape).2
      | matrix r' c' => exact (ite_refuse_eq_ok_iff.1 hShape).2

/- The extents of a Kronecker product that fit are not wrapped. -/
theorem resultShape_of_tensorShape
    {lhs rhs shape : Shape}
    (hShape : tensorShape? lhs rhs = some shape)
    (hRows : (BinaryOp.tensor.resultShape lhs rhs).rows < UInt64.size)
    (hCols : (BinaryOp.tensor.resultShape lhs rhs).cols < UInt64.size) :
    BinaryOp.tensor.resultShape lhs rhs = shape := by
  cases lhs with
  | scalar => cases hShape
  | vector n =>
      cases rhs with
      | scalar => cases hShape
      | matrix r' c' => cases hShape
      | vector n' =>
          have hLength : Shape.wrap (n * n') = n * n' :=
            Shape.wrap_of_lt hRows
          rw [← Option.some.inj hShape, hLength]
          rfl
  | matrix r c =>
      cases rhs with
      | scalar => cases hShape
      | vector n => cases hShape
      | matrix r' c' =>
          have hHeight : Shape.wrap (r * r') = r * r' :=
            Shape.wrap_of_lt hRows
          have hWidth : Shape.wrap (c * c') = c * c' :=
            Shape.wrap_of_lt hCols
          rw [← Option.some.inj hShape, hHeight, hWidth]
          rfl

/- The shape of an operation is the shape of its result. -/
theorem BinaryOp.resultShape_of_shape
    {op : BinaryOp}
    {lhs rhs shape : Shape}
    (hShape : (op.shape lhs rhs : Except (Fault R) Shape) = .ok shape)
    (hFits : op = .tensor →
      (op.resultShape lhs rhs).rows < UInt64.size ∧
        (op.resultShape lhs rhs).cols < UInt64.size) :
    op.resultShape lhs rhs = shape := by
  cases op with
  | add => exact (ite_refuse_eq_ok_iff.1 hShape).2
  | subtract => exact (ite_refuse_eq_ok_iff.1 hShape).2
  | multiply => exact resultShape_of_multiplyShape hShape
  | divide => exact (ite_refuse_eq_ok_iff.1 hShape).2
  | power =>
      simp only [BinaryOp.shape] at hShape
      split at hShape
      · exact absurd hShape refuse_ne_ok
      · exact (ite_refuse_eq_ok_iff.1 hShape).2
  | tensor =>
      simp only [BinaryOp.shape] at hShape
      split at hShape
      · next hTensor =>
        rw [← Except.ok.inj hShape]
        exact resultShape_of_tensorShape hTensor (hFits rfl).1
          (hFits rfl).2
      · exact absurd hShape refuse_ne_ok
  | commutator => exact (ite_refuse_eq_ok_iff.1 hShape).2
  | anticommutator => exact (ite_refuse_eq_ok_iff.1 hShape).2

theorem UnaryOp.resultShape_of_shape
    {op : UnaryOp}
    {operand shape : Shape}
    (hShape : (op.shape operand : Except (Fault R) Shape) =
      .ok shape) :
    op.resultShape operand = shape := by
  have hScalar : operand.isScalar = true ∧ Shape.scalar = shape →
      operand = shape := by
    rintro ⟨hOperand, hResult⟩
    rw [Shape.isScalar_eq_true_iff.1 hOperand, hResult]
  cases op with
  | dagger => exact Except.ok.inj hShape
  | trace => exact (ite_refuse_eq_ok_iff.1 hShape).2
  | expm => exact (ite_refuse_eq_ok_iff.1 hShape).2
  | sqrt => exact (ite_refuse_eq_ok_iff.1 hShape).2
  | sin => exact hScalar (ite_refuse_eq_ok_iff.1 hShape)
  | cos => exact hScalar (ite_refuse_eq_ok_iff.1 hShape)
  | exp => exact hScalar (ite_refuse_eq_ok_iff.1 hShape)

end QuantumLab

------------------------------------------------------------
-- Operations with a shape
------------------------------------------------------------

namespace QuantumLab

variable {R : Type}

/-
  What shapes cannot exclude: a value that is not there or
  an operation that is not supported, a division by zero, and
  eigenvalues that are not found.
-/
def Fault.EscapesShapes (fault : Fault R) : Prop :=
  fault.kind = .unsupported ∨
    fault.kind = .execution ∧
      (fault.cause = .divisionByZero .evaluation ∨
        fault.cause = .unsettledExponential)

theorem Fault.IsNumeric.escapesShapes
    {fault : Fault R}
    (hNumeric : fault.IsNumeric) :
    fault.EscapesShapes := by
  rcases fault with ⟨cause, node⟩
  cases hNumeric with
  | unsettled => exact .inr ⟨rfl, .inr rfl⟩
  | exponential gap skewGap => exact .inl rfl

variable [Arithmetic R]

theorem exists_multiplyShape
    {a b v : Value R}
    (hValue : multiplyValues a b = .ok v) :
    ∃ s, (multiplyShape a.shape b.shape : Except (Fault R) Shape) =
      .ok s := by
  cases a with
  | scalar z => exact ⟨_, rfl⟩
  | vector u =>
      cases b with
      | scalar w => exact ⟨_, rfl⟩
      | vector w => exact absurd hValue refuse_ne_ok
      | matrix b => exact absurd hValue refuse_ne_ok
  | matrix a =>
      cases b with
      | scalar w => exact ⟨_, rfl⟩
      | vector w =>
          rcases map_eq_ok_iff.1 hValue with ⟨u, hProduct, _⟩
          exact ⟨_, if_pos (Guarded.vectorProduct_eq_ok_iff.1 hProduct).1⟩
      | matrix b =>
          rcases map_eq_ok_iff.1 hValue with ⟨c, hProduct, _⟩
          exact ⟨_, if_pos (Guarded.product_eq_ok_iff.1 hProduct).1⟩

/- An operation that gives a value has a shape. -/
theorem BinaryOp.exists_shape
    {op : BinaryOp}
    {a b v : Value R}
    (hValue : op.apply a b = .ok v) :
    ∃ s, (op.shape a.shape b.shape : Except (Fault R) Shape) =
      .ok s := by
  cases op with
  | add => exact ⟨_, if_pos (shape_eq_of_addMultiple hValue)⟩
  | subtract => exact ⟨_, if_pos (shape_eq_of_addMultiple hValue)⟩
  | multiply => exact exists_multiplyShape hValue
  | divide =>
      cases b with
      | scalar w => exact ⟨_, rfl⟩
      | vector w => exact absurd hValue refuse_ne_ok
      | matrix b => exact absurd hValue refuse_ne_ok
  | power =>
      cases a <;> cases b <;> simp [apply] at hValue
      exact ⟨_, rfl⟩
  | tensor =>
      cases a <;> cases b <;> simp [apply, mismatch] at hValue
      · exact ⟨_, rfl⟩
      · exact ⟨_, rfl⟩
  | commutator =>
      rcases exists_square_of_commutator hValue with ⟨n, hA, hB⟩
      rw [hA, hB]
      exact ⟨.matrix n n, by simp [shape, Shape.square, Shape.rows]⟩
  | anticommutator =>
      rcases exists_square_of_anticommutator hValue with ⟨n, hA, hB⟩
      rw [hA, hB]
      exact ⟨.matrix n n, by simp [shape, Shape.square, Shape.rows]⟩

theorem UnaryOp.exists_shape
    {op : UnaryOp}
    {a v : Value R}
    (hValue : op.apply a = .ok v) :
    ∃ s, (op.shape a.shape : Except (Fault R) Shape) = .ok s := by
  cases op with
  | dagger => exact ⟨_, rfl⟩
  | trace =>
      rcases exists_square_of_trace hValue with ⟨n, hA⟩
      exact ⟨.scalar, by simp [shape, hA, Shape.square, Shape.rows]⟩
  | expm =>
      by_cases hScalar : a.shape = .scalar
      · exact ⟨.scalar, by simp [shape, hScalar]⟩
      · rcases exists_square_of_exponential hValue hScalar with ⟨n, hA⟩
        exact ⟨.matrix n n, by simp [shape, hA, Shape.square, Shape.rows]⟩
  | sqrt =>
      cases a <;> simp [apply] at hValue
      exact ⟨_, rfl⟩
  | sin =>
      cases a <;> simp [apply, applyToScalar] at hValue
      exact ⟨_, rfl⟩
  | cos =>
      cases a <;> simp [apply, applyToScalar] at hValue
      exact ⟨_, rfl⟩
  | exp =>
      cases a <;> simp [apply, applyToScalar] at hValue
      exact ⟨_, rfl⟩

/- The shape of an operation with a value is that of the value. -/
theorem BinaryOp.shape_of_apply
    {op : BinaryOp}
    {a b v : Value R}
    (hValue : op.apply a b = .ok v)
    (hFits : op = .tensor →
      v.shape.rows < UInt64.size ∧ v.shape.cols < UInt64.size) :
    (op.shape a.shape b.shape : Except (Fault R) Shape) =
      .ok v.shape := by
  rcases BinaryOp.exists_shape hValue with ⟨s, hShape⟩
  rw [BinaryOp.shape_apply hValue] at hFits ⊢
  rw [hShape, BinaryOp.resultShape_of_shape hShape hFits]

theorem UnaryOp.shape_of_apply
    {op : UnaryOp}
    {a v : Value R}
    (hValue : op.apply a = .ok v) :
    (op.shape a.shape : Except (Fault R) Shape) = .ok v.shape := by
  rcases UnaryOp.exists_shape hValue with ⟨s, hShape⟩
  rw [UnaryOp.shape_apply hValue, hShape,
    UnaryOp.resultShape_of_shape hShape]

/- A sum of values of one shape has a value. -/
theorem exists_addMultiple
    {op : BinaryOp}
    {a b : Value R}
    (hSame : a.shape = b.shape)
    (factor : Scalar R) :
    ∃ v, addMultiple op factor a b = .ok v := by
  cases a with
  | scalar z =>
      rcases Value.exists_scalar hSame.symm with ⟨w, rfl⟩
      exact ⟨_, rfl⟩
  | vector u =>
      rcases Value.exists_vector hSame.symm with ⟨w, rfl, hSize⟩
      have hSum := Guarded.vectorSum_eq_ok_iff.2
        ⟨hSize.symm.trans (Vec.size_scale factor w).symm, rfl⟩
      exact ⟨_, congrArg (Value.vector <$> ·) hSum⟩
  | matrix a =>
      rcases Value.exists_matrix hSame.symm with ⟨b, rfl, hRows, hCols⟩
      have hExtents : a.shape = (b.scale factor).shape := by
        rw [Mat.shape_scale, Mat.shape, Mat.shape, hRows, hCols]
      have hSum := Guarded.sum_eq_ok_iff.2 ⟨hExtents, rfl⟩
      exact ⟨_, congrArg (Value.matrix <$> ·) hSum⟩

/- A product with a shape has a value. -/
theorem exists_multiplyValues
    {a b : Value R}
    {s : Shape}
    (hShape : (multiplyShape a.shape b.shape :
      Except (Fault R) Shape) = .ok s) :
    ∃ v, multiplyValues a b = .ok v := by
  cases a with
  | scalar z => exact ⟨_, rfl⟩
  | vector u =>
      cases b with
      | scalar w => exact ⟨_, rfl⟩
      | vector w => exact absurd hShape refuse_ne_ok
      | matrix b => exact absurd hShape refuse_ne_ok
  | matrix a =>
      cases b with
      | scalar w => exact ⟨_, rfl⟩
      | vector w =>
          have hProduct := Guarded.vectorProduct_eq_ok_iff.2
            ⟨(ite_refuse_eq_ok_iff.1 hShape).1, rfl⟩
          exact ⟨_, congrArg (Value.vector <$> ·) hProduct⟩
      | matrix b =>
          have hProduct := Guarded.product_eq_ok_iff.2
            ⟨(ite_refuse_eq_ok_iff.1 hShape).1, rfl⟩
          exact ⟨_, congrArg (Value.matrix <$> ·) hProduct⟩

omit [Arithmetic R] in
/- A value of the shape of a square matrix is one. -/
theorem Value.exists_square
    {v : Value R}
    (hSquare : v.shape.isSquareMatrix = true) :
    ∃ a : Mat R, v = .matrix a ∧ a.rows = a.cols := by
  cases v with
  | scalar z => cases hSquare
  | vector w => cases hSquare
  | matrix a => exact ⟨a, rfl, beq_iff_eq.1 hSquare⟩

omit [Arithmetic R] in
theorem Value.exists_same_square
    {v w : Value R}
    (hTest : (v.shape.isSquareMatrix && v.shape == w.shape) = true) :
    ∃ a b : Mat R, v = .matrix a ∧ w = .matrix b ∧
      a.rows = a.cols ∧ a.shape = b.shape := by
  rw [Bool.and_eq_true, beq_iff_eq] at hTest
  rcases Value.exists_square hTest.1 with ⟨a, rfl, hSquare⟩
  rcases Value.exists_matrix hTest.2.symm with ⟨b, rfl, _⟩
  exact ⟨a, b, rfl, rfl, hSquare, hTest.2⟩

/- An operation with a shape fails only for what shapes cannot exclude. -/
theorem BinaryOp.ends_apply
    {op : BinaryOp}
    {a b : Value R}
    {s : Shape}
    (hShape : (op.shape a.shape b.shape : Except (Fault R) Shape) =
      .ok s) :
    Ends (fun _ => True) Fault.EscapesShapes (op.apply a b) := by
  cases op with
  | add =>
      rcases exists_addMultiple (ite_refuse_eq_ok_iff.1 hShape).1
        Scalar.one with ⟨v, hValue⟩
      exact Ends.of_ok hValue trivial
  | subtract =>
      rcases exists_addMultiple (ite_refuse_eq_ok_iff.1 hShape).1
        (Scalar.ofReal (-(1.0 : R))) with ⟨v, hValue⟩
      exact Ends.of_ok hValue trivial
  | multiply =>
      rcases exists_multiplyValues hShape with ⟨v, hValue⟩
      exact Ends.of_ok hValue trivial
  | divide =>
      have hScalar := (ite_refuse_eq_ok_iff.1 hShape).1
      rw [Shape.isScalar_eq_true_iff] at hScalar
      rcases Value.exists_scalar hScalar with ⟨w, rfl⟩
      simp only [apply, divideValue]
      split
      · exact .inr ⟨rfl, .inl rfl⟩
      · exact trivial
  | power =>
      simp only [apply]
      split
      · exact trivial
      · exact .inl rfl
  | tensor =>
      simp only [BinaryOp.shape] at hShape
      cases a <;> cases b <;> first
        | exact trivial
        | exact absurd hShape refuse_ne_ok
  | commutator =>
      rcases Value.exists_same_square
          (ite_refuse_eq_ok_iff.1 hShape).1 with
        ⟨a, b, rfl, rfl, hRows, hSame⟩
      have hValue := Guarded.commutator_eq_ok_iff.2
        ⟨⟨hRows, hSame⟩, rfl⟩
      exact Ends.of_ok (congrArg (Value.matrix <$> ·) hValue) trivial
  | anticommutator =>
      rcases Value.exists_same_square
          (ite_refuse_eq_ok_iff.1 hShape).1 with
        ⟨a, b, rfl, rfl, hRows, hSame⟩
      have hValue := Guarded.anticommutator_eq_ok_iff.2
        ⟨⟨hRows, hSame⟩, rfl⟩
      exact Ends.of_ok (congrArg (Value.matrix <$> ·) hValue) trivial

theorem UnaryOp.ends_apply
    {op : UnaryOp}
    {a : Value R}
    {s : Shape}
    (hShape : (op.shape a.shape : Except (Fault R) Shape) = .ok s) :
    Ends (fun _ => True) Fault.EscapesShapes (op.apply a) := by
  have hScalar : (if a.shape.isScalar = true then .ok .scalar else
      refuse (.mismatch .scalar a.shape "scalar function") :
        Except (Fault R) Shape) = .ok s → ∃ z, a = .scalar z := by
    intro hTest
    exact Value.exists_scalar
      (Shape.isScalar_eq_true_iff.1 (ite_refuse_eq_ok_iff.1 hTest).1)
  cases op with
  | dagger => exact trivial
  | trace =>
      rcases Value.exists_square (ite_refuse_eq_ok_iff.1 hShape).1 with
        ⟨m, rfl, hSquare⟩
      have hValue := Guarded.trace_eq_ok_iff.2 ⟨hSquare, rfl⟩
      exact Ends.of_ok (congrArg (Value.scalar <$> ·) hValue) trivial
  | expm =>
      have hTest := (ite_refuse_eq_ok_iff.1 hShape).1
      rw [Bool.or_eq_true] at hTest
      rcases hTest with hScalar | hSquare
      · rcases Value.exists_scalar
            (Shape.isScalar_eq_true_iff.1 hScalar) with
          ⟨z, rfl⟩
        exact trivial
      · rcases Value.exists_square hSquare with ⟨m, rfl, hExtents⟩
        have hEnds := Guarded.ends_exponential hExtents
        simp only [apply]
        cases hResult : Guarded.exponential m with
        | ok b => exact trivial
        | error fault =>
            rw [hResult] at hEnds
            exact Fault.IsNumeric.escapesShapes hEnds
  | sqrt =>
      simp only [apply]
      split
      · exact trivial
      · exact .inl rfl
  | sin =>
      rcases hScalar hShape with ⟨z, rfl⟩
      exact trivial
  | cos =>
      rcases hScalar hShape with ⟨z, rfl⟩
      exact trivial
  | exp =>
      rcases hScalar hShape with ⟨z, rfl⟩
      exact trivial

end QuantumLab

------------------------------------------------------------
-- Parts of expressions
------------------------------------------------------------

namespace QuantumLab

variable {R : Type}

/-
  The expressions that an expression is made of, the
  expression itself included.
-/
inductive Expr.Part (part : Expr R) : Expr R → Prop
  | self : part.Part part
  | entry
      {rows : List (List (Expr R))}
      {row : List (Expr R)}
      {element : Expr R} :
      row ∈ rows →
      element ∈ row →
      part.Part element →
      part.Part (.matrix rows)
  | component
      {elements : List (Expr R)}
      {element : Expr R} :
      element ∈ elements →
      part.Part element →
      part.Part (.vector elements)
  | lhs
      {op : BinaryOp}
      {lhs rhs : Expr R} :
      part.Part lhs →
      part.Part (.binary op lhs rhs)
  | rhs
      {op : BinaryOp}
      {lhs rhs : Expr R} :
      part.Part rhs →
      part.Part (.binary op lhs rhs)
  | operand
      {op : UnaryOp}
      {operand : Expr R} :
      part.Part operand →
      part.Part (.unary op operand)
  | argument
      {function : String}
      {arguments : List (Expr R)}
      {argument : Expr R} :
      argument ∈ arguments →
      part.Part argument →
      part.Part (.call function arguments)

/- A name occurs in an expression. -/
def Expr.Mentions (e : Expr R) (name : String) : Prop :=
  (Expr.identifier name).Part e

/-
  The extents of all Kronecker products in an expression fit
  into machine words, also of those inside of literals.
-/
def Environment.ExtentsFit
    [Arithmetic R]
    (names : Environment R)
    (e : Expr R) : Prop :=
  ∀ lhs rhs v, (Expr.binary .tensor lhs rhs).Part e →
    names.evaluate (.binary .tensor lhs rhs) = .ok v →
      v.shape.rows < UInt64.size ∧ v.shape.cols < UInt64.size

end QuantumLab

------------------------------------------------------------
-- Expressions with a value
------------------------------------------------------------

namespace QuantumLab

variable {R : Type} [Arithmetic R]

namespace Environment

variable {names : Environment R}

omit [Arithmetic R] in
theorem elementOf_eq_ok_iff
    {v : Value R}
    {z : Scalar R} :
    elementOf v = .ok z ↔ v = .scalar z := by
  cases v <;> simp [elementOf]

/- The elements of a literal with a value are scalars. -/
theorem exists_of_evaluateElements
    {elements : List (Expr R)}
    {entries : List (Scalar R)}
    (hEntries : names.evaluateElements elements = .ok entries) :
    ∀ element ∈ elements,
      ∃ z, names.evaluate element = .ok (.scalar z) := by
  induction elements generalizing entries with
  | nil => simp
  | cons element rest ih =>
      unfold evaluateElements at hEntries
      rcases bind_eq_ok_iff.1 hEntries with ⟨v, hValue, hRest⟩
      rcases bind_eq_ok_iff.1 hRest with ⟨z, hElement, hTail⟩
      rcases bind_eq_ok_iff.1 hTail with ⟨others, hOthers, _⟩
      refine List.forall_mem_cons.2 ⟨⟨z, ?_⟩, ih hOthers⟩
      rw [hValue, elementOf_eq_ok_iff.1 hElement]

/- The rows of a literal with a value are equally long. -/
theorem exists_of_evaluateRows
    {rows : List (List (Expr R))}
    {columns k : Nat}
    {entries : List (Scalar R)}
    (hEntries : names.evaluateRows columns k rows = .ok entries) :
    ∀ row ∈ rows, row.length = columns ∧ ∀ element ∈ row,
      ∃ z, names.evaluate element = .ok (.scalar z) := by
  induction rows generalizing k entries with
  | nil => simp
  | cons row rest ih =>
      unfold evaluateRows at hEntries
      by_cases hLength : row.length = columns
      · rw [if_pos hLength] at hEntries
        rcases bind_eq_ok_iff.1 hEntries with ⟨first, hFirst, hRest⟩
        rcases bind_eq_ok_iff.1 hRest with ⟨others, hOthers, _⟩
        exact List.forall_mem_cons.2
          ⟨⟨hLength, exists_of_evaluateElements hFirst⟩, ih hOthers⟩
      · rw [if_neg hLength] at hEntries
        exact absurd hEntries refuse_ne_ok

end Environment

namespace Scope

variable {scope : Scope} {names : Environment R}

omit [Arithmetic R] in
/- The shape of a name is looked up where no parameters hide it. -/
theorem lookup_eq_ok_iff
    {name : String}
    {shape : Shape}
    (hTop : scope.parameters = []) :
    (scope.lookup name : Except (Fault R) Shape) = .ok shape ↔
      scope.shapes.find? name = some shape := by
  unfold Scope.lookup
  rw [hTop, if_neg List.not_mem_nil]
  cases scope.shapes.find? name with
  | none => simp
  | some other => simp

omit [Arithmetic R] in
theorem inferScalars_eq_ok_iff
    {subject : String}
    {elements : List (Expr R)} :
    scope.inferScalars subject elements = .ok () ↔
      ∀ element ∈ elements, scope.infer element = .ok .scalar := by
  induction elements with
  | nil => simp [inferScalars]
  | cons element rest ih =>
      unfold inferScalars
      rw [bind_eq_ok_iff, List.forall_mem_cons, ← ih]
      constructor
      · rintro ⟨shape, hInfer, hRest⟩
        split at hRest
        · next hScalar =>
          rw [hInfer, Shape.isScalar_eq_true_iff.1 hScalar]
          exact ⟨rfl, hRest⟩
        · exact absurd hRest refuse_ne_ok
      · rintro ⟨hInfer, hRest⟩
        exact ⟨.scalar, hInfer, hRest⟩

omit [Arithmetic R] in
theorem inferRows_eq_ok_iff
    {columns k : Nat}
    {rows : List (List (Expr R))} :
    scope.inferRows columns k rows = .ok () ↔
      ∀ row ∈ rows, row.length = columns ∧
        ∀ element ∈ row, scope.infer element = .ok .scalar := by
  induction rows generalizing k with
  | nil => simp [inferRows]
  | cons row rest ih =>
      unfold inferRows
      rw [List.forall_mem_cons, ← ih (k := k + 1)]
      by_cases hLength : row.length = columns
      · rw [if_pos hLength, unit_bind_eq_ok_iff, inferScalars_eq_ok_iff]
        simp [hLength]
      · simp [hLength]

/-
  The table of shapes and the values go together: names with
  a value have its shape, nothing else has a shape than names
  that are known without a value, and no parameters hide
  names.  A name without a value need not have a shape.
-/
structure Consistent
    (scope : Scope)
    (names : Environment R) : Prop where
  top : scope.parameters = []
  shapes : ∀ name v, names.lookup name = some v →
    scope.shapes.find? name = some v.shape
  known : ∀ name shape, scope.shapes.find? name = some shape →
    names.lookup name = none → names.isSymbolic name = true

/- At first the predefined operators have two rows and columns. -/
theorem shape_initial
    {name : String}
    {value : Value R}
    (hName : (Environment.initial : Environment R).lookup name =
      some value) :
    initial.shapes.find? name = some value.shape := by
  rw [Environment.lookup_initial] at hName
  rcases Option.map_eq_some_iff.1 hName with ⟨a, hFound, rfl⟩
  have hMember := Rows.mem_of_find? hFound
  simp only [Predefined.operators, List.mem_cons, Prod.mk.injEq,
    List.not_mem_nil, or_false] at hMember
  rcases hMember with
    ⟨rfl, rfl⟩ | ⟨rfl, rfl⟩ | ⟨rfl, rfl⟩ | ⟨rfl, rfl⟩
  · rfl
  · rfl
  · rfl
  · rfl

/- At first the table of shapes goes with the predefined operators. -/
theorem consistent_initial :
    Scope.initial.Consistent (Environment.initial : Environment R) where
  top := rfl
  shapes _ _ hName := shape_initial hName
  known name shape hShape hNone := by
    rw [initial, Table.find?_ofList] at hShape
    have hRow := List.mem_reverse.1 (Rows.mem_of_find? hShape)
    rcases List.mem_map.1 hRow with ⟨other, hMember, hSame⟩
    cases hSame
    rw [Environment.lookup_initial] at hNone
    simp only [Predefined.names, List.mem_cons, List.not_mem_nil,
      or_false] at hMember
    rcases hMember with rfl | rfl | rfl | rfl
    · cases hNone
    · cases hNone
    · cases hNone
    · cases hNone

/- An expression with a value has the shape of the value. -/
theorem Consistent.infer_of_evaluate
    {e : Expr R}
    {v : Value R}
    (hConsistent : scope.Consistent names)
    (hFits : names.ExtentsFit e)
    (hValue : names.evaluate e = .ok v) :
    scope.infer e = .ok v.shape := by
  induction e using Expr.induction generalizing v with
  | missing => exact absurd hValue refuse_ne_ok
  | number z =>
      rw [← Except.ok.inj hValue]
      rfl
  | identifier name =>
      rw [Environment.evaluate, Environment.resolve_eq_ok_iff] at hValue
      rw [infer, lookup_eq_ok_iff hConsistent.top]
      exact hConsistent.shapes name v hValue
  | matrix rows ih =>
      rw [Expr.shape_of_isFolded rfl hValue]
      unfold Environment.evaluate at hValue
      split at hValue
      · exact absurd hValue refuse_ne_ok
      · next hColumns =>
        rcases bind_eq_ok_iff.1 hValue with ⟨entries, hEntries, _⟩
        have hRows : scope.inferRows (Expr.columns rows) 0 rows =
            .ok () := by
          refine inferRows_eq_ok_iff.2 fun row hRow => ?_
          rcases Environment.exists_of_evaluateRows hEntries row hRow with
            ⟨hLength, hElements⟩
          refine ⟨hLength, fun element hElement => ?_⟩
          rcases hElements element hElement with ⟨z, hElementValue⟩
          exact ih row hRow element hElement
            (fun lhs rhs w hPart =>
              hFits lhs rhs w (.entry hRow hElement hPart))
            hElementValue
        unfold infer
        rw [if_neg hColumns, hRows]
        rfl
  | vector elements ih =>
      rw [Expr.shape_of_isFolded rfl hValue]
      unfold Environment.evaluate at hValue
      split at hValue
      · exact absurd hValue refuse_ne_ok
      · next hEmpty =>
        rcases bind_eq_ok_iff.1 hValue with ⟨entries, hEntries, _⟩
        have hScalars : scope.inferScalars "element of vector literal"
            elements = .ok () := by
          refine inferScalars_eq_ok_iff.2 fun element hElement => ?_
          rcases Environment.exists_of_evaluateElements hEntries
              element hElement with
            ⟨z, hElementValue⟩
          exact ih element hElement
            (fun lhs rhs w hPart =>
              hFits lhs rhs w (.component hElement hPart))
            hElementValue
        unfold infer
        rw [if_neg hEmpty, hScalars]
        rfl
  | binary op lhs rhs ihLhs ihRhs =>
      have hExtents : op = .tensor →
          v.shape.rows < UInt64.size ∧ v.shape.cols < UInt64.size := by
        rintro rfl
        exact hFits lhs rhs v .self hValue
      unfold Environment.evaluate at hValue
      rcases bind_eq_ok_iff.1 hValue with ⟨a, hA, hRest⟩
      rcases bind_eq_ok_iff.1 hRest with ⟨b, hB, hApplied⟩
      have hLhs := ihLhs
        (fun l r w hPart => hFits l r w (.lhs hPart)) hA
      have hRhs := ihRhs
        (fun l r w hPart => hFits l r w (.rhs hPart)) hB
      unfold infer
      rw [hLhs, hRhs]
      exact BinaryOp.shape_of_apply hApplied hExtents
  | unary op operand ih =>
      unfold Environment.evaluate at hValue
      rcases bind_eq_ok_iff.1 hValue with ⟨a, hA, hApplied⟩
      have hOperand := ih
        (fun l r w hPart => hFits l r w (.operand hPart)) hA
      unfold infer
      rw [hOperand]
      exact UnaryOp.shape_of_apply hApplied
  | call function arguments => exact absurd hValue refuse_ne_ok

end Scope

end QuantumLab

------------------------------------------------------------
-- Expressions with a shape
------------------------------------------------------------

namespace QuantumLab

variable {R : Type} [Arithmetic R]

namespace Environment

variable {names : Environment R} {E : Fault R → Prop}

/- A literal fails as the first of its elements that fails. -/
theorem ends_evaluateElements
    {elements : List (Expr R)}
    (hEach : ∀ element ∈ elements,
      Ends (fun v => v.shape = .scalar) E (names.evaluate element)) :
    Ends (fun _ => True) E (names.evaluateElements elements) := by
  induction elements with
  | nil => exact trivial
  | cons element rest ih =>
      rcases List.forall_mem_cons.1 hEach with ⟨hHead, hTail⟩
      unfold evaluateElements
      refine hHead.bind fun v hShape => ?_
      rcases Value.exists_scalar hShape with ⟨z, rfl⟩
      exact (ih hTail).bind fun later _ => trivial

theorem ends_evaluateRows
    {rows : List (List (Expr R))}
    {columns k : Nat}
    (hEach : ∀ row ∈ rows, row.length = columns ∧
      ∀ element ∈ row,
        Ends (fun v => v.shape = .scalar) E (names.evaluate element)) :
    Ends (fun _ => True) E (names.evaluateRows columns k rows) := by
  induction rows generalizing k with
  | nil => exact trivial
  | cons row rest ih =>
      rcases List.forall_mem_cons.1 hEach with
        ⟨⟨hLength, hElements⟩, hTail⟩
      unfold evaluateRows
      rw [if_pos hLength]
      refine (ends_evaluateElements hElements).bind fun entries _ => ?_
      exact (ih hTail).bind fun later _ => trivial

end Environment

namespace Scope

variable {scope : Scope} {names : Environment R}

/- What an expression with a shape evaluates to has that shape. -/
theorem Consistent.ends_shape
    {e : Expr R}
    {s : Shape}
    {E : Fault R → Prop}
    (hConsistent : scope.Consistent names)
    (hFits : names.ExtentsFit e)
    (hInfer : scope.infer e = .ok s)
    (hEnds : Ends (fun _ => True) E (names.evaluate e)) :
    Ends (fun v => v.shape = s) E (names.evaluate e) := by
  cases hValue : names.evaluate e with
  | error fault =>
      rw [hValue] at hEnds
      exact hEnds
  | ok v =>
      have hShape := hConsistent.infer_of_evaluate hFits hValue
      rw [hInfer] at hShape
      exact (Except.ok.inj hShape).symm

/-
  An expression with a shape has a value or fails for what
  shapes cannot exclude.
-/
theorem Consistent.ends_evaluate
    {e : Expr R}
    {s : Shape}
    (hConsistent : scope.Consistent names)
    (hFits : names.ExtentsFit e)
    (hInfer : scope.infer e = .ok s) :
    Ends (fun _ => True) Fault.EscapesShapes (names.evaluate e) := by
  induction e using Expr.induction generalizing s with
  | missing => exact absurd hInfer refuse_ne_ok
  | number z => exact trivial
  | identifier name =>
      rw [infer, lookup_eq_ok_iff hConsistent.top] at hInfer
      unfold Environment.evaluate Environment.resolve
      cases hName : names.lookup name with
      | some v => exact trivial
      | none =>
          rw [if_pos (hConsistent.known name s hInfer hName)]
          exact .inl rfl
  | matrix rows ih =>
      unfold infer at hInfer
      unfold Environment.evaluate
      split at hInfer
      · exact absurd hInfer refuse_ne_ok
      · next hColumns =>
        rcases unit_bind_eq_ok_iff.1 hInfer with ⟨hRows, _⟩
        rw [if_neg hColumns]
        refine (Environment.ends_evaluateRows fun row hRow => ?_).bind
          fun entries _ => trivial
        rcases inferRows_eq_ok_iff.1 hRows row hRow with
          ⟨hLength, hElements⟩
        refine ⟨hLength, fun element hElement => ?_⟩
        have hPartFits : names.ExtentsFit element :=
          fun lhs rhs v hPart =>
            hFits lhs rhs v (.entry hRow hElement hPart)
        have hScalar := hElements element hElement
        exact hConsistent.ends_shape hPartFits hScalar
          (ih row hRow element hElement hPartFits hScalar)
  | vector elements ih =>
      unfold infer at hInfer
      unfold Environment.evaluate
      split at hInfer
      · exact absurd hInfer refuse_ne_ok
      · next hEmpty =>
        rcases unit_bind_eq_ok_iff.1 hInfer with ⟨hScalars, _⟩
        rw [if_neg hEmpty]
        refine (Environment.ends_evaluateElements
          fun element hElement => ?_).bind fun entries _ => trivial
        have hPartFits : names.ExtentsFit element :=
          fun lhs rhs v hPart =>
            hFits lhs rhs v (.component hElement hPart)
        have hScalar := inferScalars_eq_ok_iff.1 hScalars
          element hElement
        exact hConsistent.ends_shape hPartFits hScalar
          (ih element hElement hPartFits hScalar)
  | binary op lhs rhs ihLhs ihRhs =>
      unfold infer at hInfer
      rcases bind_eq_ok_iff.1 hInfer with ⟨l, hL, hRest⟩
      rcases bind_eq_ok_iff.1 hRest with ⟨r, hR, hShape⟩
      have hLhsFits : names.ExtentsFit lhs :=
        fun l r v hPart => hFits l r v (.lhs hPart)
      have hRhsFits : names.ExtentsFit rhs :=
        fun l r v hPart => hFits l r v (.rhs hPart)
      unfold Environment.evaluate
      refine (hConsistent.ends_shape hLhsFits hL
        (ihLhs hLhsFits hL)).bind fun a hA => ?_
      refine (hConsistent.ends_shape hRhsFits hR
        (ihRhs hRhsFits hR)).bind fun b hB => ?_
      rw [← hA, ← hB] at hShape
      exact BinaryOp.ends_apply hShape
  | unary op operand ih =>
      unfold infer at hInfer
      rcases bind_eq_ok_iff.1 hInfer with ⟨l, hL, hShape⟩
      have hPartFits : names.ExtentsFit operand :=
        fun l r v hPart => hFits l r v (.operand hPart)
      unfold Environment.evaluate
      refine (hConsistent.ends_shape hPartFits hL
        (ih hPartFits hL)).bind fun a hA => ?_
      rw [← hA] at hShape
      exact UnaryOp.ends_apply hShape
  | call function arguments => exact .inl rfl

/-
  An expression with a shape evaluates to a value of that
  shape, or fails for what shapes cannot exclude.  Conversely
  the shape of a value is inferred.
-/
theorem infer_agrees_evaluate
    {e : Expr R}
    (hConsistent : scope.Consistent names)
    (hFits : names.ExtentsFit e) :
    (∀ s, scope.infer e = .ok s →
      Ends (fun v => v.shape = s) Fault.EscapesShapes
        (names.evaluate e)) ∧
    ∀ v, names.evaluate e = .ok v → scope.infer e = .ok v.shape := by
  refine ⟨fun s hInfer => ?_, fun v hValue => ?_⟩
  · exact hConsistent.ends_shape hFits hInfer
      (hConsistent.ends_evaluate hFits hInfer)
  · exact hConsistent.infer_of_evaluate hFits hValue

/- The trace of a Kronecker product of two predefined operators. -/
def correlation : Expr Float :=
  .unary .trace
    (.binary .tensor (.identifier "sigma_x") (.identifier "sigma_z"))

/- A program starts with a scope and values that go together. -/
theorem infer_agrees_evaluate_correlation :
    Scope.initial.infer correlation = .ok .scalar ∧
      Ends (fun v => v.shape = .scalar) Fault.EscapesShapes
        ((Environment.initial : Environment Float).evaluate
          correlation) := by
  have hFits : (Environment.initial : Environment Float).ExtentsFit
      correlation := by
    intro lhs rhs v hPart hValue
    cases hPart with
    | operand hPart =>
        cases hPart with
        | self =>
            have hX : (Environment.initial : Environment Float).resolve
                "sigma_x" = .ok (.matrix Predefined.pauliX) :=
              Environment.resolve_eq_ok_iff.2
                (Environment.lookup_initial "sigma_x")
            have hZ : (Environment.initial : Environment Float).resolve
                "sigma_z" = .ok (.matrix Predefined.pauliZ) :=
              Environment.resolve_eq_ok_iff.2
                (Environment.lookup_initial "sigma_z")
            simp only [Environment.evaluate, hX, hZ, ok_bind,
              BinaryOp.apply, Except.ok.injEq] at hValue
            rw [← hValue]
            exact ⟨by decide, by decide⟩
        | lhs hPart => cases hPart
        | rhs hPart => cases hPart
  have hInfer : Scope.initial.infer correlation = .ok .scalar := by
    decide +kernel
  exact ⟨hInfer,
    (infer_agrees_evaluate consistent_initial hFits).1 _ hInfer⟩

end Scope

end QuantumLab
