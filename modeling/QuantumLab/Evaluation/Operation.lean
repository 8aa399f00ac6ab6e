import QuantumLab.Dense.Guarded
import QuantumLab.Program.Expression

/-
  This file defines what the operations of expressions do
  with values.

  Key definitions include:
    * `BinaryOp.apply`
    * `UnaryOp.apply`
-/

namespace QuantumLab

variable {R : Type} [Arithmetic R]

------------------------------------------------------------
-- Operations on two operands
------------------------------------------------------------

/- The refusal of two operands that do not fit. -/
def BinaryOp.mismatch
    (op : BinaryOp)
    (lhs rhs : Value R) : Except (Fault R) (Value R) :=
  refuse (.mismatch lhs.shape rhs.shape op.activity)

/- The sum of an operand and a multiple of another. -/
def addMultiple
    (op : BinaryOp)
    (factor : Scalar R)
    (lhs rhs : Value R) : Except (Fault R) (Value R) :=
  match lhs, rhs with
  | .scalar z, .scalar w => .ok (.scalar (z + factor * w))
  | .vector v, .vector w => .vector <$> Guarded.vectorSum v (w.scale factor)
  | .matrix a, .matrix b => .matrix <$> Guarded.sum a (b.scale factor)
  | _, _ => op.mismatch lhs rhs

/- The product of two values. -/
def multiplyValues (lhs rhs : Value R) : Except (Fault R) (Value R) :=
  match lhs, rhs with
  | .scalar z, _ => .ok (rhs.scale z)
  | _, .scalar w => .ok (lhs.scale w)
  | .matrix a, .matrix b => .matrix <$> Guarded.product a b
  | .matrix a, .vector v => .vector <$> Guarded.vectorProduct a v
  | _, _ => BinaryOp.multiply.mismatch lhs rhs

/- A value divided by a scalar, as a multiple by the reciprocal. -/
def divideValue (lhs rhs : Value R) : Except (Fault R) (Value R) :=
  match rhs with
  | .scalar w =>
      if w.isZero then refuse (.divisionByZero .evaluation)
      else .ok (lhs.scale (Scalar.one / w))
  | _ => refuse (.mismatch .scalar rhs.shape "division")

/- The result of an operation on two values. -/
def BinaryOp.apply
    (op : BinaryOp)
    (lhs rhs : Value R) : Except (Fault R) (Value R) :=
  match op with
  | .add => addMultiple op Scalar.one lhs rhs
  | .subtract => addMultiple op (Scalar.ofReal (-(1.0 : R))) lhs rhs
  | .multiply => multiplyValues lhs rhs
  | .divide => divideValue lhs rhs
  | .power =>
      match lhs, rhs with
      | .scalar z, .scalar w => .ok (.scalar (z.pow w))
      | _, _ => refuse (.powerOf lhs.shape rhs.shape)
  | .tensor =>
      match lhs, rhs with
      | .matrix a, .matrix b => .ok (.matrix (a.kronecker b))
      | .vector v, .vector w => .ok (.vector (v.kronecker w))
      | _, _ => op.mismatch lhs rhs
  | .commutator =>
      match lhs, rhs with
      | .matrix a, .matrix b => .matrix <$> Guarded.commutator a b
      | _, _ => op.mismatch lhs rhs
  | .anticommutator =>
      match lhs, rhs with
      | .matrix a, .matrix b => .matrix <$> Guarded.anticommutator a b
      | _, _ => op.mismatch lhs rhs

------------------------------------------------------------
-- Operations on one operand
------------------------------------------------------------

/- A function of scalars, refused for any other value. -/
def applyToScalar
    (op : UnaryOp)
    (f : Scalar R → Scalar R)
    (operand : Value R) : Except (Fault R) (Value R) :=
  match operand with
  | .scalar z => .ok (.scalar (f z))
  | _ => refuse (.mismatch .scalar operand.shape op.activity)

/- The result of an operation on one value. -/
def UnaryOp.apply
    (op : UnaryOp)
    (operand : Value R) : Except (Fault R) (Value R) :=
  match op with
  | .dagger => .ok operand.adjoint
  | .trace =>
      match operand with
      | .matrix a => .scalar <$> Guarded.trace a
      | _ => refuse
          (.mismatch operand.shape.square operand.shape op.activity)
  | .expm =>
      match operand with
      | .scalar z => .ok (.scalar z.exp)
      | .matrix a => .matrix <$> Guarded.exponential a
      | _ => refuse
          (.mismatch operand.shape.square operand.shape op.activity)
  | .sqrt =>
      match operand with
      | .scalar z => .ok (.scalar z.sqrt)
      | _ => refuse (.squareRootOf operand.shape)
  | .sin => applyToScalar op Scalar.sin operand
  | .cos => applyToScalar op Scalar.cos operand
  | .exp => applyToScalar op Scalar.exp operand

end QuantumLab
