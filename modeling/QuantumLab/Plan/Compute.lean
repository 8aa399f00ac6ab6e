import QuantumLab.Evolution.Lindblad
import QuantumLab.Plan.Basic

/-
  This file defines what the operation of a plan node does
  with the values of its operands.

  Key definitions include:
    * `Operands`
    * `Operands.matrix`, `Operands.vector`,
      `Operands.scalar`, `Operands.density`
    * `Operation.compute`
-/

namespace QuantumLab

variable {R : Type} [Arithmetic R]

------------------------------------------------------------
-- Operands
------------------------------------------------------------

/-
  Where the values of operands come from.
-/
abbrev Operands (R : Type) :=
  NodeId → Except (Fault R) (Value R)

/- The refusal of an operand of another kind by the node that uses it. -/
def refuseOperand
    {R α : Type}
    (node operand : NodeId)
    (expected : String)
    (actual : Value R) : Except (Fault R) α :=
  .error ⟨.operandKind node operand expected actual.kind, some node⟩

namespace Operands

/- The matrix that a node uses. -/
def matrix
    (values : Operands R)
    (node operand : NodeId) : Except (Fault R) (Mat R) := do
  match ← values operand with
  | .matrix a => return a
  | value => refuseOperand node operand "matrix" value

/- The vector that a node uses. -/
def vector
    (values : Operands R)
    (node operand : NodeId) : Except (Fault R) (Vec R) := do
  match ← values operand with
  | .vector v => return v
  | value => refuseOperand node operand "vector" value

/- The scalar that a node uses. -/
def scalar
    (values : Operands R)
    (node operand : NodeId) : Except (Fault R) (Scalar R) := do
  match ← values operand with
  | .scalar z => return z
  | value => refuseOperand node operand "scalar" value

/- The density matrix that a node uses, also of a ket. -/
def density
    (values : Operands R)
    (node operand : NodeId) : Except (Fault R) (Mat R) := do
  match ← values operand with
  | .vector ket => return Mat.outer ket ket
  | .matrix rho => return rho
  | value => refuseOperand node operand "state" value

/- The dissipation channels that a node uses. -/
def channels
    (values : Operands R)
    (node : NodeId)
    (jumps : List (Jump R)) : Except (Fault R) (List (Channel R)) :=
  jumps.mapM fun jump => do
    let operator ← values.matrix node jump.operator
    return ⟨operator, jump.rate⟩

end Operands

------------------------------------------------------------
-- Operations
------------------------------------------------------------

namespace Operation

/- The sum of two values of one kind. -/
def computeSum
    (node : NodeId)
    (lhs rhs : Value R) : Except (Fault R) (Value R) :=
  match lhs, rhs with
  | .matrix a, .matrix b => .matrix <$> Guarded.sum a b
  | .vector v, .vector w => .vector <$> Guarded.vectorSum v w
  | .scalar z, .scalar w => .ok (.scalar (z + w))
  | _, _ => .error ⟨.addedKinds node lhs.kind rhs.kind, some node⟩

/- The product of a matrix and a matrix or vector. -/
def computeProduct
    (node operand : NodeId)
    (a : Mat R)
    (rhs : Value R) : Except (Fault R) (Value R) :=
  match rhs with
  | .matrix b => .matrix <$> Guarded.product a b
  | .vector v => .vector <$> Guarded.vectorProduct a v
  | value => refuseOperand node operand "matrix or vector" value

/- The Kronecker product of two matrices or two vectors. -/
def computeTensor
    (node : NodeId)
    (lhs rhs : Value R) : Except (Fault R) (Value R) :=
  match lhs, rhs with
  | .matrix a, .matrix b => .ok (.matrix (a.kronecker b))
  | .vector v, .vector w => .ok (.vector (v.kronecker w))
  | _, _ => .error ⟨.combinedKinds node lhs.kind rhs.kind, some node⟩

/- Real numbers as the entries of a vector. -/
def realVector (xs : List R) : Vec R :=
  ⟨(xs.map Scalar.ofReal).toArray⟩

/- The value of the operation of a node, from those of its operands. -/
def compute
    (values : Operands R)
    (node : NodeId) : Operation R → Except (Fault R) (Value R)
  | loadMatrix _ data => .ok (.matrix data)
  | loadVector _ data => .ok (.vector data)
  | scalar _ value => .ok (.scalar value)
  | matrixAdd lhs rhs => do
      let a ← values lhs
      let b ← values rhs
      computeSum node a b
  | matrixMul lhs rhs => do
      let a ← values.matrix node lhs
      let b ← values rhs
      computeProduct node rhs a b
  | scalarMul factor operand => do
      let z ← values.scalar node factor
      let value ← values operand
      return value.scale z
  | tensorProduct lhs rhs => do
      let a ← values lhs
      let b ← values rhs
      computeTensor node a b
  | dagger operand => do
      let value ← values operand
      return value.adjoint
  | trace operand => do
      let a ← values.matrix node operand
      .scalar <$> Guarded.trace a
  | commutator lhs rhs => do
      let a ← values.matrix node lhs
      let b ← values.matrix node rhs
      .matrix <$> Guarded.commutator a b
  | matrixExp operand => do
      let a ← values.matrix node operand
      .matrix <$> Guarded.exponential a
  | unitaryPropagator hamiltonian time => do
      let h ← values.matrix node hamiltonian
      .matrix <$> Guarded.propagator h time
  | applyUnitaryKet unitary ket => do
      let u ← values.matrix node unitary
      let v ← values.vector node ket
      .vector <$> Guarded.vectorProduct u v
  | applyUnitaryRho unitary rho => do
      let u ← values.matrix node unitary
      let a ← values.matrix node rho
      .matrix <$> Guarded.evolveState u a
  | integrateLindblad hamiltonian initialState jumps times => do
      let h ← values.matrix node hamiltonian
      let rho ← values.density node initialState
      let channels ← values.channels node jumps
      let states ← (Lindblad.mk h channels).integrate rho times
      return .matrix (states.getLastD rho)
  | measureExpectation observable state => do
      let a ← values.matrix node observable
      let rho ← values.density node state
      .scalar <$> Guarded.expectation a rho
  | measureProjective projectors state => do
      let operators ← projectors.mapM (values.matrix node)
      let rho ← values.density node state
      let probabilities ← Guarded.probabilities operators rho
      return .vector (realVector probabilities)

end Operation

end QuantumLab
