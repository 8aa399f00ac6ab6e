import QuantumLab.Scalar

/-
  This file defines the expressions of programs.

  Key definitions include:
    * `BinaryOp`, `BinaryOp.word`, `BinaryOp.activity`
    * `UnaryOp`, `UnaryOp.word`, `UnaryOp.activity`
    * `Expr`
    * `Expr.isLiteral`
-/

namespace QuantumLab

------------------------------------------------------------
-- Operations
------------------------------------------------------------

/-
  The operations on two operands.
-/
inductive BinaryOp where
  | add
  | subtract
  | multiply
  | divide
  | power
  | tensor
  | commutator
  | anticommutator
deriving DecidableEq, Repr

namespace BinaryOp

/- The name of an operation in programs and documents. -/
def word : BinaryOp → String
  | add => "Add"
  | subtract => "Subtract"
  | multiply => "Multiply"
  | divide => "Divide"
  | power => "Power"
  | tensor => "Tensor"
  | commutator => "Commutator"
  | anticommutator => "AntiCommutator"

/- All operations on two operands. -/
def all : List BinaryOp :=
  [add, subtract, multiply, divide, power, tensor, commutator,
    anticommutator]

/- The operation of a name. -/
def ofWord? (name : String) : Option BinaryOp :=
  all.find? (fun op => op.word == name)

theorem ofWord?_word
    (op : BinaryOp) :
    ofWord? op.word = some op := by
  cases op <;> decide

/- What an operation does, in messages. -/
def activity : BinaryOp → String
  | add => "addition"
  | subtract => "subtraction"
  | multiply => "multiplication"
  | divide => "division"
  | power => "power"
  | tensor => "tensor product"
  | commutator => "commutator"
  | anticommutator => "anti-commutator"

end BinaryOp

/-
  The operations on one operand.
-/
inductive UnaryOp where
  | dagger
  | trace
  | expm
  | sqrt
  | sin
  | cos
  | exp
deriving DecidableEq, Repr

namespace UnaryOp

/- The name of an operation in programs and documents. -/
def word : UnaryOp → String
  | dagger => "Dagger"
  | trace => "Trace"
  | expm => "Expm"
  | sqrt => "Sqrt"
  | sin => "Sin"
  | cos => "Cos"
  | exp => "Exp"

/- All operations on one operand. -/
def all : List UnaryOp :=
  [dagger, trace, expm, sqrt, sin, cos, exp]

/- The operation of a name. -/
def ofWord? (name : String) : Option UnaryOp :=
  all.find? (fun op => op.word == name)

theorem ofWord?_word
    (op : UnaryOp) :
    ofWord? op.word = some op := by
  cases op <;> decide

/- What an operation does, in messages. -/
def activity : UnaryOp → String
  | dagger => "dagger"
  | trace => "trace"
  | expm => "expm"
  | sqrt => "sqrt"
  | sin => "sin"
  | cos => "cos"
  | exp => "exp"

end UnaryOp

------------------------------------------------------------
-- Expressions
------------------------------------------------------------

/-
  An expression.  A part that a front end left out is
  `missing`.
-/
inductive Expr (R : Type) where
  | missing
  | number (z : Scalar R)
  | identifier (name : String)
  | matrix (rows : List (List (Expr R)))
  | vector (elements : List (Expr R))
  | binary (op : BinaryOp) (lhs rhs : Expr R)
  | unary (op : UnaryOp) (operand : Expr R)
  | call (function : String) (arguments : List (Expr R))
deriving Inhabited, Repr

namespace Expr

variable {R : Type}

/- Whether an expression is a matrix or vector literal. -/
def isLiteral : Expr R → Bool
  | matrix _ => true
  | vector _ => true
  | _ => false

/- The number of elements in the first row of a matrix literal. -/
def columns (rows : List (List (Expr R))) : Nat :=
  (rows.headD []).length

end Expr

end QuantumLab
