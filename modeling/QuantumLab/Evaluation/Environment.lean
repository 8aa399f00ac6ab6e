import QuantumLab.Evaluation.Operation
import QuantumLab.Program.Predefined

/-
  This file evaluates expressions to values.  A name has a
  value, or it is known without one and can only be used
  symbolically, or it is not known.

  Key definitions include:
    * `Environment`
    * `Environment.define`
    * `Environment.declareSymbolic`
    * `Environment.evaluate`
    * `Environment.evaluate?`
    * `Environment.evaluateReal`
-/

namespace QuantumLab

/-
  The values of names, and the names that are known without
  a value.
-/
structure Environment (R : Type) where
  values : Table (Value R)
  symbolic : Names
deriving DecidableEq, Repr

namespace Environment

variable {R : Type}

------------------------------------------------------------
-- Names
------------------------------------------------------------

/- The environment that knows no name. -/
def empty : Environment R :=
  ⟨.empty, .empty⟩

/- The environment with a name set to a value. -/
def define
    (env : Environment R)
    (name : String)
    (value : Value R) : Environment R :=
  ⟨env.values.insert name value, env.symbolic.erase name⟩

/- The environment with a name known without a value. -/
def declareSymbolic
    (env : Environment R)
    (name : String) : Environment R :=
  ⟨env.values.erase name, env.symbolic.add name⟩

/- The value of a name. -/
def lookup (env : Environment R) (name : String) : Option (Value R) :=
  env.values.find? name

/- Whether a name is known without a value. -/
def isSymbolic (env : Environment R) (name : String) : Bool :=
  env.symbolic.contains name

variable [Arithmetic R]

/- The environment of the predefined operators. -/
def initial : Environment R :=
  Predefined.operators.foldl
    (fun env row => env.define row.1 (.matrix row.2)) empty

/- The value of a name, or why there is none. -/
def resolve
    (env : Environment R)
    (name : String) : Except (Fault R) (Value R) :=
  match env.lookup name with
  | some value => .ok value
  | none =>
      if env.isSymbolic name then refuse (.symbolicValue name)
      else refuse (.undeclaredIdentifier name)

------------------------------------------------------------
-- Expressions
------------------------------------------------------------

/- The scalar in a value of a literal's element. -/
def elementOf (value : Value R) : Except (Fault R) (Scalar R) :=
  match value with
  | .scalar z => .ok z
  | _ => refuse (.mismatch .scalar value.shape "element of literal")

mutual

/- The value of an expression. -/
def evaluate
    (env : Environment R) : Expr R → Except (Fault R) (Value R)
  | .missing => refuse (.missingExpression .evaluation)
  | .number z => .ok (.scalar z)
  | .identifier name => env.resolve name
  | .matrix rows =>
      if Expr.columns rows = 0 then
        refuse .emptyMatrixLiteral
      else do
        let entries ← env.evaluateRows (Expr.columns rows) 0 rows
        return .matrix (Mat.ofEntries rows.length (Expr.columns rows)
          entries.toArray)
  | .vector elements =>
      if elements.isEmpty then
        refuse .emptyVectorLiteral
      else do
        let entries ← env.evaluateElements elements
        return .vector ⟨entries.toArray⟩
  | .binary op lhs rhs => do
      let lhsValue ← env.evaluate lhs
      let rhsValue ← env.evaluate rhs
      op.apply lhsValue rhsValue
  | .unary op operand => do
      let value ← env.evaluate operand
      op.apply value
  | .call function _ => refuse (.evaluatedCall function)

/- The scalars of the elements of a literal. -/
def evaluateElements
    (env : Environment R) :
    List (Expr R) → Except (Fault R) (List (Scalar R))
  | [] => .ok []
  | element :: rest => do
      let value ← env.evaluate element
      let z ← elementOf value
      let later ← env.evaluateElements rest
      return z :: later

/-
  The scalars of the rows of a literal, from row `k` on,
  one row after another.
-/
def evaluateRows
    (env : Environment R)
    (columns k : Nat) :
    List (List (Expr R)) → Except (Fault R) (List (Scalar R))
  | [] => .ok []
  | row :: rest =>
      if row.length = columns then do
        let entries ← env.evaluateElements row
        let later ← env.evaluateRows columns (k + 1) rest
        return entries ++ later
      else
        refuse (.raggedMatrixLiteral k row.length columns)

end

/-
  The value of an expression, or none if the expression can
  only be used symbolically.
-/
def evaluate?
    (env : Environment R)
    (expression : Expr R) : Except (Fault R) (Option (Value R)) :=
  match env.evaluate expression with
  | .ok value => .ok (some value)
  | .error fault =>
      if fault.isUnsupported then .ok none else .error fault

/- The value of an expression that has to be a real number. -/
def evaluateReal
    (env : Environment R)
    (usage : String)
    (expression : Expr R) : Except (Fault R) R := do
  match ← env.evaluate expression with
  | .scalar z =>
      if z.im == 0.0 then return z.re
      else refuse (.notReal usage z)
  | value => refuse (.mismatch .scalar value.shape usage)

end Environment

end QuantumLab
