import Mathlib.Logic.Function.Basic
import QuantumLab.Proofs.Typing.Expressions

/-
  This file puts expressions in the place of names, and
  compares the value that an expression then has with its
  value where the names themselves have values.

  Key definitions include:
    * `Expr.substitute`, `Expr.replace`

  Main statements:
    * `Environment.evaluate_substitute` says that the
      expression in which names are replaced is evaluated as
      the expression itself, where each name has the value of
      what replaces it.
    * `Environment.evaluate_define` is the case of a single
      name that was set to the value of an expression.
-/

------------------------------------------------------------
-- Expressions in the place of names
------------------------------------------------------------

namespace QuantumLab

variable {R : Type}

namespace Expr

mutual

/- The expression with an expression in the place of every name. -/
def substitute (σ : String → Expr R) : Expr R → Expr R
  | .missing => .missing
  | .number z => .number z
  | .identifier name => σ name
  | .matrix rows => .matrix (substituteRows σ rows)
  | .vector elements => .vector (substituteEach σ elements)
  | .binary op lhs rhs =>
      .binary op (lhs.substitute σ) (rhs.substitute σ)
  | .unary op operand => .unary op (operand.substitute σ)
  | .call function arguments =>
      .call function (substituteEach σ arguments)

/- The expressions of a list with the names in them replaced. -/
def substituteEach (σ : String → Expr R) : List (Expr R) → List (Expr R)
  | [] => []
  | e :: rest => e.substitute σ :: substituteEach σ rest

/- The rows of a literal with the names in them replaced. -/
def substituteRows
    (σ : String → Expr R) :
    List (List (Expr R)) → List (List (Expr R))
  | [] => []
  | row :: rest => substituteEach σ row :: substituteRows σ rest

end

/- The expression with another one in the place of a single name. -/
def replace (e : Expr R) (name : String) (d : Expr R) : Expr R :=
  e.substitute (Function.update identifier name d)

theorem mentions_identifier_iff
    {name other : String} :
    (identifier name : Expr R).Mentions other ↔ name = other := by
  constructor
  · intro hMentions
    cases hMentions
    rfl
  · rintro rfl
    exact .self

theorem mentions_binary_iff
    {op : BinaryOp}
    {lhs rhs : Expr R}
    {name : String} :
    (binary op lhs rhs).Mentions name ↔
      lhs.Mentions name ∨ rhs.Mentions name := by
  constructor
  · intro hMentions
    cases hMentions with
    | lhs hPart => exact .inl hPart
    | rhs hPart => exact .inr hPart
  · rintro (hPart | hPart)
    · exact .lhs hPart
    · exact .rhs hPart

variable {σ : String → Expr R}

theorem substituteEach_eq_map
    (elements : List (Expr R)) :
    substituteEach σ elements = elements.map (substitute σ) := by
  induction elements with
  | nil => rfl
  | cons e rest ih => rw [substituteEach, ih, List.map_cons]

theorem substituteRows_eq_map
    (rows : List (List (Expr R))) :
    substituteRows σ rows = rows.map (List.map (substitute σ)) := by
  induction rows with
  | nil => rfl
  | cons row rest ih =>
      rw [substituteRows, substituteEach_eq_map, ih, List.map_cons]

/- A literal keeps the number of its columns. -/
theorem columns_map
    (f : Expr R → Expr R)
    (rows : List (List (Expr R))) :
    columns (rows.map (List.map f)) = columns rows := by
  cases rows with
  | nil => rfl
  | cons row rest => exact List.length_map f

/- A name in the place of itself changes nothing. -/
theorem substitute_identifier
    (e : Expr R) :
    e.substitute identifier = e := by
  have hEach : ∀ elements : List (Expr R),
      (∀ element ∈ elements, element.substitute identifier = element) →
        elements.map (substitute identifier) = elements := by
    intro elements hSame
    exact (List.map_congr_left hSame).trans (List.map_id elements)
  induction e using Expr.induction with
  | missing => rfl
  | number z => rfl
  | identifier name => rfl
  | matrix rows ih =>
      rw [substitute, substituteRows_eq_map,
        List.map_congr_left fun row hRow => hEach row (ih row hRow),
        List.map_id']
  | vector elements ih =>
      rw [substitute, substituteEach_eq_map, hEach elements ih]
  | binary op lhs rhs ihLhs ihRhs => rw [substitute, ihLhs, ihRhs]
  | unary op operand ih => rw [substitute, ih]
  | call function arguments ih =>
      rw [substitute, substituteEach_eq_map, hEach arguments ih]

end Expr

end QuantumLab

------------------------------------------------------------
-- Values
------------------------------------------------------------

namespace QuantumLab

variable {R : Type} [Arithmetic R]

namespace Environment

variable
  {σ : String → Expr R}
  {env env' : Environment R}

theorem evaluateElements_map
    {f : Expr R → Expr R}
    {elements : List (Expr R)}
    (hEach : ∀ element ∈ elements,
      env'.evaluate (f element) = env.evaluate element) :
    env'.evaluateElements (elements.map f) =
      env.evaluateElements elements := by
  induction elements with
  | nil => simp only [List.map_nil, evaluateElements]
  | cons element rest ih =>
      rcases List.forall_mem_cons.1 hEach with ⟨hHead, hTail⟩
      simp only [List.map_cons, evaluateElements, hHead, ih hTail]

theorem evaluateRows_map
    {f : Expr R → Expr R}
    {rows : List (List (Expr R))}
    (columns k : Nat)
    (hEach : ∀ row ∈ rows, ∀ element ∈ row,
      env'.evaluate (f element) = env.evaluate element) :
    env'.evaluateRows columns k (rows.map (List.map f)) =
      env.evaluateRows columns k rows := by
  induction rows generalizing k with
  | nil => simp only [List.map_nil, evaluateRows]
  | cons row rest ih =>
      rcases List.forall_mem_cons.1 hEach with ⟨hHead, hTail⟩
      simp only [List.map_cons, evaluateRows, List.length_map,
        evaluateElements_map hHead, ih (k + 1) hTail]

/-
  Names may be replaced by expressions that come to what the
  names stand for.
-/
theorem evaluate_substitute
    {e : Expr R}
    (hNames : ∀ name, e.Mentions name →
      env'.evaluate (σ name) = env.resolve name) :
    env'.evaluate (e.substitute σ) = env.evaluate e := by
  induction e using Expr.induction with
  | missing => simp only [Expr.substitute, evaluate]
  | number z => simp only [Expr.substitute, evaluate]
  | identifier name =>
      rw [Expr.substitute, evaluate, hNames name .self]
  | matrix rows ih =>
      have hRows := evaluateRows_map (Expr.columns rows) 0
        fun row hRow element hElement =>
          ih row hRow element hElement fun name hMentions =>
            hNames name (.entry hRow hElement hMentions)
      simp only [Expr.substitute, Expr.substituteRows_eq_map, evaluate,
        Expr.columns_map, List.length_map, hRows]
  | vector elements ih =>
      have hElements := evaluateElements_map fun element hElement =>
        ih element hElement fun name hMentions =>
          hNames name (.component hElement hMentions)
      simp only [Expr.substitute, Expr.substituteEach_eq_map, evaluate,
        List.isEmpty_map, hElements]
  | binary op lhs rhs ihLhs ihRhs =>
      have hLhs := ihLhs fun name hMentions =>
        hNames name (.lhs hMentions)
      have hRhs := ihRhs fun name hMentions =>
        hNames name (.rhs hMentions)
      simp only [Expr.substitute, evaluate, hLhs, hRhs]
  | unary op operand ih =>
      have hOperand := ih fun name hMentions =>
        hNames name (.operand hMentions)
      simp only [Expr.substitute, evaluate, hOperand]
  | call function arguments ih =>
      simp only [Expr.substitute, evaluate]

/- Only the names that occur in an expression matter to its value. -/
theorem evaluate_congr
    {e : Expr R}
    (hNames : ∀ name, e.Mentions name →
      env'.resolve name = env.resolve name) :
    env'.evaluate e = env.evaluate e := by
  have hSame : env'.evaluate (e.substitute .identifier) =
      env.evaluate e :=
    evaluate_substitute fun name hMentions => by
      rw [evaluate, hNames name hMentions]
  rwa [Expr.substitute_identifier] at hSame

------------------------------------------------------------
-- Names that are set
------------------------------------------------------------

omit [Arithmetic R] in
theorem resolve_define_self
    (env : Environment R)
    (name : String)
    (value : Value R) :
    (env.define name value).resolve name = .ok value := by
  rw [resolve, lookup_define, if_pos rfl]

omit [Arithmetic R] in
theorem resolve_define_of_ne
    {name other : String}
    (hOther : name ≠ other)
    (value : Value R) :
    (env.define name value).resolve other = env.resolve other := by
  rw [resolve, lookup_define, if_neg hOther, isSymbolic_define,
    resolve]
  simp [hOther]

omit [Arithmetic R] in
theorem resolve_declareSymbolic_self
    (env : Environment R)
    (name : String) :
    (env.declareSymbolic name).resolve name =
      refuse (.symbolicValue name) := by
  rw [resolve, lookup_declareSymbolic, if_pos rfl,
    isSymbolic_declareSymbolic]
  simp

omit [Arithmetic R] in
theorem resolve_declareSymbolic_of_ne
    {name other : String}
    (hOther : name ≠ other) :
    (env.declareSymbolic name).resolve other = env.resolve other := by
  rw [resolve, lookup_declareSymbolic, if_neg hOther,
    isSymbolic_declareSymbolic, resolve]
  simp [hOther]

/-
  Where a name is set to the value of an expression, every
  expression has the value that it has where the name is
  replaced by that expression.  The expression may mention the
  name itself, which then means what it meant before.
-/
theorem evaluate_define
    {name : String}
    {d : Expr R}
    {value : Value R}
    (hValue : env.evaluate d = .ok value)
    (e : Expr R) :
    env.evaluate (e.replace name d) =
      (env.define name value).evaluate e := by
  refine evaluate_substitute fun other _ => ?_
  by_cases hSame : other = name
  · rw [hSame, Function.update_self, hValue, resolve_define_self]
  · rw [Function.update_of_ne hSame, evaluate,
      resolve_define_of_ne (Ne.symm hSame)]

end Environment

end QuantumLab
