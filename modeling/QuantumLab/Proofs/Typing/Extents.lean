import Mathlib.Data.Nat.ModEq
import QuantumLab.Proofs.Typing.Scopes

/-
  This file compares the extents that are recorded for the
  names of a program with those of the quantities.  Extents
  are recorded in machine words, and the extents of Kronecker
  products multiply without a bound.

  Key definitions include:
    * `Shape.Reduces`, `Shape.Counts`
    * `Expr.extents`, `Statement.extents`, `Program.extents`
    * `Scope.Tallies`, `Scope.CountsParts`, `Scope.Infers`
    * `Experiment.Employs`

  Main statements:
    * `Scope.Tallies.infer` says what the shape of an
      expression says of its extents.
    * `Scope.Tallies.after` says the same of the names after a
      statement.
    * `Program.extents_recorded_in_words` says the same of
      all that is inferred for an accepted program.
-/

------------------------------------------------------------
-- Extents in machine words
------------------------------------------------------------

namespace QuantumLab

namespace Shape

/- An extent as it is recorded: unchanged, or reduced to a machine word. -/
def Reduces (recorded extent : Nat) : Prop :=
  recorded = extent ∨ recorded = wrap extent

variable {m n m' n' : Nat}

theorem Reduces.modEq
    (hReduces : Reduces m n) :
    m ≡ n [MOD UInt64.size] := by
  rcases hReduces with rfl | rfl
  · exact Nat.ModEq.refl m
  · exact Nat.mod_modEq n UInt64.size

/- One reduction of a product makes up for those of its factors. -/
theorem wrap_mul_of_reduces
    (hLeft : Reduces m m')
    (hRight : Reduces n n') :
    wrap (m * n) = wrap (m' * n') :=
  hLeft.modEq.mul hRight.modEq

/- An extent that fits into a word is recorded as it is. -/
theorem Reduces.eq_of_lt
    (hReduces : Reduces m n)
    (hFits : n < UInt64.size) :
    m = n := by
  rcases hReduces with hSame | hWrapped
  · exact hSame
  · rw [hWrapped, wrap_of_lt hFits]

/- A shape as it is recorded for a shape of any extents. -/
inductive Counts : Shape → Shape → Prop
  | scalar : Counts .scalar .scalar
  | vector
      {n n' : Nat}
      (hLength : Reduces n n') :
      Counts (.vector n) (.vector n')
  | matrix
      {r c r' c' : Nat}
      (hRows : Reduces r r')
      (hCols : Reduces c c') :
      Counts (.matrix r c) (.matrix r' c')

/- The extents of a shape fit into machine words. -/
def Fits (s : Shape) : Prop :=
  s.rows < UInt64.size ∧ s.cols < UInt64.size

variable {s t l l' r r' : Shape}

theorem Counts.refl
    (s : Shape) :
    Counts s s := by
  cases s with
  | scalar => exact .scalar
  | vector n => exact .vector (.inl rfl)
  | matrix r c => exact .matrix (.inl rfl) (.inl rfl)

/- Extents that fit are recorded as they are. -/
theorem Counts.eq_of_fits
    (hCounts : Counts s t)
    (hFits : t.Fits) :
    s = t := by
  cases hCounts with
  | scalar => rfl
  | vector hLength => rw [hLength.eq_of_lt hFits.1]
  | matrix hRows hCols =>
      rw [hRows.eq_of_lt hFits.1, hCols.eq_of_lt hFits.2]

/- Recorded extents that fit are right only if the extents fit. -/
theorem Counts.eq_iff_fits
    (hCounts : Counts s t)
    (hRecorded : s.Fits) :
    s = t ↔ t.Fits := by
  constructor
  · rintro rfl
    exact hRecorded
  · exact hCounts.eq_of_fits

theorem Counts.rows
    (hCounts : Counts s t) :
    Reduces s.rows t.rows := by
  cases hCounts with
  | scalar => exact .inl rfl
  | vector hLength => exact hLength
  | matrix hRows _ => exact hRows

end Shape

end QuantumLab

------------------------------------------------------------
-- Extents of operations
------------------------------------------------------------

namespace QuantumLab

open Shape

variable {R : Type} {l l' r r' s : Shape}

/- Only a Kronecker product multiplies extents. -/
theorem Shape.Counts.resultShape
    {op : BinaryOp}
    (hOp : op ≠ .tensor)
    (hLhs : Counts l l')
    (hRhs : Counts r r') :
    Counts (op.resultShape l r) (op.resultShape l' r') := by
  cases op with
  | tensor => exact absurd rfl hOp
  | multiply =>
      cases hLhs with
      | scalar => exact hRhs
      | vector hLength =>
          cases hRhs with
          | scalar => exact .vector hLength
          | vector _ => exact .vector hLength
          | matrix _ _ => exact .vector hLength
      | matrix hRows hCols =>
          cases hRhs with
          | scalar => exact .matrix hRows hCols
          | vector _ => exact .vector hRows
          | matrix _ hCols' => exact .matrix hRows hCols'
  | add => exact hLhs
  | subtract => exact hLhs
  | divide => exact hLhs
  | power => exact hLhs
  | commutator => exact hLhs
  | anticommutator => exact hLhs

/- The product of two recorded extents is reduced once. -/
theorem Shape.Counts.tensor
    (hLhs : Counts l l')
    (hRhs : Counts r r')
    (hShape : tensorShape? l r = some s) :
    Counts s (BinaryOp.tensor.resultShape l' r') := by
  cases hLhs with
  | scalar => cases hShape
  | vector hLength =>
      cases hRhs with
      | scalar => cases hShape
      | matrix _ _ => cases hShape
      | vector hLength' =>
          cases hShape
          exact .vector (.inr (wrap_mul_of_reduces hLength hLength'))
  | matrix hRows hCols =>
      cases hRhs with
      | scalar => cases hShape
      | vector _ => cases hShape
      | matrix hRows' hCols' =>
          cases hShape
          exact .matrix (.inr (wrap_mul_of_reduces hRows hRows'))
            (.inr (wrap_mul_of_reduces hCols hCols'))

theorem BinaryOp.counts_of_shape
    {op : BinaryOp}
    (hLhs : Counts l l')
    (hRhs : Counts r r')
    (hShape : (op.shape l r : Except (Fault R) Shape) = .ok s) :
    Counts s (op.resultShape l' r') := by
  by_cases hTensor : op = .tensor
  · subst hTensor
    simp only [BinaryOp.shape] at hShape
    split at hShape
    · next shape hFound =>
      cases hShape
      exact hLhs.tensor hRhs hFound
    · exact absurd hShape refuse_ne_ok
  · rw [← BinaryOp.resultShape_of_shape hShape
      fun hSame => absurd hSame hTensor]
    exact hLhs.resultShape hTensor hRhs

theorem UnaryOp.counts_of_shape
    {op : UnaryOp}
    (hOperand : Counts l l')
    (hShape : (op.shape l : Except (Fault R) Shape) = .ok s) :
    Counts s (op.resultShape l') := by
  rw [← UnaryOp.resultShape_of_shape hShape]
  cases op with
  | dagger =>
      cases hOperand with
      | scalar => exact .scalar
      | vector hLength => exact .vector hLength
      | matrix hRows hCols => exact .matrix hCols hRows
  | trace => exact .scalar
  | expm => exact hOperand
  | sqrt => exact hOperand
  | sin => exact hOperand
  | cos => exact hOperand
  | exp => exact hOperand

end QuantumLab

------------------------------------------------------------
-- Extents of programs
------------------------------------------------------------

namespace QuantumLab

variable {R : Type}

/-
  The shape of an expression in natural numbers, when the
  shapes of names are known.
-/
def Expr.extents (known : String → Shape) : Expr R → Shape
  | .missing => .scalar
  | .number _ => .scalar
  | .identifier name => known name
  | .matrix rows => .matrix rows.length (columns rows)
  | .vector elements => .vector elements.length
  | .binary op lhs rhs =>
      op.resultShape (lhs.extents known) (rhs.extents known)
  | .unary op operand => op.resultShape (operand.extents known)
  | .call _ _ => .scalar

/- Parameters are scalars and hide other names. -/
def hideExtents
    (parameters : List String)
    (known : String → Shape)
    (name : String) : Shape :=
  if name ∈ parameters then .scalar else known name

/- The shapes of names after a statement, in natural numbers. -/
def Statement.extents
    (known : String → Shape) : Statement R → String → Shape
  | .empty => known
  | .const name e => Function.update known name (e.extents known)
  | .symbol name => Function.update known name .scalar
  | .matrix name e => Function.update known name (e.extents known)
  | .function _ _ _ => known
  | .hamiltonian name parameters e =>
      Function.update known name
        (e.extents (hideExtents parameters known))
  | .measurement name _ operators =>
      match operators with
      | [] => known
      | operator :: _ =>
          Function.update known name (operator.extents known)
  | .experiment x =>
      match x.initialState with
      | none => known
      | some state =>
          Function.update known (initialStateName x.name)
            (state.value.extents known)

/- The shapes of names after a program; predefined operators are 2x2. -/
def Program.extents (program : Program R) : String → Shape :=
  program.foldl Statement.extents fun _ => .matrix 2 2

theorem Program.extents_append
    (pre : Program R)
    (d : Statement R) :
    Program.extents (pre ++ [d]) = d.extents (Program.extents pre) := by
  simp [Program.extents, List.foldl_append]

end QuantumLab

------------------------------------------------------------
-- Shapes that are inferred
------------------------------------------------------------

namespace QuantumLab

open Shape

variable {R : Type}

namespace Scope

/- The shapes of a scope are recorded for the extents of names. -/
structure Tallies
    (scope : Scope)
    (known : String → Shape) : Prop where
  parameters : ∀ name ∈ scope.parameters, known name = .scalar
  shapes : ∀ name shape, name ∉ scope.parameters →
    scope.shapes.find? name = some shape → Counts shape (known name)

theorem tallies_initial :
    Scope.initial.Tallies fun _ => .matrix 2 2 where
  parameters name hMember := absurd hMember List.not_mem_nil
  shapes name shape _ hFound := by
    rw [initial, Table.find?_ofList] at hFound
    have hMember := List.mem_reverse.1 (Rows.mem_of_find? hFound)
    rcases List.mem_map.1 hMember with ⟨other, _, hSame⟩
    cases hSame
    exact .refl _

variable
  {scope next inner : Scope}
  {known : String → Shape}
  {d : Statement R}

theorem Tallies.lookup
    {name : String}
    {shape : Shape}
    (hTallies : scope.Tallies known)
    (hLookup : (scope.lookup name : Except (Fault R) Shape) = .ok shape) :
    Counts shape (known name) := by
  unfold Scope.lookup at hLookup
  split at hLookup
  · next hParameter =>
    cases hLookup
    rw [hTallies.parameters name hParameter]
    exact .scalar
  · next hOther =>
    cases hFound : scope.shapes.find? name with
    | none =>
        rw [hFound] at hLookup
        exact absurd hLookup refuse_ne_ok
    | some other =>
        rw [hFound] at hLookup
        cases hLookup
        exact hTallies.shapes name shape hOther hFound

/-
  The shape that is inferred for an expression is recorded
  for its extents.
-/
theorem Tallies.infer
    {e : Expr R}
    {shape : Shape}
    (hTallies : scope.Tallies known)
    (hInfer : scope.infer e = .ok shape) :
    Counts shape (e.extents known) := by
  induction e using Expr.induction generalizing shape with
  | missing => exact absurd hInfer refuse_ne_ok
  | number z =>
      cases hInfer
      exact .scalar
  | identifier name => exact hTallies.lookup hInfer
  | matrix rows =>
      unfold Scope.infer at hInfer
      split at hInfer
      · exact absurd hInfer refuse_ne_ok
      · rcases unit_bind_eq_ok_iff.1 hInfer with ⟨_, hDone⟩
        cases pure_eq_ok_iff.1 hDone
        exact .refl _
  | vector elements =>
      unfold Scope.infer at hInfer
      split at hInfer
      · exact absurd hInfer refuse_ne_ok
      · rcases unit_bind_eq_ok_iff.1 hInfer with ⟨_, hDone⟩
        cases pure_eq_ok_iff.1 hDone
        exact .refl _
  | binary op lhs rhs ihLhs ihRhs =>
      unfold Scope.infer at hInfer
      rcases bind_eq_ok_iff.1 hInfer with ⟨l, hLhs, hRest⟩
      rcases bind_eq_ok_iff.1 hRest with ⟨r, hRhs, hShape⟩
      exact BinaryOp.counts_of_shape (ihLhs hLhs) (ihRhs hRhs) hShape
  | unary op operand ih =>
      unfold Scope.infer at hInfer
      rcases bind_eq_ok_iff.1 hInfer with ⟨s, hOperand, hShape⟩
      exact UnaryOp.counts_of_shape (ih hOperand) hShape
  | call function arguments =>
      unfold Scope.infer at hInfer
      split at hInfer
      · rcases unit_bind_eq_ok_iff.1 hInfer with ⟨_, hDone⟩
        cases pure_eq_ok_iff.1 hDone
        exact .scalar
      · exact absurd hInfer refuse_ne_ok

theorem inferAll_eq_ok_iff
    {arguments : List (Expr R)} :
    scope.inferAll arguments = .ok () ↔
      ∀ argument ∈ arguments,
        ∃ shape, scope.infer argument = .ok shape := by
  induction arguments with
  | nil => simp [inferAll]
  | cons argument rest ih =>
      unfold inferAll
      rw [bind_eq_ok_iff, List.forall_mem_cons, ← ih]
      exact ⟨
        fun ⟨shape, hFirst, hRest⟩ => ⟨⟨shape, hFirst⟩, hRest⟩,
        fun ⟨⟨shape, hFirst⟩, hRest⟩ => ⟨shape, hFirst, hRest⟩⟩

/- A shape is inferred for every part of an expression on the way. -/
theorem infer_part
    {part e : Expr R}
    (hPart : part.Part e)
    (hInfer : ∃ shape, scope.infer e = .ok shape) :
    ∃ shape, scope.infer part = .ok shape := by
  induction hPart with
  | self => exact hInfer
  | @entry rows row element hRow hElement _ ih =>
      rcases hInfer with ⟨shape, hInfer⟩
      unfold Scope.infer at hInfer
      split at hInfer
      · exact absurd hInfer refuse_ne_ok
      · rcases unit_bind_eq_ok_iff.1 hInfer with ⟨hRows, _⟩
        exact ih ⟨.scalar,
          (inferRows_eq_ok_iff.1 hRows row hRow).2 element hElement⟩
  | @component elements element hElement _ ih =>
      rcases hInfer with ⟨shape, hInfer⟩
      unfold Scope.infer at hInfer
      split at hInfer
      · exact absurd hInfer refuse_ne_ok
      · rcases unit_bind_eq_ok_iff.1 hInfer with ⟨hElements, _⟩
        exact ih ⟨.scalar,
          inferScalars_eq_ok_iff.1 hElements element hElement⟩
  | lhs _ ih =>
      rcases hInfer with ⟨shape, hInfer⟩
      unfold Scope.infer at hInfer
      rcases bind_eq_ok_iff.1 hInfer with ⟨l, hLhs, _⟩
      exact ih ⟨l, hLhs⟩
  | rhs _ ih =>
      rcases hInfer with ⟨shape, hInfer⟩
      unfold Scope.infer at hInfer
      rcases bind_eq_ok_iff.1 hInfer with ⟨_, _, hRest⟩
      rcases bind_eq_ok_iff.1 hRest with ⟨r, hRhs, _⟩
      exact ih ⟨r, hRhs⟩
  | operand _ ih =>
      rcases hInfer with ⟨shape, hInfer⟩
      unfold Scope.infer at hInfer
      rcases bind_eq_ok_iff.1 hInfer with ⟨s, hOperand, _⟩
      exact ih ⟨s, hOperand⟩
  | @argument function arguments argument hArgument _ ih =>
      rcases hInfer with ⟨shape, hInfer⟩
      unfold Scope.infer at hInfer
      split at hInfer
      · rcases unit_bind_eq_ok_iff.1 hInfer with ⟨hArguments, _⟩
        exact ih (inferAll_eq_ok_iff.1 hArguments argument hArgument)
      · exact absurd hInfer refuse_ne_ok

/-
  The shapes that are inferred for the parts of an expression
  are recorded for their extents, and operands whose extents
  fit are judged by them.
-/
structure CountsParts
    (scope : Scope)
    (known : String → Shape)
    (e : Expr R) : Prop where
  part : ∀ part, part.Part e → ∃ shape,
    scope.infer part = .ok shape ∧
      Counts shape (part.extents known) ∧
        (shape.Fits → (shape = part.extents known ↔
          (part.extents known).Fits))
  operands : ∀ op lhs rhs, (Expr.binary op lhs rhs).Part e →
    (lhs.extents known).Fits → (rhs.extents known).Fits →
      ∃ shape, (op.shape (lhs.extents known) (rhs.extents known) :
        Except (Fault R) Shape) = .ok shape

theorem Tallies.countsParts
    {e : Expr R}
    (hTallies : scope.Tallies known)
    (hInfer : ∃ shape, scope.infer e = .ok shape) :
    scope.CountsParts known e where
  part part hPart := by
    rcases infer_part hPart hInfer with ⟨shape, hShape⟩
    have hCounts := hTallies.infer hShape
    exact ⟨shape, hShape, hCounts, hCounts.eq_iff_fits⟩
  operands op lhs rhs hPart hLhsFits hRhsFits := by
    rcases infer_part hPart hInfer with ⟨shape, hWhole⟩
    unfold Scope.infer at hWhole
    rcases bind_eq_ok_iff.1 hWhole with ⟨l, hLhs, hRest⟩
    rcases bind_eq_ok_iff.1 hRest with ⟨r, hRhs, hShape⟩
    rw [(hTallies.infer hLhs).eq_of_fits hLhsFits,
      (hTallies.infer hRhs).eq_of_fits hRhsFits] at hShape
    exact ⟨shape, hShape⟩

------------------------------------------------------------
-- Statements
------------------------------------------------------------

/- A name that is given a shape is given its extents. -/
theorem Tallies.declares
    {name : String}
    {shape extents : Shape}
    (hTallies : scope.Tallies known)
    (hTop : scope.parameters = [])
    (hCounts : Counts shape extents)
    (hDeclares : scope.Declares name shape next) :
    next.Tallies (Function.update known name extents) where
  parameters other hMember := by
    rw [hDeclares.parameters, hTop] at hMember
    exact absurd hMember List.not_mem_nil
  shapes other found _ hFound := by
    rw [hDeclares.shapes] at hFound
    by_cases hSame : name = other
    · subst hSame
      rw [if_pos rfl] at hFound
      cases hFound
      rwa [Function.update_self]
    · rw [if_neg hSame] at hFound
      rw [Function.update_of_ne (Ne.symm hSame)]
      exact hTallies.shapes other found (by simp [hTop]) hFound

/- Inside of a definition its parameters are scalars. -/
theorem Tallies.hides
    (hTallies : scope.Tallies known)
    (hTop : scope.parameters = [])
    (hShapes : inner.shapes = scope.shapes) :
    inner.Tallies (hideExtents inner.parameters known) where
  parameters name hMember := if_pos hMember
  shapes name shape hOther hFound := by
    rw [hideExtents, if_neg hOther]
    rw [hShapes] at hFound
    exact hTallies.shapes name shape (by simp [hTop]) hFound

/- After a statement the shapes are still recorded for the extents. -/
theorem Tallies.after
    (hTallies : scope.Tallies known)
    (hTop : scope.parameters = [])
    (hCheck : scope.check d = .ok next) :
    next.Tallies (d.extents known) := by
  cases d with
  | empty => exact absurd hCheck refuse_ne_ok
  | const name e =>
      rcases bind_eq_ok_iff.1 hCheck with ⟨shape, hShape, hRest⟩
      split at hRest
      · exact hTallies.declares hTop (hTallies.infer hShape)
          (declares_of_declare hRest)
      · exact absurd hRest refuse_ne_ok
  | symbol name =>
      exact hTallies.declares hTop .scalar (declares_of_declare hCheck)
  | matrix name e =>
      rcases bind_eq_ok_iff.1 hCheck with ⟨shape, hShape, hDeclare⟩
      exact hTallies.declares hTop (hTallies.infer hShape)
        (declares_of_declare hDeclare)
  | function name parameters body =>
      simp only [check, checkFunction] at hCheck
      split at hCheck
      · exact absurd hCheck refuse_ne_ok
      · rcases bind_eq_ok_iff.1 hCheck with ⟨shape, _, hDone⟩
        cases pure_eq_ok_iff.1 hDone
        exact ⟨hTallies.parameters, hTallies.shapes⟩
  | hamiltonian name parameters e =>
      rcases bind_eq_ok_iff.1 hCheck with ⟨shape, hShape, hDeclare⟩
      rcases bind_eq_ok_iff.1 hShape with ⟨inferred, hInfer, hRest⟩
      have hInside : { scope with parameters }.Tallies
          (hideExtents parameters known) :=
        hTallies.hides hTop rfl
      split at hRest
      · cases pure_eq_ok_iff.1 hRest
        exact hTallies.declares hTop (hInside.infer hInfer)
          (declares_of_declare hDeclare)
      · exact absurd hRest refuse_ne_ok
  | measurement name kind operators =>
      rcases bind_eq_ok_iff.1 hCheck with ⟨shape, hShape, hDeclare⟩
      rcases infer_of_measurementShape hShape with
        ⟨_, hSome, hOperators⟩
      have hNoted : { scope with
          measurements := scope.measurements.add name }.Tallies known :=
        ⟨hTallies.parameters, hTallies.shapes⟩
      cases operators with
      | nil => exact absurd rfl (hSome rfl)
      | cons operator rest =>
          have hFirst := (hOperators operator List.mem_cons_self).1
          exact hNoted.declares hTop (hTallies.infer hFirst)
            (declares_of_declare hDeclare)
  | experiment x =>
      rcases admits_of_checkExperiment hCheck with ⟨dimension, hAdmits⟩
      have hState := hAdmits.state
      cases hSome : x.initialState with
      | none =>
          rw [hSome] at hState
          cases hState
          simpa only [Statement.extents, hSome] using hTallies
      | some state =>
          rw [hSome] at hState
          rcases declares_of_declareState hState with
            ⟨shape, hInfer, _, hDeclares, _⟩
          simpa only [Statement.extents, hSome] using
            hTallies.declares hTop (hTallies.infer hInfer) hDeclares

/-
  The expressions that are inferred when a statement is
  checked, each in the scope where it is inferred and with
  the extents that are known there.
-/
inductive Infers
    (scope : Scope)
    (known : String → Shape) :
    Statement R → Scope → (String → Shape) → Expr R → Prop
  | const
      {name : String}
      {e : Expr R} :
      Infers scope known (.const name e) scope known e
  | matrix
      {name : String}
      {e : Expr R} :
      Infers scope known (.matrix name e) scope known e
  | function
      {name : String}
      {parameters : List String}
      {body : Expr R} :
      Infers scope known (.function name parameters body)
        { scope with functions := scope.functions.add name, parameters }
        (hideExtents parameters known) body
  | hamiltonian
      {name : String}
      {parameters : List String}
      {e : Expr R} :
      Infers scope known (.hamiltonian name parameters e)
        { scope with parameters } (hideExtents parameters known) e
  | operator
      {name : String}
      {kind : MeasurementKind}
      {operators : List (Expr R)}
      {operator : Expr R} :
      operator ∈ operators →
      Infers scope known (.measurement name kind operators)
        scope known operator
  | state
      {x : Experiment R}
      {state : InitialState R} :
      x.initialState = some state →
      Infers scope known (.experiment x) scope known state.value
  | rate
      {x : Experiment R}
      {next : Scope}
      {dimension : Option Nat}
      {evolution : Evolution R}
      {term : LindbladTerm R} :
      scope.declareState x.name x.initialState = .ok (next, dimension) →
      x.evolution = some evolution →
      term ∈ evolution.terms →
      Infers scope known (.experiment x) next
        ((Statement.experiment x).extents known) term.rate

/- What is inferred for a statement is inferred from recorded extents. -/
theorem Infers.tallies
    {inside : String → Shape}
    {e : Expr R}
    (hInfers : scope.Infers known d inner inside e)
    (hTallies : scope.Tallies known)
    (hTop : scope.parameters = [])
    (hCheck : scope.check d = .ok next) :
    inner.Tallies inside ∧ ∃ shape, inner.infer e = .ok shape := by
  cases hInfers with
  | const =>
      rcases bind_eq_ok_iff.1 hCheck with ⟨shape, hShape, _⟩
      exact ⟨hTallies, shape, hShape⟩
  | matrix =>
      rcases bind_eq_ok_iff.1 hCheck with ⟨shape, hShape, _⟩
      exact ⟨hTallies, shape, hShape⟩
  | function =>
      simp only [check, checkFunction] at hCheck
      split at hCheck
      · exact absurd hCheck refuse_ne_ok
      · rcases bind_eq_ok_iff.1 hCheck with ⟨shape, hShape, _⟩
        exact ⟨hTallies.hides hTop rfl, shape, hShape⟩
  | hamiltonian =>
      rcases bind_eq_ok_iff.1 hCheck with ⟨_, hHamiltonian, _⟩
      rcases bind_eq_ok_iff.1 hHamiltonian with ⟨shape, hShape, _⟩
      exact ⟨hTallies.hides hTop rfl, shape, hShape⟩
  | operator hMember =>
      rcases bind_eq_ok_iff.1 hCheck with ⟨shape, hShape, _⟩
      have hOperators := (infer_of_measurementShape hShape).2.2
      exact ⟨hTallies, shape, (hOperators _ hMember).1⟩
  | state hSome =>
      rcases admits_of_checkExperiment hCheck with ⟨dimension, hAdmits⟩
      have hState := hAdmits.state
      rw [hSome] at hState
      rcases declares_of_declareState hState with ⟨shape, hShape, _⟩
      exact ⟨hTallies, shape, hShape⟩
  | rate hState hEvolution hTerm =>
      rcases admits_of_checkExperiment hCheck with ⟨dimension, hAdmits⟩
      have hSame := hAdmits.state.symm.trans hState
      cases hSame
      have hFits := hAdmits.evolution _ hEvolution
      rcases unit_bind_eq_ok_iff.1 hFits with ⟨_, hTerms⟩
      rcases unit_bind_eq_ok_iff.1 (forM_eq_ok_iff.1 hTerms _ hTerm) with
        ⟨_, hRate⟩
      rcases bind_eq_ok_iff.1 hRate with ⟨shape, hShape, _⟩
      exact ⟨hTallies.after hTop hCheck, shape, hShape⟩

end Scope

end QuantumLab

------------------------------------------------------------
-- Accepted programs
------------------------------------------------------------

namespace QuantumLab

open Shape

variable {R : Type}

/- The operators that an experiment applies to its state, by name. -/
inductive Experiment.Employs (x : Experiment R) : String → Prop
  | hamiltonian
      {evolution : Evolution R} :
      x.evolution = some evolution →
      x.Employs evolution.hamiltonian
  | jump
      {evolution : Evolution R}
      {term : LindbladTerm R} :
      x.evolution = some evolution →
      term ∈ evolution.terms →
      x.Employs term.operator
  | event
      {event : Event R} :
      event ∈ x.schedule →
      x.Employs event.measurement

/-
  The operators of an experiment are recorded for the space
  of its state.
-/
theorem Scope.Admits.find?_of_employs
    {scope next : Scope}
    {x : Experiment R}
    {n : Nat}
    {name : String}
    (hAdmits : scope.Admits x (some n) next)
    (hTop : next.parameters = [])
    (hEmploys : x.Employs name) :
    next.shapes.find? name = some (.matrix n n) := by
  cases hEmploys with
  | hamiltonian hSome =>
      exact (find?_of_requireEvolution hTop
        (hAdmits.evolution _ hSome)).1
  | jump hSome hTerm =>
      exact (find?_of_requireEvolution hTop
        (hAdmits.evolution _ hSome)).2 _ hTerm
  | event hEvent =>
      exact find?_of_requireOperator hTop (hAdmits.schedule _ hEvent)

namespace Program

variable {program pre post : Program R}

/- The scopes on the way record extents and have no parameters. -/
theorem tallies_of_walk
    {scope : Scope}
    (hWalk : program.walk Scope.check .initial = .ok scope) :
    scope.parameters = [] ∧ scope.Tallies program.extents := by
  refine walk_induction
    (I := fun pre scope => scope.parameters = [] ∧
      scope.Tallies (Program.extents pre))
    ⟨rfl, Scope.tallies_initial⟩ ?_ hWalk
  rintro pre scope d next ⟨hTop, hTallies⟩ hCheck
  refine ⟨?_, ?_⟩
  · rw [(Scope.checks_of_check hTop hCheck).parameters, hTop]
  · rw [extents_append]
    exact hTallies.after hTop hCheck

/- A statement of an accepted program is checked in such a scope. -/
theorem check_of_typed
    {typed : TypedProgram R}
    {d : Statement R}
    (hTyped : Program.typed (pre ++ d :: post) = .ok typed) :
    ∃ scope next, Program.walk Scope.check .initial pre = .ok scope ∧
      scope.check d = .ok next ∧ scope.parameters = [] ∧
      scope.Tallies (Program.extents pre) := by
  rcases bind_eq_ok_iff.1 hTyped with ⟨last, hWalk, _⟩
  rcases walk_append.1 hWalk with ⟨scope, hPre, hRest⟩
  rcases walk_cons.1 hRest with ⟨next, hCheck, _⟩
  rcases tallies_of_walk hPre with ⟨hTop, hTallies⟩
  exact ⟨scope, next, hPre, hCheck, hTop, hTallies⟩

/-
  In an accepted program the shapes of names, and those that
  are inferred for the parts of its expressions, have the
  extents of the quantities up to a reduction to machine
  words, which leaves extents that fit as they are.
  Operands that fit are judged by their own extents, and the
  operators of an experiment have the dimension of its state
  up to the same reduction.
-/
theorem extents_recorded_in_words
    {typed : TypedProgram R}
    (hTyped : program.typed = .ok typed) :
    (∀ name shape, typed.shapes.find? name = some shape →
      Counts shape (program.extents name) ∧
        (shape.Fits → (shape = program.extents name ↔
          (program.extents name).Fits))) ∧
    (∀ pre d post, program = pre ++ d :: post → ∃ scope,
      Program.walk Scope.check .initial pre = .ok scope ∧
        ∀ inner known e,
          scope.Infers (Program.extents pre) d inner known e →
            inner.CountsParts known e) ∧
    (∀ pre x post state, program = pre ++ .experiment x :: post →
      x.initialState = some state → ∀ name, x.Employs name →
        ∃ r c, Program.extents (pre ++ [.experiment x]) name =
            .matrix r c ∧
          r ≡ (state.value.extents (Program.extents pre)).rows
            [MOD UInt64.size] ∧
          c ≡ (state.value.extents (Program.extents pre)).rows
            [MOD UInt64.size]) := by
  refine ⟨fun name shape hFound => ?_, ?_, ?_⟩
  · rcases bind_eq_ok_iff.1 hTyped with ⟨scope, hWalk, hDone⟩
    cases pure_eq_ok_iff.1 hDone
    rcases tallies_of_walk hWalk with ⟨hTop, hTallies⟩
    have hCounts := hTallies.shapes name shape (by simp [hTop]) hFound
    exact ⟨hCounts, hCounts.eq_iff_fits⟩
  · rintro pre d post rfl
    rcases check_of_typed hTyped with
      ⟨scope, next, hPre, hCheck, hTop, hTallies⟩
    refine ⟨scope, hPre, fun inner known e hInfers => ?_⟩
    rcases hInfers.tallies hTallies hTop hCheck with ⟨hInner, hShape⟩
    exact hInner.countsParts hShape
  · rintro pre x post state rfl hState name hEmploys
    rcases check_of_typed hTyped with
      ⟨scope, next, hPre, hCheck, hTop, hTallies⟩
    have hLater := hTallies.after hTop hCheck
    have hLaterTop : next.parameters = [] := by
      rw [(Scope.checks_of_check hTop hCheck).parameters, hTop]
    rcases Scope.admits_of_checkExperiment hCheck with
      ⟨dimension, hAdmits⟩
    have hDeclared := hAdmits.state
    rw [hState] at hDeclared
    rcases Scope.declares_of_declareState hDeclared with
      ⟨shape, hInfer, _, _, rfl⟩
    have hSpace := (hTallies.infer hInfer).rows
    have hFound := hAdmits.find?_of_employs hLaterTop hEmploys
    have hCounts := hLater.shapes name _ (by simp [hLaterTop]) hFound
    rw [← extents_append] at hCounts
    generalize Program.extents (pre ++ [.experiment x]) name = extents
      at hCounts
    cases hCounts with
    | @matrix _ _ r c hRows hCols =>
        exact ⟨r, c, rfl, hRows.modEq.symm.trans hSpace.modEq,
          hCols.modEq.symm.trans hSpace.modEq⟩

/- The Kronecker product of two names, under a name of its own. -/
def pairing (name lhs rhs : String) : Statement Float :=
  .matrix name (.binary .tensor (.identifier lhs) (.identifier rhs))

/-
  Operators and kets on 64 qubits by repeated squaring, an
  operator on 65 qubits, the sum of both operators, and an
  experiment that evolves the ket by the larger operator.
-/
def wideRegister : Program Float :=
  [pairing "a2" "sigma_x" "sigma_x", pairing "a4" "a2" "a2",
    pairing "a8" "a4" "a4", pairing "a16" "a8" "a8",
    pairing "a32" "a16" "a16", pairing "a64" "a32" "a32",
    pairing "a65" "a64" "sigma_x",
    .matrix "sum" (.binary .add (.identifier "a64") (.identifier "a65")),
    .matrix "k1" (.vector [.number ⟨1, 0⟩, .number ⟨0, 0⟩]),
    pairing "k2" "k1" "k1", pairing "k4" "k2" "k2",
    pairing "k8" "k4" "k4", pairing "k16" "k8" "k8",
    pairing "k32" "k16" "k16", pairing "k64" "k32" "k32",
    .experiment ⟨"register", some ⟨.ket, .identifier "k64"⟩,
      some ⟨"psi", "a65", .points [0], []⟩, [⟨0, "a64"⟩]⟩]

/- The operators on 32 qubits are still recorded as they are. -/
theorem extents_recorded_in_words_wideRegister :
    ∃ typed, wideRegister.typed = .ok typed ∧
      typed.shapes.find? "a32" = some (wideRegister.extents "a32") := by
  have hAccepted : wideRegister.typed.isOk = true := by decide +kernel
  cases hTyped : wideRegister.typed with
  | error stop =>
      rw [hTyped] at hAccepted
      cases hAccepted
  | ok typed =>
      rcases extents_recorded_in_words hTyped with ⟨hNames, _⟩
      have hSome : (wideRegister.typed.toOption.bind fun typed =>
          typed.shapes.find? "a32").isSome = true := by decide +kernel
      rw [hTyped] at hSome
      rcases Option.isSome_iff_exists.1 hSome with ⟨shape, hFound⟩
      have hFits : (wideRegister.extents "a32").Fits := by
        unfold Shape.Fits
        decide +kernel
      refine ⟨typed, rfl, ?_⟩
      rw [← (hNames "a32" shape hFound).1.eq_of_fits hFits]
      exact hFound

/-
  The program is accepted although the operators on 64 and on
  65 qubits have different dimensions: both are recorded with
  no rows and columns, as is the ket.
-/
theorem wide_register_recorded_empty :
    ∃ typed, wideRegister.typed = .ok typed ∧
      typed.shapes.find? "a64" = some (.matrix 0 0) ∧
      typed.shapes.find? "a65" = some (.matrix 0 0) ∧
      typed.shapes.find? "k64" = some (.vector 0) ∧
      wideRegister.extents "a64" = .matrix (2 ^ 64) (2 ^ 64) ∧
      wideRegister.extents "a65" = .matrix (2 ^ 65) (2 ^ 65) ∧
      wideRegister.extents "k64" = .vector (2 ^ 64) := by
  have hRecorded : wideRegister.typed.toOption.map (fun typed =>
      (typed.shapes.find? "a64", typed.shapes.find? "a65",
        typed.shapes.find? "k64")) =
      some (some (.matrix 0 0), some (.matrix 0 0),
        some (.vector 0)) := by
    decide +kernel
  cases hTyped : wideRegister.typed with
  | error stop =>
      rw [hTyped] at hRecorded
      cases hRecorded
  | ok typed =>
      rw [hTyped] at hRecorded
      have hShapes := Option.some.inj hRecorded
      simp only [Prod.mk.injEq] at hShapes
      refine ⟨typed, rfl, hShapes.1, hShapes.2.1, hShapes.2.2, ?_⟩
      decide +kernel

end Program

end QuantumLab
