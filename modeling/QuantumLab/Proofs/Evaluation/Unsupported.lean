import QuantumLab.Proofs.Typing.Expressions

/-
  This file says why the evaluation of an expression ends
  without a value that is reported as unsupported: there is a
  part that is a name without a value, a call, or an
  operation that is not carried out on its operands.

  Key definitions include:
    * `Unsupported`
    * `BinaryOp.Lacks`, `UnaryOp.Lacks`
    * `Environment.Inoperable`
    * `Environment.Blocks`, `Environment.Blocked`

  Main statements:
    * `BinaryOp.unsupported_apply_iff` and
      `UnaryOp.unsupported_apply_iff` say which operations
      are not carried out.
    * `Environment.blocked_of_unsupported` finds the part, and
      `Environment.not_blocked_of_evaluate` says that there is
      none in an expression with a value.
-/

------------------------------------------------------------
-- Unsupported computations
------------------------------------------------------------

namespace QuantumLab

variable {R α β : Type}

/- A computation ends with a fault that is reported as unsupported. -/
def Unsupported (x : Except (Fault R) α) : Prop :=
  ∃ fault, x = .error fault ∧ fault.isUnsupported = true

theorem not_unsupported_ok
    (a : α) :
    ¬ Unsupported (.ok a : Except (Fault R) α) := by
  rintro ⟨_, hFault, _⟩
  cases hFault

theorem unsupported_refuse_iff
    {cause : Cause R} :
    Unsupported (refuse cause : Except (Fault R) α) ↔
      cause.kind = .unsupported := by
  constructor
  · rintro ⟨fault, hFault, hUnsupported⟩
    cases hFault
    exact beq_iff_eq.1 hUnsupported
  · intro hKind
    exact ⟨_, rfl, beq_iff_eq.2 hKind⟩

/- A sequence is unsupported if its first or its second part is. -/
theorem unsupported_bind_iff
    {x : Except (Fault R) α}
    {f : α → Except (Fault R) β} :
    Unsupported (x >>= f) ↔
      Unsupported x ∨ ∃ a, x = .ok a ∧ Unsupported (f a) := by
  cases x with
  | error fault => simp [Unsupported]
  | ok a => simp [not_unsupported_ok]

theorem unsupported_map_iff
    {x : Except (Fault R) α}
    {f : α → β} :
    Unsupported (f <$> x) ↔ Unsupported x := by
  cases x with
  | error fault => simp [Unsupported]
  | ok a => exact iff_of_false (not_unsupported_ok _) (not_unsupported_ok _)

theorem not_unsupported_refuse
    {cause : Cause R}
    (hKind : (cause.kind == .unsupported) = false) :
    ¬ Unsupported (refuse cause : Except (Fault R) α) := by
  rw [unsupported_refuse_iff]
  exact beq_eq_false_iff_ne.1 hKind

/- A test refuses for a reason that is not a lack of support. -/
theorem not_unsupported_ite
    {test : Prop}
    [Decidable test]
    {x : Except (Fault R) α}
    {cause : Cause R}
    (hResult : ¬ Unsupported x)
    (hKind : (cause.kind == .unsupported) = false) :
    ¬ Unsupported (if test then x else refuse cause) := by
  by_cases hTest : test
  · rwa [if_pos hTest]
  · rw [if_neg hTest]
    exact not_unsupported_refuse hKind

end QuantumLab

------------------------------------------------------------
-- Unsupported operations
------------------------------------------------------------

namespace QuantumLab

variable {R : Type} [Arithmetic R]

namespace Guarded

omit [Arithmetic R] in
theorem not_unsupported_requireSquare
    (a : Mat R)
    (subject : String) :
    ¬ Unsupported (requireSquare a subject) :=
  not_unsupported_ite (not_unsupported_ok _) rfl

omit [Arithmetic R] in
theorem not_unsupported_requireSameSquare
    (a b : Mat R)
    (subject : String) :
    ¬ Unsupported (requireSameSquare a b subject) := by
  have hSame : ¬ Unsupported (if a.sameExtents b then .ok ()
      else refuse (.mismatch a.shape b.shape subject) :
        Except (Fault R) Unit) :=
    not_unsupported_ite (not_unsupported_ok _) rfl
  rw [requireSameSquare, unsupported_bind_iff]
  rintro (hFails | ⟨_, _, hFails⟩)
  · exact not_unsupported_requireSquare a subject hFails
  · exact hSame hFails

omit [Arithmetic R] in
/- A result that only depends on extents is never unsupported. -/
theorem not_unsupported_guarded
    {α : Type}
    {check : Except (Fault R) Unit}
    (hCheck : ¬ Unsupported check)
    (a : α) :
    ¬ Unsupported (check >>= fun _ => (pure a : Except (Fault R) α)) := by
  rw [unsupported_bind_iff]
  rintro (hFails | ⟨_, _, hDone⟩)
  · exact hCheck hFails
  · exact not_unsupported_ok a hDone

theorem not_unsupported_exponentialOfHermitian
    (z : Scalar R)
    (a : Mat R) :
    ¬ Unsupported (exponentialOfHermitian z a) := by
  unfold exponentialOfHermitian
  cases a.hermitianPart.spectrum? with
  | some spectrum => exact not_unsupported_ok _
  | none => exact not_unsupported_refuse rfl

/-
  A square matrix has no exponential if it is neither close
  to Hermitian nor to skew-Hermitian.
-/
theorem unsupported_exponential_iff
    {a : Mat R} :
    Unsupported (exponential a) ↔
      a.rows = a.cols ∧ a.isEmpty = false ∧
        Arithmetic.atMost a.hermiticityGap (generatorTolerance a) =
          false ∧
        Arithmetic.atMost a.skewHermiticityGap (generatorTolerance a) =
          false := by
  have hNever := not_unsupported_requireSquare a "matrix exponential"
  rw [exponential, unsupported_bind_iff, or_iff_right hNever]
  have hUnit (f : Unit → Prop) : (∃ u, f u) ↔ f () :=
    ⟨fun ⟨_, h⟩ => h, fun h => ⟨(), h⟩⟩
  rw [hUnit, requireSquare_eq_ok_iff]
  refine and_congr_right fun _ => ?_
  by_cases hEmpty : a.isEmpty = true
  · simp only [hEmpty, if_true]
    exact iff_of_false (not_unsupported_ok _) (by simp)
  · rw [if_neg hEmpty]
    by_cases hHermitian : Arithmetic.atMost a.hermiticityGap
        (generatorTolerance a) = true
    · simp only [hHermitian, if_true]
      exact iff_of_false
        (not_unsupported_exponentialOfHermitian _ _) (by simp)
    · rw [if_neg hHermitian]
      by_cases hSkew : Arithmetic.atMost a.skewHermiticityGap
          (generatorTolerance a) = true
      · simp only [hSkew, if_true]
        exact iff_of_false
          (not_unsupported_exponentialOfHermitian _ _) (by simp)
      · rw [if_neg hSkew, unsupported_refuse_iff]
        simp [hEmpty, hHermitian, hSkew, Cause.kind]

end Guarded

/- Powers are only taken of scalars. -/
def BinaryOp.Lacks (op : BinaryOp) (a b : Value R) : Prop :=
  op = .power ∧ ¬ (a.shape = .scalar ∧ b.shape = .scalar)

/-
  Square roots are only taken of scalars, and exponentials not
  of square matrices that are neither close to Hermitian nor
  to skew-Hermitian.
-/
def UnaryOp.Lacks (op : UnaryOp) (a : Value R) : Prop :=
  (op = .sqrt ∧ a.shape ≠ .scalar) ∨
    (op = .expm ∧ ∃ m, a = .matrix m ∧ m.rows = m.cols ∧
      m.isEmpty = false ∧
      Arithmetic.atMost m.hermiticityGap
        (Guarded.generatorTolerance m) = false ∧
      Arithmetic.atMost m.skewHermiticityGap
        (Guarded.generatorTolerance m) = false)

omit [Arithmetic R] in
theorem not_unsupported_mismatch
    (op : BinaryOp)
    (a b : Value R) :
    ¬ Unsupported (op.mismatch a b) :=
  not_unsupported_refuse rfl

theorem not_unsupported_addMultiple
    (op : BinaryOp)
    (factor : Scalar R)
    (a b : Value R) :
    ¬ Unsupported (addMultiple op factor a b) := by
  cases a <;> cases b <;>
    simp only [addMultiple, unsupported_map_iff, Guarded.vectorSum,
      Guarded.sum, not_unsupported_ok, not_unsupported_mismatch,
      not_false_eq_true]
  · exact not_unsupported_ite (not_unsupported_ok _) rfl
  · exact not_unsupported_ite (not_unsupported_ok _) rfl

theorem not_unsupported_multiplyValues
    (a b : Value R) :
    ¬ Unsupported (multiplyValues a b) := by
  cases a <;> cases b <;>
    simp only [multiplyValues, unsupported_map_iff, Guarded.product,
      Guarded.vectorProduct, not_unsupported_ok,
      not_unsupported_mismatch, not_false_eq_true]
  · exact not_unsupported_ite (not_unsupported_ok _) rfl
  · exact not_unsupported_ite (not_unsupported_ok _) rfl

theorem not_unsupported_divideValue
    (a b : Value R) :
    ¬ Unsupported (divideValue a b) := by
  cases b with
  | scalar w =>
      unfold divideValue
      by_cases hZero : w.isZero = true
      · simp only [hZero, if_true]
        exact not_unsupported_refuse rfl
      · simp only [hZero]
        exact not_unsupported_ok _
  | vector w => exact not_unsupported_refuse rfl
  | matrix m => exact not_unsupported_refuse rfl

theorem BinaryOp.unsupported_apply_iff
    {op : BinaryOp}
    {a b : Value R} :
    Unsupported (op.apply a b) ↔ op.Lacks a b := by
  have hOther : op ≠ .power → ¬ op.Lacks a b := fun hOp hLacks =>
    hOp hLacks.1
  cases op with
  | add =>
      exact iff_of_false (not_unsupported_addMultiple _ _ _ _)
        (hOther (by decide))
  | subtract =>
      exact iff_of_false (not_unsupported_addMultiple _ _ _ _)
        (hOther (by decide))
  | multiply =>
      exact iff_of_false (not_unsupported_multiplyValues _ _)
        (hOther (by decide))
  | divide =>
      exact iff_of_false (not_unsupported_divideValue _ _)
        (hOther (by decide))
  | power =>
      cases a <;> cases b <;>
        simp [apply, Lacks, Value.shape, Vec.shape, Mat.shape,
          unsupported_refuse_iff, not_unsupported_ok, Cause.kind]
  | tensor =>
      refine iff_of_false ?_ (hOther (by decide))
      cases a <;> cases b <;>
        simp only [apply, not_unsupported_ok, not_unsupported_mismatch,
          not_false_eq_true]
  | commutator =>
      refine iff_of_false ?_ (hOther (by decide))
      cases a <;> cases b <;>
        simp only [apply, unsupported_map_iff, Guarded.commutator,
          not_unsupported_mismatch, not_false_eq_true]
      exact Guarded.not_unsupported_guarded
        (Guarded.not_unsupported_requireSameSquare _ _ _) _
  | anticommutator =>
      refine iff_of_false ?_ (hOther (by decide))
      cases a <;> cases b <;>
        simp only [apply, unsupported_map_iff, Guarded.anticommutator,
          not_unsupported_mismatch, not_false_eq_true]
      exact Guarded.not_unsupported_guarded
        (Guarded.not_unsupported_requireSameSquare _ _ _) _

omit [Arithmetic R] in
theorem not_unsupported_applyToScalar
    (op : UnaryOp)
    (f : Scalar R → Scalar R)
    (a : Value R) :
    ¬ Unsupported (applyToScalar op f a) := by
  cases a with
  | scalar z => exact not_unsupported_ok _
  | vector w => exact not_unsupported_refuse rfl
  | matrix m => exact not_unsupported_refuse rfl

theorem UnaryOp.unsupported_apply_iff
    {op : UnaryOp}
    {a : Value R} :
    Unsupported (op.apply a) ↔ op.Lacks a := by
  have hOther : op ≠ .sqrt → op ≠ .expm → ¬ op.Lacks a := by
    rintro hRoot hExponential (⟨hOp, _⟩ | ⟨hOp, _⟩)
    · exact hRoot hOp
    · exact hExponential hOp
  cases op with
  | dagger =>
      exact iff_of_false (not_unsupported_ok _)
        (hOther (by decide) (by decide))
  | trace =>
      refine iff_of_false ?_ (hOther (by decide) (by decide))
      cases a with
      | scalar z => exact not_unsupported_refuse rfl
      | vector w => exact not_unsupported_refuse rfl
      | matrix m =>
          simp only [apply, unsupported_map_iff, Guarded.trace]
          exact Guarded.not_unsupported_guarded
            (Guarded.not_unsupported_requireSquare _ _) _
  | expm =>
      cases a with
      | scalar z =>
          exact iff_of_false (not_unsupported_ok _) (by simp [Lacks])
      | vector w =>
          simp [apply, Lacks, unsupported_refuse_iff, Cause.kind]
      | matrix m =>
          simp [apply, Lacks, unsupported_map_iff,
            Guarded.unsupported_exponential_iff]
  | sqrt =>
      cases a <;>
        simp [apply, Lacks, Value.shape, Vec.shape, Mat.shape,
          unsupported_refuse_iff, not_unsupported_ok, Cause.kind]
  | sin =>
      exact iff_of_false (not_unsupported_applyToScalar _ _ _)
        (hOther (by decide) (by decide))
  | cos =>
      exact iff_of_false (not_unsupported_applyToScalar _ _ _)
        (hOther (by decide) (by decide))
  | exp =>
      exact iff_of_false (not_unsupported_applyToScalar _ _ _)
        (hOther (by decide) (by decide))

end QuantumLab

------------------------------------------------------------
-- Parts without a value
------------------------------------------------------------

namespace QuantumLab

variable {R : Type} [Arithmetic R]

namespace Environment

variable {env : Environment R}

/-
  An operation has operands with values, but is not carried
  out on them.
-/
inductive Inoperable (env : Environment R) : Expr R → Prop
  | binary
      {op : BinaryOp}
      {lhs rhs : Expr R}
      {a b : Value R} :
      env.evaluate lhs = .ok a →
      env.evaluate rhs = .ok b →
      op.Lacks a b →
      env.Inoperable (.binary op lhs rhs)
  | unary
      {op : UnaryOp}
      {operand : Expr R}
      {a : Value R} :
      env.evaluate operand = .ok a →
      op.Lacks a →
      env.Inoperable (.unary op operand)

/-
  An expression has no value of its own accord: it is a name
  without a value, a call, or an operation that is not carried
  out.
-/
inductive Blocks (env : Environment R) : Expr R → Prop
  | symbol
      {name : String} :
      env.lookup name = none →
      env.isSymbolic name = true →
      env.Blocks (.identifier name)
  | call
      {function : String}
      {arguments : List (Expr R)} :
      env.Blocks (.call function arguments)
  | operation
      {e : Expr R} :
      env.Inoperable e →
      env.Blocks e

/- Some part of an expression has no value of its own accord. -/
def Blocked (env : Environment R) (e : Expr R) : Prop :=
  ∃ part, part.Part e ∧ env.Blocks part

/- An expression is blocked where a part of it is. -/
theorem Blocked.mono
    {e e' : Expr R}
    (hBlocked : env.Blocked e)
    (hParts : ∀ part : Expr R, part.Part e → part.Part e') :
    env.Blocked e' := by
  rcases hBlocked with ⟨part, hPart, hBlocks⟩
  exact ⟨part, hParts part hPart, hBlocks⟩

omit [Arithmetic R] in
theorem unsupported_resolve_iff
    {name : String} :
    Unsupported (env.resolve name) ↔
      env.lookup name = none ∧ env.isSymbolic name = true := by
  rw [resolve]
  cases env.lookup name with
  | some value => simp [not_unsupported_ok]
  | none =>
      by_cases hSymbolic : env.isSymbolic name = true
      · simp [hSymbolic, unsupported_refuse_iff, Cause.kind]
      · simp [hSymbolic, unsupported_refuse_iff, Cause.kind]

omit [Arithmetic R] in
theorem not_unsupported_elementOf
    (value : Value R) :
    ¬ Unsupported (elementOf value) := by
  cases value with
  | scalar z => exact not_unsupported_ok z
  | vector v => exact not_unsupported_refuse rfl
  | matrix m => exact not_unsupported_refuse rfl

/- The elements of a literal are unsupported because one of them is. -/
theorem exists_of_unsupported_evaluateElements
    {elements : List (Expr R)}
    (hUnsupported : Unsupported (env.evaluateElements elements)) :
    ∃ element ∈ elements, Unsupported (env.evaluate element) := by
  induction elements with
  | nil =>
      unfold evaluateElements at hUnsupported
      exact absurd hUnsupported (not_unsupported_ok _)
  | cons element rest ih =>
      unfold evaluateElements at hUnsupported
      rcases unsupported_bind_iff.1 hUnsupported with
        hHead | ⟨value, _, hTail⟩
      · exact ⟨element, List.mem_cons_self, hHead⟩
      rcases unsupported_bind_iff.1 hTail with hElement | ⟨z, _, hRest⟩
      · exact absurd hElement (not_unsupported_elementOf value)
      rcases unsupported_bind_iff.1 hRest with
        hLater | ⟨others, _, hDone⟩
      · rcases ih hLater with ⟨other, hOther, hFails⟩
        exact ⟨other, List.mem_cons_of_mem element hOther, hFails⟩
      · exact absurd hDone (not_unsupported_ok _)

theorem exists_of_unsupported_evaluateRows
    {rows : List (List (Expr R))}
    {columns k : Nat}
    (hUnsupported : Unsupported (env.evaluateRows columns k rows)) :
    ∃ row ∈ rows, ∃ element ∈ row,
      Unsupported (env.evaluate element) := by
  induction rows generalizing k with
  | nil =>
      unfold evaluateRows at hUnsupported
      exact absurd hUnsupported (not_unsupported_ok _)
  | cons row rest ih =>
      unfold evaluateRows at hUnsupported
      by_cases hLength : row.length = columns
      · rw [if_pos hLength] at hUnsupported
        rcases unsupported_bind_iff.1 hUnsupported with
          hRow | ⟨entries, _, hTail⟩
        · exact ⟨row, List.mem_cons_self,
            exists_of_unsupported_evaluateElements hRow⟩
        rcases unsupported_bind_iff.1 hTail with
          hLater | ⟨others, _, hDone⟩
        · rcases ih hLater with ⟨other, hOther, hElement⟩
          exact ⟨other, List.mem_cons_of_mem row hOther, hElement⟩
        · exact absurd hDone (not_unsupported_ok _)
      · rw [if_neg hLength, unsupported_refuse_iff] at hUnsupported
        cases hUnsupported

/-
  The evaluation of an expression is only unsupported if a
  part has no value of its own accord.
-/
theorem blocked_of_unsupported
    {e : Expr R}
    (hUnsupported : Unsupported (env.evaluate e)) :
    env.Blocked e := by
  induction e using Expr.induction with
  | missing =>
      rw [evaluate, unsupported_refuse_iff] at hUnsupported
      cases hUnsupported
  | number z =>
      rw [evaluate] at hUnsupported
      exact absurd hUnsupported (not_unsupported_ok _)
  | identifier name =>
      rw [evaluate, unsupported_resolve_iff] at hUnsupported
      exact ⟨_, .self, .symbol hUnsupported.1 hUnsupported.2⟩
  | matrix rows ih =>
      unfold evaluate at hUnsupported
      by_cases hEmpty : Expr.columns rows = 0
      · rw [if_pos hEmpty, unsupported_refuse_iff] at hUnsupported
        cases hUnsupported
      · rw [if_neg hEmpty] at hUnsupported
        rcases unsupported_bind_iff.1 hUnsupported with
          hRows | ⟨entries, _, hDone⟩
        · rcases exists_of_unsupported_evaluateRows hRows with
            ⟨row, hRow, element, hElement, hFails⟩
          exact (ih row hRow element hElement hFails).mono
            fun _ => .entry hRow hElement
        · exact absurd hDone (not_unsupported_ok _)
  | vector elements ih =>
      unfold evaluate at hUnsupported
      by_cases hEmpty : elements.isEmpty = true
      · rw [if_pos hEmpty, unsupported_refuse_iff] at hUnsupported
        cases hUnsupported
      · rw [if_neg hEmpty] at hUnsupported
        rcases unsupported_bind_iff.1 hUnsupported with
          hElements | ⟨entries, _, hDone⟩
        · rcases exists_of_unsupported_evaluateElements hElements with
            ⟨element, hElement, hFails⟩
          exact (ih element hElement hFails).mono
            fun _ => .component hElement
        · exact absurd hDone (not_unsupported_ok _)
  | binary op lhs rhs ihLhs ihRhs =>
      unfold evaluate at hUnsupported
      rcases unsupported_bind_iff.1 hUnsupported with
        hLhs | ⟨a, hA, hRest⟩
      · exact (ihLhs hLhs).mono fun _ => .lhs
      rcases unsupported_bind_iff.1 hRest with hRhs | ⟨b, hB, hApply⟩
      · exact (ihRhs hRhs).mono fun _ => .rhs
      · exact ⟨_, .self, .operation
          (.binary hA hB (BinaryOp.unsupported_apply_iff.1 hApply))⟩
  | unary op operand ih =>
      unfold evaluate at hUnsupported
      rcases unsupported_bind_iff.1 hUnsupported with
        hOperand | ⟨a, hA, hApply⟩
      · exact (ih hOperand).mono fun _ => .operand
      · exact ⟨_, .self, .operation
          (.unary hA (UnaryOp.unsupported_apply_iff.1 hApply))⟩
  | call function arguments => exact ⟨_, .self, .call⟩

/- An expression that has no value of its own accord is unsupported. -/
theorem Blocks.unsupported
    {e : Expr R}
    (hBlocks : env.Blocks e) :
    Unsupported (env.evaluate e) := by
  cases hBlocks with
  | symbol hLookup hSymbolic =>
      rw [evaluate]
      exact unsupported_resolve_iff.2 ⟨hLookup, hSymbolic⟩
  | call =>
      rw [evaluate]
      exact unsupported_refuse_iff.2 rfl
  | operation hInoperable =>
      cases hInoperable with
      | binary hLhs hRhs hLacks =>
          rw [evaluate, hLhs, hRhs]
          exact BinaryOp.unsupported_apply_iff.2 hLacks
      | unary hOperand hLacks =>
          rw [evaluate, hOperand]
          exact UnaryOp.unsupported_apply_iff.2 hLacks

/- Every part of an expression with a value has a value. -/
theorem exists_of_part
    {e part : Expr R}
    {value : Value R}
    (hValue : env.evaluate e = .ok value)
    (hPart : part.Part e) :
    ∃ value', env.evaluate part = .ok value' := by
  induction hPart generalizing value with
  | self => exact ⟨value, hValue⟩
  | entry hRow hElement hPart ih =>
      unfold evaluate at hValue
      split at hValue
      · exact absurd hValue refuse_ne_ok
      · rcases bind_eq_ok_iff.1 hValue with ⟨entries, hEntries, _⟩
        rcases (exists_of_evaluateRows hEntries _ hRow).2 _ hElement
          with ⟨z, hScalar⟩
        exact ih hScalar
  | component hElement hPart ih =>
      unfold evaluate at hValue
      split at hValue
      · exact absurd hValue refuse_ne_ok
      · rcases bind_eq_ok_iff.1 hValue with ⟨entries, hEntries, _⟩
        rcases exists_of_evaluateElements hEntries _ hElement with
          ⟨z, hScalar⟩
        exact ih hScalar
  | lhs hPart ih =>
      unfold evaluate at hValue
      rcases bind_eq_ok_iff.1 hValue with ⟨a, hLhs, _⟩
      exact ih hLhs
  | rhs hPart ih =>
      unfold evaluate at hValue
      rcases bind_eq_ok_iff.1 hValue with ⟨a, _, hRest⟩
      rcases bind_eq_ok_iff.1 hRest with ⟨b, hRhs, _⟩
      exact ih hRhs
  | operand hPart ih =>
      unfold evaluate at hValue
      rcases bind_eq_ok_iff.1 hValue with ⟨a, hOperand, _⟩
      exact ih hOperand
  | argument hArgument hPart ih => exact absurd hValue refuse_ne_ok

/- No part of an expression with a value is without one. -/
theorem not_blocked_of_evaluate
    {e : Expr R}
    {value : Value R}
    (hValue : env.evaluate e = .ok value) :
    ¬ env.Blocked e := by
  rintro ⟨part, hPart, hBlocks⟩
  rcases exists_of_part hValue hPart with ⟨value', hPartValue⟩
  have hUnsupported := hBlocks.unsupported
  rw [hPartValue] at hUnsupported
  exact not_unsupported_ok value' hUnsupported

/-
  Where the evaluation of an expression does not fail, the
  expression is without a value exactly if a part of it is of
  its own accord.
-/
theorem evaluate?_eq_none_iff
    {e : Expr R}
    {value? : Option (Value R)}
    (hEvaluated : env.evaluate? e = .ok value?) :
    value? = none ↔ env.Blocked e := by
  cases value? with
  | none =>
      have hUnsupported : Unsupported (env.evaluate e) :=
        evaluate?_eq_none hEvaluated
      exact iff_of_true rfl (blocked_of_unsupported hUnsupported)
  | some value =>
      have hValue := evaluate?_eq_some_iff.1 hEvaluated
      exact iff_of_false (Option.some_ne_none value)
        (not_blocked_of_evaluate hValue)

end Environment

end QuantumLab
