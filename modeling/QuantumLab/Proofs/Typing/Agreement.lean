import QuantumLab.Proofs.Lowering.Programs
import QuantumLab.Proofs.Typing.Expressions
import QuantumLab.Proofs.Typing.Scopes

/-
  This file compares the shapes that are inferred with those
  of values.  They are the same as long as no extent of a
  Kronecker product is too large for a machine word and no
  measurement has the name of a predefined operator.

  Key definitions include:
    * `Scope.Agrees`

  Main statements:
    * `Scope.shape_of_infer` says that the shape of an
      expression is the shape of its value, if the names that
      it mentions have the shapes of theirs.
    * `Scope.Checks.find?_of_kept` says which statements do
      not change the shape of a name.
    * `Scope.Agrees.after` says that a statement does not
      change this.
-/

------------------------------------------------------------
-- Shapes of expressions
------------------------------------------------------------

namespace QuantumLab

variable {R : Type} [Arithmetic R]

namespace Scope

/-
  Names with a value have the shape of the value.  No
  parameters hide them, and only predefined names can be
  declared over.
-/
structure Agrees (scope : Scope) (names : Environment R) : Prop where
  top : scope.parameters = []
  shadowable : ∀ name, scope.shadowable.contains name = true →
    name ∈ Predefined.names
  shapes : ∀ name v, names.lookup name = some v →
    scope.shapes.find? name = some v.shape

theorem agrees_initial :
    Scope.initial.Agrees (Environment.initial : Environment R) where
  top := rfl
  shadowable _ hShadowable := predefined_of_shadowable hShadowable
  shapes _ _ hName := shape_initial hName

variable
  {scope : Scope}
  {names : Environment R}

/-
  An expression has the shape of its value if the names that
  it mentions have the shapes of theirs.
-/
theorem shape_of_infer
    {e : Expr R}
    {v : Value R}
    {shape : Shape}
    (hTop : scope.parameters = [])
    (hShapes : ∀ name w, e.Mentions name →
      names.lookup name = some w →
        scope.shapes.find? name = some w.shape)
    (hInfer : scope.infer e = .ok shape)
    (hValue : names.evaluate e = .ok v)
    (hFits : names.TensorsFit e) :
    v.shape = shape := by
  induction e using Expr.induction generalizing v shape with
  | missing => exact absurd hInfer refuse_ne_ok
  | number z =>
      rw [← Except.ok.inj hValue]
      exact Except.ok.inj hInfer
  | identifier name =>
      rw [Environment.evaluate, Environment.resolve_eq_ok_iff] at hValue
      have hName := hShapes name v .self hValue
      rw [infer, lookup_eq_ok_iff hTop, hName] at hInfer
      exact Option.some.inj hInfer
  | matrix rows =>
      rw [Expr.shape_of_isFolded rfl hValue]
      unfold infer at hInfer
      split at hInfer
      · exact absurd hInfer refuse_ne_ok
      · rcases unit_bind_eq_ok_iff.1 hInfer with ⟨_, hDone⟩
        exact pure_eq_ok_iff.1 hDone
  | vector elements =>
      rw [Expr.shape_of_isFolded rfl hValue]
      unfold infer at hInfer
      split at hInfer
      · exact absurd hInfer refuse_ne_ok
      · rcases unit_bind_eq_ok_iff.1 hInfer with ⟨_, hDone⟩
        exact pure_eq_ok_iff.1 hDone
  | binary op lhs rhs ihLhs ihRhs =>
      have hExtents := hFits.extents hValue
      unfold Environment.evaluate at hValue
      rcases bind_eq_ok_iff.1 hValue with ⟨a, hA, hRest⟩
      rcases bind_eq_ok_iff.1 hRest with ⟨b, hB, hApplied⟩
      unfold infer at hInfer
      rcases bind_eq_ok_iff.1 hInfer with ⟨l, hL, hRest⟩
      rcases bind_eq_ok_iff.1 hRest with ⟨r, hR, hShape⟩
      have hLhs : a.shape = l :=
        ihLhs (fun name w hPart => hShapes name w (.lhs hPart)) hL hA
          hFits.operands.1
      have hRhs : b.shape = r :=
        ihRhs (fun name w hPart => hShapes name w (.rhs hPart)) hR hB
          hFits.operands.2
      rw [BinaryOp.shape_apply hApplied, hLhs, hRhs] at hExtents ⊢
      exact BinaryOp.resultShape_of_shape hShape hExtents
  | unary op operand ih =>
      unfold Environment.evaluate at hValue
      rcases bind_eq_ok_iff.1 hValue with ⟨a, hA, hApplied⟩
      unfold infer at hInfer
      rcases bind_eq_ok_iff.1 hInfer with ⟨s, hS, hShape⟩
      have hOperand : a.shape = s :=
        ih (fun name w hPart => hShapes name w (.operand hPart)) hS hA
          hFits
      rw [UnaryOp.shape_apply hApplied, hOperand]
      exact UnaryOp.resultShape_of_shape hShape
  | call function arguments => exact absurd hValue refuse_ne_ok

/- An expression has the shape of its value. -/
theorem Agrees.shape_of_infer
    {e : Expr R}
    {v : Value R}
    {shape : Shape}
    (hAgrees : scope.Agrees names)
    (hInfer : scope.infer e = .ok shape)
    (hValue : names.evaluate e = .ok v)
    (hFits : names.TensorsFit e) :
    v.shape = shape :=
  Scope.shape_of_infer hAgrees.top
    (fun name w _ => hAgrees.shapes name w) hInfer hValue hFits

end Scope

end QuantumLab

------------------------------------------------------------
-- Statements
------------------------------------------------------------

namespace QuantumLab

variable {R : Type} [Arithmetic R]

namespace Scope

variable
  {scope next : Scope}
  {names : Environment R}
  {d : Statement R}

omit [Arithmetic R] in
/-
  A name keeps its shape if it is not defined again and no
  measurement takes it from a predefined operator.
-/
theorem Checks.find?_of_kept
    {name : String}
    (hChecks : scope.Checks d next)
    (hShadowable : ∀ name, scope.shadowable.contains name = true →
      name ∈ Predefined.names)
    (hKnown : scope.shapes.contains name = true)
    (hMeasures : name ∈ Predefined.names → d.measures name = false)
    (hOther : d.name = name →
      d.definition? = none ∧ d.declaresSymbol = false) :
    next.shapes.find? name = scope.shapes.find? name := by
  -- A new name that is not predefined was not in the table.
  have hFresh : ∀ other, other ∉ Predefined.names →
      (scope.shadowable.contains other = true ∨
        scope.shapes.contains other = false) → other ≠ name := by
    rintro other hNew (hOpen | hUnknown) rfl
    · exact hNew (hShadowable other hOpen)
    · rw [hKnown] at hUnknown
      cases hUnknown
  cases hChecks with
  | quantity hDefinition _ hDeclares =>
      have hDifferent : d.name ≠ name := by
        intro hSame
        rw [(hOther hSame).1] at hDefinition
        cases hDefinition
      rw [hDeclares.shapes, if_neg hDifferent]
  | symbol hSymbol hDeclares =>
      have hDifferent : d.name ≠ name := by
        intro hSame
        rw [(hOther hSame).2] at hSymbol
        cases hSymbol
      rw [hDeclares.shapes, if_neg hDifferent]
  | function => rfl
  | @measurement declared kind operators shape next _ hDeclares =>
      have hDifferent : declared ≠ name := by
        rintro rfl
        refine hFresh declared (fun hMember => ?_) hDeclares.fresh rfl
        have hNone := hMeasures hMember
        simp [Statement.measures] at hNone
      rw [hDeclares.shapes, if_neg hDifferent]
  | @experiment x next hCheck =>
      rcases eq_or_declares_of_checkExperiment hCheck with
        rfl | ⟨shape, hDeclares⟩
      · rfl
      · have hDifferent := hFresh _
          (initialStateName_not_predefined x.name) hDeclares.fresh
        rw [hDeclares.shapes, if_neg hDifferent]

omit [Arithmetic R] in
/- Names with a value keep the shape when another name is declared. -/
theorem Agrees.shape_after
    {name : String}
    {v : Value R}
    (hAgrees : scope.Agrees names)
    (hChecks : scope.Checks d next)
    (hMeasures : ∀ name ∈ Predefined.names, d.measures name = false)
    (hName : names.lookup name = some v)
    (hOther : d.name = name →
      d.definition? = none ∧ d.declaresSymbol = false) :
    next.shapes.find? name = some v.shape := by
  have hShape := hAgrees.shapes name v hName
  have hKnown : scope.shapes.contains name = true := by
    rw [Table.contains, hShape]
    rfl
  rw [hChecks.find?_of_kept hAgrees.shadowable hKnown (hMeasures name)
    hOther, hShape]

/- After a statement names still have the shapes of their values. -/
theorem Agrees.after
    (hAgrees : scope.Agrees names)
    (hChecks : scope.Checks d next)
    (hMeasures : ∀ name ∈ Predefined.names, d.measures name = false)
    (hFits : names.StatementFits d) :
    next.Agrees (names.after d) where
  top := by
    rw [hChecks.parameters, hAgrees.top]
  shadowable name hShadowable :=
    hAgrees.shadowable name (hChecks.shadowable hShadowable)
  shapes := by
    intro name v hName
    rcases Environment.lookup_after hName with
      ⟨rfl, e, hDefinition, hValue⟩ | ⟨hBefore, hOther⟩
    · rcases hChecks.declares hDefinition with
        ⟨shape, hInfer, hDeclares⟩
      have hFitsDefinition : names.TensorsFit e :=
        hFits e (Statement.mem_evaluated_of_definition hDefinition)
      rw [hDeclares.shapes, if_pos rfl,
        hAgrees.shape_of_infer hInfer hValue hFitsDefinition]
    · exact hAgrees.shape_after hChecks hMeasures hBefore hOther

end Scope

end QuantumLab
