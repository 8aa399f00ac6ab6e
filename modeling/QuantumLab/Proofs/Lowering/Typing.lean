import QuantumLab.Proofs.Lowering.Experiments
import QuantumLab.Proofs.Typing.Expressions

/-
  This file says that the nodes of a lowering are typed: an
  operation that is defined on values becomes nodes that are
  defined on the shapes of the values.

  Key definitions include:
    * `Lowering.Typed`
    * `Lowering.HasShape`

  Main statements:
    * `Lowering.Lowers.typed` says that the nodes of an
      expression with a value are typed.
    * `Lowering.typed_addStatement` says that every statement
      keeps the nodes typed.
-/

------------------------------------------------------------
-- Typed states
------------------------------------------------------------

namespace QuantumLab

variable {R : Type}

namespace Lowering

/- Each node has a shape, and all nodes are typed. -/
structure Typed (s : Lowering R) : Prop where
  aligned : s.Aligned
  nodes : s.plan.Typed s.shapeOf

/- A node is there and has a shape. -/
abbrev HasShape
    (s : Lowering R)
    (id : NodeId)
    (shape : Shape) : Prop :=
  s.plan.HasShape s.shapeOf id shape

variable {s next : Lowering R}

theorem HasShape.later
    {id : NodeId}
    {shape : Shape}
    (hShape : s.HasShape id shape)
    (hAligned : s.Aligned)
    (hGrows : s.Grows next) :
    next.HasShape id shape where
  inside := Nat.lt_of_lt_of_le hShape.inside hGrows.size_le
  recorded := by
    have hInside : id < s.shapes.size := hAligned ▸ hShape.inside
    rw [hGrows.shapeOf_eq hInside, hShape.recorded]

theorem hasShape_emit
    (hAligned : s.Aligned)
    (operation : Operation R)
    (shape : Shape) :
    (s.emit operation shape).2.HasShape s.plan.size shape where
  inside := by
    rw [size_emit]
    exact Nat.lt_succ_self _
  recorded := shapeOf_emit hAligned operation shape

/- A node keeps its shape when another one is added. -/
theorem HasShape.emit
    {id : NodeId}
    {shape : Shape}
    (hShape : s.HasShape id shape)
    (hAligned : s.Aligned)
    (operation : Operation R)
    (other : Shape) :
    (s.emit operation other).2.HasShape id shape :=
  hShape.later hAligned (s.appends_emit operation other).toGrows

/- A state without nodes is typed. -/
theorem typed_initial [Arithmetic R] :
    (initial : Lowering R).Typed where
  aligned := rfl
  nodes := by
    constructor
    · intro id operation hOperation
      cases hOperation
    · intro id operation hOperation
      cases hOperation

/- Only the nodes and their shapes matter. -/
theorem Typed.of_eq
    (hTyped : s.Typed)
    (hNodes : next.plan.nodes = s.plan.nodes)
    (hShapes : next.shapes = s.shapes) :
    next.Typed := by
  have hShapeOf : next.shapeOf = s.shapeOf := by
    funext id
    unfold shapeOf
    rw [hShapes]
  have hOperation : next.plan.operation? = s.plan.operation? := by
    funext id
    unfold Plan.operation?
    rw [hNodes]
  constructor
  · have hAligned : s.shapes.size = s.plan.nodes.size :=
      hTyped.aligned
    unfold Aligned Plan.size
    rw [hShapes, hNodes, hAligned]
  · rw [hShapeOf]
    constructor
    · rw [hOperation]
      exact hTyped.nodes.backward
    · rw [hOperation]
      exact hTyped.nodes.typed

/- A typed node may be added. -/
theorem Typed.emit
    {operation : Operation R}
    {shape : Shape}
    (hTyped : s.Typed)
    (hInside : ∀ operand ∈ operation.operands,
      operand < s.plan.size)
    (hOperation : operation.Typed s.shapeOf shape) :
    (s.emit operation shape).2.Typed := by
  have hGrows := (s.appends_emit operation shape).toGrows
  have hShapes : ∀ id < s.plan.size,
      (s.emit operation shape).2.shapeOf id = s.shapeOf id :=
    fun id hBelow => hGrows.shapeOf_eq (hTyped.aligned ▸ hBelow)
  -- A node of the larger plan is an old one or the last one.
  have hCases : ∀ id other,
      (s.emit operation shape).2.plan.operation? id = some other →
        (id < s.plan.size ∧ s.plan.operation? id = some other) ∨
          (id = s.plan.size ∧ other = operation) := by
    intro id other hOther
    have hBelow := Plan.lt_size_of_operation hOther
    rw [size_emit] at hBelow
    rcases Nat.lt_succ_iff_lt_or_eq.1 hBelow with hOld | rfl
    · rw [hGrows.operation?_eq hOld] at hOther
      exact .inl ⟨hOld, hOther⟩
    · rw [operation?_emit] at hOther
      exact .inr ⟨rfl, (Option.some.inj hOther).symm⟩
  refine ⟨hTyped.aligned.emit operation shape, ?_, ?_⟩
  · intro id other hOther
    rcases hCases id other hOther with ⟨_, hOld⟩ | ⟨rfl, rfl⟩
    · exact hTyped.nodes.backward id other hOld
    · exact hInside
  · intro id other hOther
    rcases hCases id other hOther with ⟨hBelow, hOld⟩ | ⟨rfl, rfl⟩
    · rw [hShapes id hBelow]
      apply (hTyped.nodes.typed id other hOld).congr
      intro operand hOperand
      have hBefore :=
        hTyped.nodes.backward id other hOld operand hOperand
      exact hShapes operand (Nat.lt_trans hBefore hBelow)
    · rw [shapeOf_emit hTyped.aligned]
      exact hOperation.congr fun operand hOperand =>
        hShapes operand (hInside operand hOperand)

theorem Typed.emitConstant
    (hTyped : s.Typed)
    (name : String)
    (value : Value R) :
    (s.emitConstant name value).2.Typed := by
  refine hTyped.emit ?_ (Operation.typed_constant _ name value)
  cases value with
  | scalar z =>
      intro _ hMember
      exact absurd hMember List.not_mem_nil
  | vector v =>
      intro _ hMember
      exact absurd hMember List.not_mem_nil
  | matrix a =>
      intro _ hMember
      exact absurd hMember List.not_mem_nil

variable [Arithmetic R]

theorem Yields.hasShape
    {id : NodeId}
    {shape : Shape}
    {value? : Option (Value R)}
    (hYields : s.Yields True id shape value?) :
    s.HasShape id shape where
  inside := hYields.inside
  recorded := hYields.recorded.same trivial

/- A name that is resolved gets a typed node. -/
theorem Typed.resolve
    {name : String}
    {id : NodeId}
    (hTyped : s.Typed)
    (hResolve : s.resolve name = .ok (id, next)) :
    next.Typed := by
  unfold Lowering.resolve at hResolve
  cases hSymbol : s.symbols.find? name with
  | some k =>
      rw [hSymbol] at hResolve
      cases hResolve
      exact hTyped
  | none =>
      simp only [hSymbol] at hResolve
      split at hResolve
      · exact absurd hResolve refuse_ne_ok
      · split at hResolve
        · next a hFound =>
          cases hResolve
          exact (hTyped.emitConstant name (.matrix a)).of_eq rfl rfl
        · exact absurd hResolve refuse_ne_ok

end Lowering

end QuantumLab

------------------------------------------------------------
-- Nodes of operations
------------------------------------------------------------

namespace QuantumLab

variable {R : Type}

namespace Lowering

variable
  {s : Lowering R}
  {l r id : NodeId}
  {shape shape' : Shape}

/- The two operands of a node are there. -/
theorem HasShape.inside_pair
    (hLhs : s.HasShape l shape)
    (hRhs : s.HasShape r shape') :
    ∀ operand ∈ [l, r], operand < s.plan.size := by
  intro operand hMember
  rcases List.mem_cons.1 hMember with rfl | hRest
  · exact hLhs.inside
  · rw [List.mem_singleton.1 hRest]
    exact hRhs.inside

theorem HasShape.inside_single
    (hOperand : s.HasShape id shape) :
    ∀ operand ∈ [id], operand < s.plan.size := by
  intro operand hMember
  rw [List.mem_singleton.1 hMember]
  exact hOperand.inside

theorem Typed.emit_sum
    (hTyped : s.Typed)
    (hLhs : s.HasShape l shape)
    (hRhs : s.HasShape r shape) :
    (s.emit (.matrixAdd l r) shape).2.Typed := by
  refine hTyped.emit (hLhs.inside_pair hRhs) ?_
  rw [← hLhs.recorded]
  exact .sum (hLhs.recorded.trans hRhs.recorded.symm)

theorem Typed.emit_multiple
    (hTyped : s.Typed)
    (hFactor : s.HasShape l .scalar)
    (hOperand : s.HasShape r shape) :
    (s.emit (.scalarMul l r) shape).2.Typed := by
  refine hTyped.emit (hFactor.inside_pair hOperand) ?_
  rw [← hOperand.recorded]
  exact .multiple hFactor.recorded

theorem Typed.emit_product
    {n m k : Nat}
    (hTyped : s.Typed)
    (hLhs : s.HasShape l (.matrix n m))
    (hRhs : s.HasShape r (.matrix m k)) :
    (s.emit (.matrixMul l r) (.matrix n k)).2.Typed :=
  hTyped.emit (hLhs.inside_pair hRhs)
    (.product hLhs.recorded hRhs.recorded)

variable [Arithmetic R]

/- A difference is the sum with a multiple. -/
theorem Typed.emitDifference
    (hTyped : s.Typed)
    (hLhs : s.HasShape l shape)
    (hRhs : s.HasShape r shape) :
    (s.emitDifference l r).2.Typed := by
  unfold Lowering.emitDifference
  rw [hLhs.recorded, hRhs.recorded]
  have hFactor := hTyped.emitConstant ""
    (.scalar (Scalar.ofReal (-(1.0 : R))))
  have hFactorShape := hasShape_emit hTyped.aligned
    (.constant "" (.scalar (Scalar.ofReal (-(1.0 : R))))) .scalar
  have hNegated := hFactor.emit_multiple hFactorShape
    (hRhs.emit hTyped.aligned _ _)
  have hLater := (hLhs.emit hTyped.aligned
    (.constant "" (.scalar (Scalar.ofReal (-(1.0 : R))))) .scalar).emit
      hFactor.aligned (.scalarMul s.plan.size r) shape
  exact hNegated.emit_sum hLater (hasShape_emit hFactor.aligned _ _)

/- The product of values of two shapes is a multiple or a product. -/
theorem Typed.emitProduct
    {a b v : Value R}
    (hTyped : s.Typed)
    (hProduct : multiplyValues a b = .ok v)
    (hLhs : s.HasShape l a.shape)
    (hRhs : s.HasShape r b.shape) :
    (s.emitProduct l r).2.Typed := by
  unfold Lowering.emitProduct
  rw [hLhs.recorded, hRhs.recorded]
  cases a with
  | scalar z => exact hTyped.emit_multiple hLhs hRhs
  | vector v =>
      cases b with
      | scalar w => exact hTyped.emit_multiple hRhs hLhs
      | vector w => exact absurd hProduct refuse_ne_ok
      | matrix b => exact absurd hProduct refuse_ne_ok
  | matrix a =>
      cases b with
      | scalar w => exact hTyped.emit_multiple hRhs hLhs
      | vector w =>
          rcases map_eq_ok_iff.1 hProduct with ⟨u, hProduct, _⟩
          have hFit := (Guarded.vectorProduct_eq_ok_iff.1 hProduct).1
          have hVector : s.shapeOf r = .vector a.cols := by
            rw [hFit]
            exact hRhs.recorded
          exact hTyped.emit (hLhs.inside_pair hRhs)
            (.vectorProduct hLhs.recorded hVector)
      | matrix b =>
          rcases map_eq_ok_iff.1 hProduct with ⟨c, hProduct, _⟩
          have hFit := (Guarded.product_eq_ok_iff.1 hProduct).1
          refine hTyped.emit_product hLhs (?_ : s.HasShape r _)
          rw [hFit]
          exact hRhs

/- The extents of a Kronecker product that fit are recorded. -/
theorem Typed.emitTensor
    {a b v : Value R}
    (hTyped : s.Typed)
    (hTensor : BinaryOp.tensor.apply a b = .ok v)
    (hFits : v.shape.rows < UInt64.size ∧ v.shape.cols < UInt64.size)
    (hLhs : s.HasShape l a.shape)
    (hRhs : s.HasShape r b.shape) :
    (s.emitTensor l r).2.Typed := by
  unfold Lowering.emitTensor
  rw [hLhs.recorded, hRhs.recorded]
  rw [BinaryOp.shape_apply hTensor] at hFits
  cases a with
  | scalar z => exact absurd hTensor refuse_ne_ok
  | vector v =>
      cases b with
      | scalar w => exact absurd hTensor refuse_ne_ok
      | matrix b => exact absurd hTensor refuse_ne_ok
      | vector w =>
          have hLength : Shape.wrap (v.size * w.size) =
              v.size * w.size := Nat.mod_eq_of_lt hFits.1
          refine hTyped.emit (hLhs.inside_pair hRhs) ?_
          change Operation.Typed s.shapeOf (.tensorProduct l r)
            (.vector (Shape.wrap (v.size * w.size)))
          rw [hLength]
          exact .vectorTensor hLhs.recorded hRhs.recorded
  | matrix a =>
      cases b with
      | scalar w => exact absurd hTensor refuse_ne_ok
      | vector w => exact absurd hTensor refuse_ne_ok
      | matrix b =>
          have hRows : Shape.wrap (a.rows * b.rows) =
              a.rows * b.rows := Nat.mod_eq_of_lt hFits.1
          have hCols : Shape.wrap (a.cols * b.cols) =
              a.cols * b.cols := Nat.mod_eq_of_lt hFits.2
          refine hTyped.emit (hLhs.inside_pair hRhs) ?_
          change Operation.Typed s.shapeOf (.tensorProduct l r)
            (.matrix (Shape.wrap (a.rows * b.rows))
              (Shape.wrap (a.cols * b.cols)))
          rw [hRows, hCols]
          exact .tensor hLhs.recorded hRhs.recorded

omit [Arithmetic R] in
theorem Typed.emitAnticommutator
    {n : Nat}
    (hTyped : s.Typed)
    (hLhs : s.HasShape l (.matrix n n))
    (hRhs : s.HasShape r (.matrix n n)) :
    (s.emitAnticommutator l r).2.Typed := by
  unfold Lowering.emitAnticommutator
  rw [hLhs.recorded]
  have hForth := hTyped.emit_product hLhs hRhs
  have hForthShape := hasShape_emit hTyped.aligned
    (.matrixMul l r) (.matrix n n)
  have hBack := hForth.emit_product
    (hRhs.emit hTyped.aligned (.matrixMul l r) (.matrix n n))
    (hLhs.emit hTyped.aligned (.matrixMul l r) (.matrix n n))
  exact hBack.emit_sum (hForthShape.emit hForth.aligned _ _)
    (hasShape_emit hForth.aligned _ _)

/- The nodes of an operation that is defined on two values are typed. -/
theorem Typed.emitBinary
    {op : BinaryOp}
    {a b v : Value R}
    (hTyped : s.Typed)
    (hPower : op ≠ .power)
    (hDivide : op ≠ .divide)
    (hApplied : op.apply a b = .ok v)
    (hFits : op = .tensor →
      v.shape.rows < UInt64.size ∧ v.shape.cols < UInt64.size)
    (hLhs : s.HasShape l a.shape)
    (hRhs : s.HasShape r b.shape) :
    (s.emitBinary op l r).2.Typed := by
  cases op with
  | power => exact absurd rfl hPower
  | divide => exact absurd rfl hDivide
  | add =>
      rw [← shape_eq_of_addMultiple hApplied] at hRhs
      have hSum := hTyped.emit_sum hLhs hRhs
      rw [← hLhs.recorded] at hSum
      exact hSum
  | subtract =>
      rw [← shape_eq_of_addMultiple hApplied] at hRhs
      exact hTyped.emitDifference hLhs hRhs
  | multiply => exact hTyped.emitProduct hApplied hLhs hRhs
  | tensor => exact hTyped.emitTensor hApplied (hFits rfl) hLhs hRhs
  | commutator =>
      rcases exists_square_of_commutator hApplied with ⟨n, hA, hB⟩
      rw [hA] at hLhs
      rw [hB] at hRhs
      have hOperation : (Operation.commutator l r : Operation R).Typed
          s.shapeOf (.matrix n n) :=
        .commutator hLhs.recorded hRhs.recorded
      rw [← hLhs.recorded] at hOperation
      exact hTyped.emit (hLhs.inside_pair hRhs) hOperation
  | anticommutator =>
      rcases exists_square_of_anticommutator hApplied with ⟨n, hA, hB⟩
      rw [hA] at hLhs
      rw [hB] at hRhs
      exact hTyped.emitAnticommutator hLhs hRhs

/- The node of an operation that is defined on a value is typed. -/
theorem Typed.emitUnary
    {op : UnaryOp}
    {a v : Value R}
    (hTyped : s.Typed)
    (hScalarFunction : op.isScalarFunction = false)
    (hNotScalar : op = .expm → a.shape ≠ .scalar)
    (hApplied : op.apply a = .ok v)
    (hOperand : s.HasShape id a.shape) :
    (s.emitUnary op id).2.Typed := by
  cases op with
  | dagger => exact hTyped.emit hOperand.inside_single (.dagger id)
  | trace =>
      rcases exists_square_of_trace hApplied with ⟨n, hA⟩
      exact hTyped.emit hOperand.inside_single
        (.trace (hOperand.recorded.trans hA))
  | expm =>
      rcases exists_square_of_exponential hApplied (hNotScalar rfl) with
        ⟨n, hA⟩
      rw [hA] at hOperand
      have hOperation : (Operation.matrixExp id : Operation R).Typed
          s.shapeOf (.matrix n n) :=
        .exponential hOperand.recorded
      rw [← hOperand.recorded] at hOperation
      exact hTyped.emit hOperand.inside_single hOperation
  | sqrt => cases hScalarFunction
  | sin => cases hScalarFunction
  | cos => cases hScalarFunction
  | exp => cases hScalarFunction

omit [Arithmetic R] in
/- The node of a quotient is a multiple. -/
theorem Typed.emitQuotient
    (hTyped : s.Typed)
    (factor : Scalar R)
    (hDividend : s.HasShape id shape) :
    (s.emitQuotient factor id).2.Typed := by
  have hFactor := hTyped.emitConstant "" (.scalar factor)
  have hFactorShape := hasShape_emit hTyped.aligned
    (.constant "" (.scalar factor)) .scalar
  have hLater := hDividend.emit hTyped.aligned
    (.constant "" (.scalar factor)) .scalar
  have hMultiple := hFactor.emit_multiple hFactorShape hLater
  rw [← hLater.recorded] at hMultiple
  exact hMultiple

end Lowering

end QuantumLab

------------------------------------------------------------
-- Nodes of expressions
------------------------------------------------------------

namespace QuantumLab

variable {R : Type} [Arithmetic R]

namespace Lowering

variable
  {s next : Lowering R}
  {m : Meaning R}
  {e : Expr R}

/-
  The nodes of an expression with a value are typed.  The
  shapes that are recorded for its parts are those of the
  values of the parts.
-/
theorem Lowers.typed
    {names : Environment R}
    {nodes : String → Option (Value R)}
    {id : NodeId}
    {v : Value R}
    (hLowers : Lowers s e id next)
    (hBinds : s.Binds True names nodes)
    (hValue : names.evaluate e = .ok v)
    (hFits : names.TensorsFit e)
    (hTyped : s.Typed) :
    next.Typed := by
  induction hLowers generalizing v with
  | constant _ _ => exact hTyped.emitConstant _ _
  | name hResolve => exact hTyped.resolve hResolve
  | @quotient s later lhs rhs w dividend _ _ hDividend ih =>
      unfold Environment.evaluate at hValue
      rcases bind_eq_ok_iff.1 hValue with ⟨a, hLhs, _⟩
      have hFitsLhs := hFits.operands.1
      have hLater := ih hBinds hLhs hFitsLhs hTyped
      rcases hDividend.spec hBinds hLhs fun _ => hFitsLhs with
        ⟨_, _, hYields⟩
      exact hLater.emitQuotient _ hYields.hasShape
  | @binary s first second op lhs rhs l r hPower hDivide hL hR ihL ihR =>
      have hExtents := hFits.extents hValue
      unfold Environment.evaluate at hValue
      rcases bind_eq_ok_iff.1 hValue with ⟨a, hLhs, hRest⟩
      rcases bind_eq_ok_iff.1 hRest with ⟨b, hRhs, hApplied⟩
      rcases hFits.operands with ⟨hFitsLhs, hFitsRhs⟩
      rcases hL.spec hBinds hLhs fun _ => hFitsLhs with
        ⟨_, hBindsFirst, hYieldsLhs⟩
      rcases hR.spec hBindsFirst hRhs fun _ => hFitsRhs with
        ⟨hAppends, _, hYieldsRhs⟩
      have hFirst := ihL hBinds hLhs hFitsLhs hTyped
      have hSecond := ihR hBindsFirst hRhs hFitsRhs hFirst
      have hShape := hYieldsLhs.hasShape.later hFirst.aligned
        hAppends.toGrows
      exact hSecond.emitBinary hPower hDivide hApplied hExtents hShape
        hYieldsRhs.hasShape
  | @unary s later op operand id hScalarFunction hShape hOperand ih =>
      unfold Environment.evaluate at hValue
      rcases bind_eq_ok_iff.1 hValue with ⟨a, hA, hApplied⟩
      have hLater := ih hBinds hA hFits hTyped
      rcases hOperand.spec hBinds hA fun _ => hFits with
        ⟨_, _, hYields⟩
      refine hLater.emitUnary hScalarFunction ?_ hApplied
        hYields.hasShape
      intro hExp hScalar
      have hRecorded := hYields.recorded.scalar_iff.2 hScalar
      rw [hShape hExp] at hRecorded
      cases hRecorded
  | scalarExponential _ _ _ ih =>
      unfold Environment.evaluate at hValue
      rcases bind_eq_ok_iff.1 hValue with ⟨a, hA, _⟩
      exact (ih hBinds hA hFits hTyped).emitConstant _ _

end Lowering

end QuantumLab

------------------------------------------------------------
-- Nodes of statements
------------------------------------------------------------

namespace QuantumLab

variable {R : Type} [Arithmetic R]

namespace Lowering

variable
  {s next : Lowering R}
  {m : Meaning R}
  {e : Expr R}

omit [Arithmetic R] in
/- The value of a definition is loaded by a typed node. -/
theorem typed_loaded
    (hTyped : s.Typed)
    (name : String)
    (value : Value R) :
    (((s.define name value).emitConstant name value).2.bind name
      ((s.define name value).emitConstant name value).1).Typed := by
  have hDefined : (s.define name value).Typed := hTyped.of_eq rfl rfl
  exact (hDefined.emitConstant name value).of_eq rfl rfl

/- The nodes of a definition are typed. -/
theorem typed_lowered
    {name : String}
    {value : Value R}
    {id : NodeId}
    (hFollows : s.Follows True m)
    (hTyped : s.Typed)
    (hValue : m.names.evaluate e = .ok value)
    (hFits : m.names.TensorsFit e)
    (hLower : (s.define name value).lower e = .ok (id, next)) :
    (next.bind name id).Typed := by
  have hDefined : (s.define name value).Typed := hTyped.of_eq rfl rfl
  have hLowered := (lowers_of_lower hLower).typed
    (hFollows.binds.define name value) hValue hFits hDefined
  exact hLowered.of_eq rfl rfl

/- Loaded values and the nodes of names are typed. -/
theorem Typed.loads
    (hTyped : s.Typed)
    (hLoads : s.Loads next) :
    next.Typed := by
  induction hLoads with
  | done s => exact hTyped
  | value name value _ ih => exact ih (hTyped.emitConstant name value)
  | name hResolve _ ih => exact ih (hTyped.resolve hResolve)

/- Every statement keeps the nodes typed. -/
theorem typed_addStatement
    {d : Statement R}
    (hFollows : s.Follows True m)
    (hTyped : s.Typed)
    (hFits : m.names.StatementFits d)
    (hAdd : s.addStatement d = .ok next) :
    next.Typed := by
  cases adds_of_addStatement hAdd with
  | symbol _ _ => exact hTyped.of_eq rfl rfl
  | undefined _ _ => exact hTyped.of_eq rfl rfl
  | loaded _ _ _ => exact typed_loaded hTyped _ _
  | @lowered d e value id later hDefinition _ hValue hLower =>
      rw [hFollows.environment] at hValue
      refine typed_lowered hFollows hTyped hValue ?_ hLower
      exact hFits e (Statement.mem_evaluated_of_definition hDefinition)
  | measurement hMeasurement =>
      rcases loads_addMeasurement hMeasurement with
        ⟨last, ids, hLoads, rfl⟩
      exact (hTyped.loads hLoads).of_eq rfl rfl
  | experiment hExperiment =>
      rcases loads_addExperiment hExperiment with
        ⟨last, planned, hLoads, rfl⟩
      exact (hTyped.loads hLoads).of_eq rfl rfl

end Lowering

end QuantumLab
