import QuantumLab.Proofs.Execution.Memoization
import QuantumLab.Proofs.Lowering.Planned

/-
  This file says what the nodes compute that a lowering adds
  for the operations of expressions.

  Key definitions include:
    * `Plan.value?`
    * `Shape.Agrees`
    * `Lowering.Yields`
    * `Lowering.Emits`

  Main statements:
    * `Lowering.emits_binary`, `Lowering.emits_quotient` and
      `Lowering.emits_unary` say what the nodes of an
      operation compute from those of its operands.
-/

------------------------------------------------------------
-- Values of nodes
------------------------------------------------------------

namespace QuantumLab

variable {R : Type} [Arithmetic R]

/- The value of a node, if it has one. -/
def Plan.value? (plan : Plan R) (id : NodeId) : Option (Value R) :=
  (plan.denote id).toOption

theorem Plan.evaluatesTo_iff_value?
    {plan : Plan R}
    {id : NodeId}
    {value : Value R} :
    plan.EvaluatesTo id value ↔ plan.value? id = some value := by
  rw [evaluatesTo_iff, value?, toOption_eq_some_iff]

/- A node has one value. -/
theorem Plan.EvaluatesTo.unique
    {plan : Plan R}
    {id : NodeId}
    {v w : Value R}
    (hFirst : plan.EvaluatesTo id v)
    (hSecond : plan.EvaluatesTo id w) :
    v = w := by
  rw [evaluatesTo_iff_value?] at hFirst hSecond
  exact Option.some.inj (hFirst.symm.trans hSecond)

namespace Operands

variable {values : Operands R} {node operand : NodeId}

omit [Arithmetic R] in
theorem toOption_matrix :
    (values.matrix node operand).toOption =
      (values operand).toOption.bind Value.matrix? := by
  rw [matrix, toOption_bind]
  cases (values operand).toOption with
  | none => rfl
  | some value =>
      cases value with
      | scalar z => rfl
      | vector v => rfl
      | matrix a => rfl

omit [Arithmetic R] in
theorem toOption_scalar :
    (values.scalar node operand).toOption =
      (values operand).toOption.bind Value.scalar? := by
  rw [scalar, toOption_bind]
  cases (values operand).toOption with
  | none => rfl
  | some value =>
      cases value with
      | scalar z => rfl
      | vector v => rfl
      | matrix a => rfl

end Operands

/- The node that adds does not matter for the sum. -/
theorem Operation.toOption_computeSum
    (node : NodeId)
    (a b : Value R) :
    (computeSum node a b).toOption = (computeSum 0 a b).toOption := by
  cases a <;> cases b <;> rfl

end QuantumLab

------------------------------------------------------------
-- Nodes that stand for quantities
------------------------------------------------------------

namespace QuantumLab

/- The kind of the values of a shape. -/
def Shape.kind : Shape → ValueKind
  | .scalar => .scalar
  | .vector _ => .vector
  | .matrix _ _ => .matrix

theorem Value.kind_shape
    {R : Type}
    (v : Value R) :
    v.shape.kind = v.kind := by
  cases v with
  | scalar z => rfl
  | vector v => rfl
  | matrix a => rfl

/-
  A recorded shape is of the kind of another shape, and the
  same if the records are exact.
-/
structure Shape.Agrees
    (exact : Prop)
    (recorded actual : Shape) : Prop where
  kind : recorded.kind = actual.kind
  same : exact → recorded = actual

theorem Shape.Agrees.of_eq
    {exact : Prop}
    {recorded actual : Shape}
    (hSame : recorded = actual) :
    recorded.Agrees exact actual :=
  ⟨hSame ▸ rfl, fun _ => hSame⟩

theorem Shape.Agrees.scalar_iff
    {exact : Prop}
    {recorded actual : Shape}
    (hAgrees : recorded.Agrees exact actual) :
    recorded.isScalar = true ↔ actual = .scalar := by
  have hKind := hAgrees.kind
  cases recorded <;> cases actual <;>
    simp [Shape.kind, Shape.isScalar] at hKind ⊢

theorem Shape.Agrees.vector_iff
    {exact : Prop}
    {recorded actual : Shape}
    (hAgrees : recorded.Agrees exact actual) :
    recorded.isVector = true ↔ ∃ n, actual = .vector n := by
  have hKind := hAgrees.kind
  cases recorded <;> cases actual <;>
    simp [Shape.kind, Shape.isVector] at hKind ⊢

variable {R : Type} [Arithmetic R]

namespace Lowering

/-
  A node stands for a quantity of a shape and computes a
  value of that shape, if any.
-/
structure Yields
    (s : Lowering R)
    (exact : Prop)
    (id : NodeId)
    (shape : Shape)
    (value? : Option (Value R)) : Prop where
  inside : id < s.plan.size
  recorded : (s.shapeOf id).Agrees exact shape
  value : s.plan.value? id = value?
  fits : ∀ w, value? = some w → w.shape = shape

/- Nodes still stand for their quantities when others are added. -/
theorem Yields.later
    {s later : Lowering R}
    {exact : Prop}
    {id : NodeId}
    {shape : Shape}
    {value? : Option (Value R)}
    (hYields : s.Yields exact id shape value?)
    (hAligned : s.Aligned)
    (hGrows : s.Grows later) :
    later.Yields exact id shape value? where
  inside := Nat.lt_of_lt_of_le hYields.inside hGrows.size_le
  recorded := by
    have hInside : id < s.shapes.size := hAligned ▸ hYields.inside
    rw [hGrows.shapeOf_eq hInside]
    exact hYields.recorded
  value := by
    rw [Plan.value?, hGrows.denote_eq hYields.inside]
    exact hYields.value
  fits := hYields.fits

/-
  Nodes are added, and the last of them stands for a
  quantity.
-/
structure Emits
    (s : Lowering R)
    (exact : Prop)
    (emitted : NodeId × Lowering R)
    (shape : Shape)
    (value? : Option (Value R)) : Prop where
  appends : s.Appends emitted.2
  aligned : emitted.2.Aligned
  symbols : emitted.2.symbols = s.symbols
  symbolic : emitted.2.symbolic = s.symbolic
  yields : emitted.2.Yields exact emitted.1 shape value?

/- Nodes may be added one after another. -/
theorem Emits.trans
    {s : Lowering R}
    {exact : Prop}
    {first last : NodeId × Lowering R}
    {shape shape' : Shape}
    {value? value?' : Option (Value R)}
    (hFirst : s.Emits exact first shape value?)
    (hLast : first.2.Emits exact last shape' value?') :
    s.Emits exact last shape' value?' where
  appends := hFirst.appends.trans hLast.appends
  aligned := hLast.aligned
  symbols := hLast.symbols.trans hFirst.symbols
  symbolic := hLast.symbolic.trans hFirst.symbolic
  yields := hLast.yields

/- A node computes what its operation gives on the nodes before it. -/
theorem emits_emit
    {s : Lowering R}
    {exact : Prop}
    {operation : Operation R}
    {shape actual : Shape}
    {value? : Option (Value R)}
    (hAligned : s.Aligned)
    (hInside : ∀ operand ∈ operation.operands,
      operand < s.plan.size)
    (hShape : shape.Agrees exact actual)
    (hValue : (operation.compute s.plan.denote s.plan.size).toOption =
      value?)
    (hFits : ∀ w, value? = some w → w.shape = actual) :
    s.Emits exact (s.emit operation shape) actual value? where
  appends := s.appends_emit operation shape
  aligned := hAligned.emit operation shape
  symbols := rfl
  symbolic := rfl
  yields := by
    have hSame :
        (s.emit operation shape).2.plan.denote s.plan.size =
          operation.compute s.plan.denote s.plan.size := by
      rw [Plan.denote_eq_compute (s.operation?_emit operation shape)
        hInside]
      exact Operation.compute_congr fun operand hOperand =>
        (s.appends_emit operation shape).denote_eq
          (hInside operand hOperand)
    constructor
    · rw [size_emit, emit_fst]
      exact Nat.lt_succ_self _
    · rw [emit_fst, shapeOf_emit hAligned]
      exact hShape
    · rw [emit_fst, Plan.value?, hSame]
      exact hValue
    · exact hFits

theorem emits_constant
    {s : Lowering R}
    (exact : Prop)
    (hAligned : s.Aligned)
    (name : String)
    (value : Value R) :
    s.Emits exact (s.emitConstant name value) value.shape
      (some value) := by
  refine emits_emit hAligned ?_ (.of_eq rfl) ?_ ?_
  · cases value <;> simp [Operation.constant, Operation.operands]
  · cases value <;> rfl
  · intro w hw
    rw [Option.some.inj hw]

end Lowering

end QuantumLab

------------------------------------------------------------
-- Operations on two nodes
------------------------------------------------------------

namespace QuantumLab

variable {R : Type} [Arithmetic R]

namespace Lowering

variable
  {s : Lowering R}
  {exact : Prop}
  {l r : NodeId}
  {shape shape' : Shape}
  {a? b? : Option (Value R)}

/- The nodes of two operands are there. -/
theorem inside_of_yields
    (hLhs : s.Yields exact l shape a?)
    (hRhs : s.Yields exact r shape' b?) :
    ∀ operand ∈ [l, r], operand < s.plan.size := by
  intro operand hOperand
  simp only [List.mem_cons, List.not_mem_nil, or_false] at hOperand
  rcases hOperand with rfl | rfl
  · exact hLhs.inside
  · exact hRhs.inside

/- The result of an operation on what two nodes compute. -/
def combined
    (op : BinaryOp)
    (a? b? : Option (Value R)) : Option (Value R) :=
  a?.bind fun a => b?.bind fun b => op.combine a b

theorem shape_combined
    {op : BinaryOp}
    (hLhs : s.Yields exact l shape a?)
    (hRhs : s.Yields exact r shape' b?) :
    ∀ w, combined op a? b? = some w →
      w.shape = op.resultShape shape shape' := by
  intro w hw
  rcases Option.bind_eq_some_iff.1 hw with ⟨a, hA, hRest⟩
  rcases Option.bind_eq_some_iff.1 hRest with ⟨b, hB, hCombined⟩
  rw [BinaryOp.shape_combine hCombined, hLhs.fits a hA, hRhs.fits b hB]

theorem toOption_sum
    (hLhs : s.Yields exact l shape a?)
    (hRhs : s.Yields exact r shape' b?)
    (node : NodeId) :
    ((Operation.matrixAdd l r).compute s.plan.denote node).toOption =
      a?.bind fun a => b?.bind fun b =>
        (Operation.computeSum 0 a b).toOption := by
  rw [← hLhs.value, ← hRhs.value, Operation.compute]
  simp only [toOption_bind, Plan.value?, Operation.toOption_computeSum]

theorem toOption_multiple
    (hLhs : s.Yields exact l shape a?)
    (hRhs : s.Yields exact r shape' b?)
    (node : NodeId) :
    ((Operation.scalarMul l r).compute s.plan.denote node).toOption =
      (a?.bind Value.scalar?).bind fun z =>
        b?.bind fun b => some (b.scale z) := by
  rw [← hLhs.value, ← hRhs.value, Operation.compute]
  simp only [toOption_bind, Operands.toOption_scalar, Plan.value?,
    toOption_pure]

theorem toOption_product
    (hLhs : s.Yields exact l shape a?)
    (hRhs : s.Yields exact r shape' b?)
    (node : NodeId) :
    ((Operation.matrixMul l r).compute s.plan.denote node).toOption =
      (a?.bind Value.matrix?).bind fun a =>
        b?.bind fun b =>
          (Operation.computeProduct node r a b).toOption := by
  rw [← hLhs.value, ← hRhs.value, Operation.compute]
  simp only [toOption_bind, Operands.toOption_matrix, Plan.value?]

theorem emits_sum
    {recorded : Shape}
    (hAligned : s.Aligned)
    (hLhs : s.Yields exact l shape a?)
    (hRhs : s.Yields exact r shape' b?)
    (hRecorded : recorded.Agrees exact shape) :
    s.Emits exact (s.emit (.matrixAdd l r) recorded) shape
      (combined .add a? b?) := by
  refine emits_emit hAligned (inside_of_yields hLhs hRhs)
    hRecorded ?_ (shape_combined hLhs hRhs)
  rw [toOption_sum hLhs hRhs]
  rfl

/- A multiple of a node by a constant. -/
theorem emits_multiple
    {recorded : Shape}
    {z : Scalar R}
    (hAligned : s.Aligned)
    (hFactor : s.Yields exact l .scalar (some (.scalar z)))
    (hRhs : s.Yields exact r shape' b?)
    (hRecorded : recorded.Agrees exact shape') :
    s.Emits exact (s.emit (.scalarMul l r) recorded) shape'
      (b?.map (Value.scale z)) := by
  refine emits_emit hAligned (inside_of_yields hFactor hRhs)
    hRecorded ?_ ?_
  · rw [toOption_multiple hFactor hRhs]
    cases b? with
    | none => rfl
    | some b => rfl
  · intro w hw
    rcases Option.map_eq_some_iff.1 hw with ⟨b, hB, rfl⟩
    rw [Value.shape_scale, hRhs.fits b hB]

/- Adding the negated value subtracts. -/
theorem combine_subtract (a b : Value R) :
    BinaryOp.add.combine a (b.scale (Scalar.ofReal (-(1.0 : R)))) =
      BinaryOp.subtract.combine a b := by
  cases a <;> cases b <;>
    simp [BinaryOp.combine, Operation.computeSum, Value.scale,
      BinaryOp.apply, addMultiple, BinaryOp.mismatch]

theorem emits_difference
    (hAligned : s.Aligned)
    (hLhs : s.Yields exact l shape a?)
    (hRhs : s.Yields exact r shape' b?) :
    s.Emits exact (s.emitDifference l r) shape
      (combined .subtract a? b?) := by
  have hFactor := emits_constant exact hAligned ""
    (.scalar (Scalar.ofReal (-(1.0 : R))))
  have hNegated := hFactor.trans (emits_multiple hFactor.aligned
    hFactor.yields (hRhs.later hAligned hFactor.appends.toGrows)
    hRhs.recorded)
  have hSum := hNegated.trans (emits_sum hNegated.aligned
    (hLhs.later hAligned hNegated.appends.toGrows) hNegated.yields
    hLhs.recorded)
  have hSame :
      combined .add a? (b?.map
        (Value.scale (Scalar.ofReal (-(1.0 : R))))) =
      combined .subtract a? b? := by
    cases a? with
    | none => rfl
    | some a =>
        cases b? with
        | none => rfl
        | some b => exact combine_subtract a b
  rw [hSame] at hSum
  exact hSum

/- A scalar in front multiplies what follows. -/
theorem combine_scalar_left
    (hLhs : s.Yields exact l .scalar a?)
    (b? : Option (Value R)) :
    ((a?.bind Value.scalar?).bind fun z =>
      b?.bind fun b => some (b.scale z)) =
        combined .multiply a? b? := by
  cases a? with
  | none => rfl
  | some a =>
      cases a with
      | scalar z => rfl
      | vector v => cases hLhs.fits _ rfl
      | matrix a => cases hLhs.fits _ rfl

/- A scalar behind multiplies what stands in front. -/
theorem combine_scalar_right
    (hNotScalar : shape ≠ .scalar)
    (hLhs : s.Yields exact l shape a?)
    (hRhs : s.Yields exact r .scalar b?) :
    ((b?.bind Value.scalar?).bind fun z =>
      a?.bind fun a => some (a.scale z)) =
        combined .multiply a? b? := by
  cases b? with
  | none =>
      cases a? with
      | none => rfl
      | some a => rfl
  | some b =>
      cases b with
      | vector v => cases hRhs.fits _ rfl
      | matrix a => cases hRhs.fits _ rfl
      | scalar w =>
          cases a? with
          | none => rfl
          | some a =>
              cases a with
              | scalar z => exact absurd (hLhs.fits _ rfl).symm hNotScalar
              | vector v => rfl
              | matrix a => rfl

/- A matrix is multiplied with a matrix or a vector. -/
theorem combine_matrix
    (hLhsShape : shape ≠ .scalar)
    (hRhsShape : shape' ≠ .scalar)
    (hLhs : s.Yields exact l shape a?)
    (hRhs : s.Yields exact r shape' b?)
    (node operand : NodeId) :
    ((a?.bind Value.matrix?).bind fun a =>
      b?.bind fun b =>
        (Operation.computeProduct node operand a b).toOption) =
          combined .multiply a? b? := by
  cases a? with
  | none => rfl
  | some a =>
      cases b? with
      | none =>
          cases a with
          | scalar z => rfl
          | vector v => rfl
          | matrix a => rfl
      | some b =>
          have hNotScalar : ∀ z, b ≠ .scalar z := by
            intro z hScalar
            exact hRhsShape (hRhs.fits b rfl ▸ hScalar ▸ rfl)
          cases a with
          | scalar z => exact absurd (hLhs.fits _ rfl).symm hLhsShape
          | vector v =>
              cases b with
              | scalar w => exact absurd rfl (hNotScalar w)
              | vector w => rfl
              | matrix b => rfl
          | matrix a =>
              cases b with
              | scalar w => exact absurd rfl (hNotScalar w)
              | vector w => rfl
              | matrix b => rfl

/- The recorded shape of a product of a matrix and a vector or matrix. -/
theorem agrees_product
    {a b v : Value R}
    {lhs rhs : Shape}
    (hProduct : multiplyValues a b = .ok v)
    (hLhsShape : a.shape ≠ .scalar)
    (hRhsShape : b.shape ≠ .scalar)
    (hLhs : lhs.Agrees exact a.shape)
    (hRhs : rhs.Agrees exact b.shape) :
    (if rhs.isVector then Shape.vector lhs.rows
      else Shape.matrix lhs.rows rhs.cols).Agrees exact
        (BinaryOp.multiply.resultShape a.shape b.shape) := by
  cases a with
  | scalar z => exact absurd rfl hLhsShape
  | vector v =>
      cases b with
      | scalar w => exact absurd rfl hRhsShape
      | vector w => exact absurd hProduct refuse_ne_ok
      | matrix b => exact absurd hProduct refuse_ne_ok
  | matrix a =>
      cases b with
      | scalar w => exact absurd rfl hRhsShape
      | vector w =>
          rw [if_pos (hRhs.vector_iff.2 ⟨w.size, rfl⟩)]
          refine ⟨rfl, fun hExact => ?_⟩
          rw [hLhs.same hExact]
          rfl
      | matrix b =>
          have hNotVector : ¬ rhs.isVector = true := by
            rw [hRhs.vector_iff]
            rintro ⟨n, hVector⟩
            cases hVector
          rw [if_neg hNotVector]
          refine ⟨rfl, fun hExact => ?_⟩
          rw [hLhs.same hExact, hRhs.same hExact]
          rfl

theorem emits_product
    {a b v : Value R}
    (hAligned : s.Aligned)
    (hProduct : multiplyValues a b = .ok v)
    (hLhs : s.Yields exact l a.shape a?)
    (hRhs : s.Yields exact r b.shape b?) :
    s.Emits exact (s.emitProduct l r)
      (BinaryOp.multiply.resultShape a.shape b.shape)
      (combined .multiply a? b?) := by
  rw [emitProduct]
  by_cases hLhsScalar : a.shape = .scalar
  · rw [if_pos (hLhs.recorded.scalar_iff.2 hLhsScalar)]
    rw [hLhsScalar] at hLhs ⊢
    refine emits_emit hAligned (inside_of_yields hLhs hRhs)
      hRhs.recorded ?_ (shape_combined hLhs hRhs)
    rw [toOption_multiple hLhs hRhs, combine_scalar_left hLhs]
  · have hLhsRecorded : ¬ (s.shapeOf l).isScalar = true := by
      rwa [hLhs.recorded.scalar_iff]
    rw [if_neg hLhsRecorded]
    by_cases hRhsScalar : b.shape = .scalar
    · rw [if_pos (hRhs.recorded.scalar_iff.2 hRhsScalar)]
      rw [hRhsScalar] at hRhs ⊢
      have hShape :
          BinaryOp.multiply.resultShape a.shape .scalar = a.shape := by
        cases a <;> rfl
      refine emits_emit hAligned (inside_of_yields hRhs hLhs)
        (by rw [hShape]; exact hLhs.recorded) ?_
        (shape_combined hLhs hRhs)
      rw [toOption_multiple hRhs hLhs,
        combine_scalar_right hLhsScalar hLhs hRhs]
    · have hRhsRecorded : ¬ (s.shapeOf r).isScalar = true := by
        rwa [hRhs.recorded.scalar_iff]
      rw [if_neg hRhsRecorded]
      have hAgrees := agrees_product hProduct hLhsScalar hRhsScalar
        hLhs.recorded hRhs.recorded
      have hComputes :
          ((Operation.matrixMul l r).compute s.plan.denote
            s.plan.size).toOption = combined .multiply a? b? := by
        rw [toOption_product hLhs hRhs,
          combine_matrix hLhsScalar hRhsScalar hLhs hRhs]
      by_cases hVector : (s.shapeOf r).isVector = true
      · rw [if_pos hVector] at hAgrees ⊢
        exact emits_emit hAligned (inside_of_yields hLhs hRhs) hAgrees
          hComputes (shape_combined hLhs hRhs)
      · rw [if_neg hVector] at hAgrees ⊢
        exact emits_emit hAligned (inside_of_yields hLhs hRhs) hAgrees
          hComputes (shape_combined hLhs hRhs)

/- The recorded shape of a Kronecker product, whose extents are wrapped. -/
theorem agrees_tensor
    {a b v : Value R}
    {lhs rhs : Shape}
    (hTensor : BinaryOp.tensor.apply a b = .ok v)
    (hFits : exact →
      v.shape.rows < UInt64.size ∧ v.shape.cols < UInt64.size)
    (hLhs : lhs.Agrees exact a.shape)
    (hRhs : rhs.Agrees exact b.shape) :
    (if lhs.isVector then
        Shape.vector (Shape.wrap (lhs.rows * rhs.rows))
      else
        Shape.matrix (Shape.wrap (lhs.rows * rhs.rows))
          (Shape.wrap (lhs.cols * rhs.cols))).Agrees exact v.shape := by
  have hShape := BinaryOp.shape_apply hTensor
  cases a <;> cases b <;>
    simp [BinaryOp.apply, BinaryOp.mismatch] at hTensor
  case vector.vector v w =>
    rw [if_pos (hLhs.vector_iff.2 ⟨v.size, rfl⟩)]
    refine ⟨by rw [hShape]; rfl, fun hExact => ?_⟩
    have hRows := (hFits hExact).1
    rw [hShape] at hRows ⊢
    rw [hLhs.same hExact, hRhs.same hExact]
    exact congrArg Shape.vector (Nat.mod_eq_of_lt hRows)
  case matrix.matrix a b =>
    have hNotVector : ¬ lhs.isVector = true := by
      rw [hLhs.vector_iff]
      rintro ⟨n, hVector⟩
      cases hVector
    rw [if_neg hNotVector]
    refine ⟨by rw [hShape]; rfl, fun hExact => ?_⟩
    have hExtents := hFits hExact
    rw [hShape] at hExtents ⊢
    rw [hLhs.same hExact, hRhs.same hExact]
    exact congrArg₂ Shape.matrix (Nat.mod_eq_of_lt hExtents.1)
      (Nat.mod_eq_of_lt hExtents.2)

theorem emits_tensor
    {a b v : Value R}
    (hAligned : s.Aligned)
    (hTensor : BinaryOp.tensor.apply a b = .ok v)
    (hFits : exact →
      v.shape.rows < UInt64.size ∧ v.shape.cols < UInt64.size)
    (hLhs : s.Yields exact l a.shape a?)
    (hRhs : s.Yields exact r b.shape b?) :
    s.Emits exact (s.emitTensor l r) v.shape
      (combined .tensor a? b?) := by
  refine emits_emit hAligned (inside_of_yields hLhs hRhs)
    (agrees_tensor hTensor hFits hLhs.recorded hRhs.recorded) ?_ ?_
  · rw [← hLhs.value, ← hRhs.value, Operation.compute, combined]
    simp only [toOption_bind, Plan.value?]
    congr 1
    funext a
    congr 1
    funext b
    cases a <;> cases b <;> rfl
  · intro w hw
    rw [BinaryOp.shape_apply hTensor]
    exact shape_combined hLhs hRhs w hw

theorem emits_commutator
    {recorded : Shape}
    (hAligned : s.Aligned)
    (hLhs : s.Yields exact l shape a?)
    (hRhs : s.Yields exact r shape' b?)
    (hRecorded : recorded.Agrees exact shape) :
    s.Emits exact (s.emit (.commutator l r) recorded) shape
      (combined .commutator a? b?) := by
  refine emits_emit hAligned (inside_of_yields hLhs hRhs) hRecorded ?_
    (shape_combined hLhs hRhs)
  rw [Operation.compute]
  simp only [toOption_bind, Operands.toOption_matrix]
  have hA : (s.plan.denote l).toOption = a? := hLhs.value
  have hB : (s.plan.denote r).toOption = b? := hRhs.value
  rw [hA, hB]
  cases a? with
  | none => rfl
  | some a =>
      cases b? with
      | none => cases a <;> rfl
      | some b => cases a <;> cases b <;> rfl

/- A node that multiplies a matrix with a matrix of its extents. -/
theorem emits_matrixProduct
    {n : Nat}
    {recorded : Shape}
    (hAligned : s.Aligned)
    (hLhs : s.Yields exact l (.matrix n n) a?)
    (hRhs : s.Yields exact r (.matrix n n) b?)
    (hRecorded : recorded.Agrees exact (.matrix n n)) :
    s.Emits exact (s.emit (.matrixMul l r) recorded) (.matrix n n)
      (combined .multiply a? b?) := by
  refine emits_emit hAligned (inside_of_yields hLhs hRhs) hRecorded ?_
    (shape_combined hLhs hRhs)
  rw [toOption_product hLhs hRhs,
    combine_matrix (by simp) (by simp) hLhs hRhs]

/- The sum of both products is the anticommutator. -/
theorem combine_anticommutator
    {n : Nat}
    (hLhs : s.Yields exact l (.matrix n n) a?)
    (hRhs : s.Yields exact r (.matrix n n) b?) :
    combined .add (combined .multiply a? b?)
        (combined .multiply b? a?) =
      combined .anticommutator a? b? := by
  cases a? with
  | none => rfl
  | some a =>
      cases b? with
      | none => rfl
      | some b =>
          have hA := hLhs.fits a rfl
          have hB := hRhs.fits b rfl
          cases a with
          | scalar z => cases hA
          | vector v => cases hA
          | matrix a =>
              cases b with
              | scalar w => cases hB
              | vector w => cases hB
              | matrix b =>
                  rcases Shape.matrix.inj hA with ⟨hARows, hACols⟩
                  rcases Shape.matrix.inj hB with ⟨hBRows, hBCols⟩
                  have hShape : a.shape = b.shape := by
                    rw [Mat.shape, Mat.shape, hARows, hACols, hBRows,
                      hBCols]
                  have hForth : Guarded.product a b = .ok (a * b) :=
                    Guarded.product_eq_ok_iff.2
                      ⟨hACols.trans hBRows.symm, rfl⟩
                  have hBack : Guarded.product b a = .ok (b * a) :=
                    Guarded.product_eq_ok_iff.2
                      ⟨hBCols.trans hARows.symm, rfl⟩
                  have hProducts : (a * b).shape = (b * a).shape := by
                    rw [Mat.shape_mul, Mat.shape_mul, hARows, hACols,
                      hBRows, hBCols]
                  have hSum : Guarded.sum (a * b) (b * a) =
                      .ok (a * b + b * a) :=
                    Guarded.sum_eq_ok_iff.2 ⟨hProducts, rfl⟩
                  have hAnti : Guarded.anticommutator a b =
                      .ok (a.anticommutator b) :=
                    Guarded.anticommutator_eq_ok_iff.2
                      ⟨⟨hARows.trans hACols.symm, hShape⟩, rfl⟩
                  simp [combined, BinaryOp.combine, BinaryOp.apply,
                    multiplyValues, Operation.computeSum, hForth, hBack,
                    hSum, hAnti, Mat.anticommutator]

theorem emits_anticommutator
    {n : Nat}
    (hAligned : s.Aligned)
    (hLhs : s.Yields exact l (.matrix n n) a?)
    (hRhs : s.Yields exact r (.matrix n n) b?) :
    s.Emits exact (s.emitAnticommutator l r) (.matrix n n)
      (combined .anticommutator a? b?) := by
  have hForth := emits_matrixProduct hAligned hLhs hRhs hLhs.recorded
  have hBack := emits_matrixProduct hForth.aligned
    (hRhs.later hAligned hForth.appends.toGrows)
    (hLhs.later hAligned hForth.appends.toGrows) hLhs.recorded
  have hSum := (hForth.trans hBack).trans (emits_sum hBack.aligned
    (hForth.yields.later hForth.aligned hBack.appends.toGrows) hBack.yields
    hLhs.recorded)
  rw [combine_anticommutator hLhs hRhs] at hSum
  exact hSum

/-
  The nodes of an operation on two nodes combine what those
  compute, if the operation is defined on their shapes.
-/
theorem emits_binary
    {op : BinaryOp}
    {a b v : Value R}
    (hPower : op ≠ .power)
    (hDivide : op ≠ .divide)
    (hApplied : op.apply a b = .ok v)
    (hFits : exact → op = .tensor →
      v.shape.rows < UInt64.size ∧ v.shape.cols < UInt64.size)
    (hAligned : s.Aligned)
    (hLhs : s.Yields exact l a.shape a?)
    (hRhs : s.Yields exact r b.shape b?) :
    s.Emits exact (s.emitBinary op l r) v.shape
      (combined op a? b?) := by
  have hShape := BinaryOp.shape_apply hApplied
  cases op with
  | power => exact absurd rfl hPower
  | divide => exact absurd rfl hDivide
  | tensor =>
      exact emits_tensor hAligned hApplied (fun h => hFits h rfl)
        hLhs hRhs
  | add =>
      rw [hShape]
      exact emits_sum hAligned hLhs hRhs hLhs.recorded
  | subtract =>
      rw [hShape]
      exact emits_difference hAligned hLhs hRhs
  | multiply =>
      rw [hShape]
      exact emits_product hAligned hApplied hLhs hRhs
  | commutator =>
      rw [hShape]
      exact emits_commutator hAligned hLhs hRhs hLhs.recorded
  | anticommutator =>
      rw [hShape]
      cases a <;> cases b <;>
        simp [BinaryOp.apply, BinaryOp.mismatch, map_eq_ok_iff,
          Guarded.anticommutator_eq_ok_iff] at hApplied
      rename_i a b
      rcases hApplied with ⟨⟨hSquare, hSame⟩, _⟩
      have hA : a.shape = .matrix a.rows a.rows := by
        rw [Mat.shape, ← hSquare]
      have hB : b.shape = .matrix a.rows a.rows := by
        rw [← hSame, hA]
      simp only [Value.shape, hA] at hLhs ⊢
      simp only [Value.shape, hB] at hRhs
      exact emits_anticommutator hAligned hLhs hRhs

end Lowering

end QuantumLab

------------------------------------------------------------
-- Operations on one node
------------------------------------------------------------

namespace QuantumLab

variable {R : Type} [Arithmetic R]

namespace Lowering

variable
  {s : Lowering R}
  {exact : Prop}
  {id : NodeId}
  {shape : Shape}
  {a? : Option (Value R)}

theorem emits_quotient
    {w : Scalar R}
    (hAligned : s.Aligned)
    (hNonzero : w.isZero = false)
    (hDividend : s.Yields exact id shape a?) :
    s.Emits exact (s.emitQuotient (Scalar.one / w) id) shape
      (a?.bind fun a =>
        (BinaryOp.divide.apply a (.scalar w)).toOption) := by
  have hFactor :=
    emits_constant exact hAligned "" (.scalar (Scalar.one / w))
  have hLater := hDividend.later hAligned hFactor.appends.toGrows
  have hMultiple := hFactor.trans (emits_multiple hFactor.aligned
    hFactor.yields hLater hLater.recorded)
  have hSame :
      a?.map (Value.scale (Scalar.one / w)) =
        a?.bind fun a =>
          (BinaryOp.divide.apply a (.scalar w)).toOption := by
    cases a? with
    | none => rfl
    | some a =>
        simp [BinaryOp.apply, divideValue, hNonzero]
  rw [hSame] at hMultiple
  exact hMultiple

/- The one operand of a node is there. -/
theorem inside_of_yields_single
    (hOperand : s.Yields exact id shape a?) :
    ∀ operand ∈ [id], operand < s.plan.size := by
  intro operand hMember
  rw [List.mem_singleton.1 hMember]
  exact hOperand.inside

/- The result of an operation on what a node computes. -/
def applied
    (op : UnaryOp)
    (a? : Option (Value R)) : Option (Value R) :=
  a?.bind fun a => (op.apply a).toOption

theorem shape_applied
    {op : UnaryOp}
    (hOperand : s.Yields exact id shape a?) :
    ∀ w, applied op a? = some w → w.shape = op.resultShape shape := by
  intro w hw
  rcases Option.bind_eq_some_iff.1 hw with ⟨a, hA, hApplied⟩
  rw [toOption_eq_some_iff] at hApplied
  rw [UnaryOp.shape_apply hApplied, hOperand.fits a hA]

theorem emits_dagger
    (hAligned : s.Aligned)
    (hOperand : s.Yields exact id shape a?) :
    s.Emits exact (s.emit (.dagger id) (s.shapeOf id).dagger)
      shape.dagger (applied .dagger a?) := by
  refine emits_emit hAligned (inside_of_yields_single hOperand) ?_ ?_
    (shape_applied hOperand)
  · refine ⟨?_, fun hExact => by rw [hOperand.recorded.same hExact]⟩
    have hKind := hOperand.recorded.kind
    revert hKind
    cases s.shapeOf id <;> cases shape <;> exact fun hKind => hKind
  · rw [← hOperand.value, Operation.compute]
    simp only [toOption_bind, toOption_pure, applied, Plan.value?,
      UnaryOp.apply, toOption_ok]

theorem emits_trace
    (hAligned : s.Aligned)
    (hOperand : s.Yields exact id shape a?) :
    s.Emits exact (s.emit (.trace id) .scalar) .scalar
      (applied .trace a?) := by
  refine emits_emit hAligned (inside_of_yields_single hOperand)
    (.of_eq rfl) ?_ (shape_applied hOperand)
  have hA : (s.plan.denote id).toOption = a? := hOperand.value
  unfold Operation.compute
  simp only [toOption_bind, Operands.toOption_matrix, hA]
  cases a? with
  | none => rfl
  | some a => cases a <;> rfl

theorem emits_exponential
    (hAligned : s.Aligned)
    (hNotScalar : shape ≠ .scalar)
    (hOperand : s.Yields exact id shape a?) :
    s.Emits exact (s.emit (.matrixExp id) (s.shapeOf id)) shape
      (applied .expm a?) := by
  refine emits_emit hAligned (inside_of_yields_single hOperand)
    hOperand.recorded ?_ (shape_applied hOperand)
  have hA : (s.plan.denote id).toOption = a? := hOperand.value
  unfold Operation.compute
  simp only [toOption_bind, Operands.toOption_matrix, hA]
  cases a? with
  | none => rfl
  | some a =>
      cases a with
      | scalar z => exact absurd (hOperand.fits _ rfl).symm hNotScalar
      | vector v => rfl
      | matrix a => rfl

/- The node of an operation on a node applies it to what that computes. -/
theorem emits_unary
    {op : UnaryOp}
    (hScalarFunction : op.isScalarFunction = false)
    (hNotScalar : op = .expm → shape ≠ .scalar)
    (hAligned : s.Aligned)
    (hOperand : s.Yields exact id shape a?) :
    s.Emits exact (s.emitUnary op id) (op.resultShape shape)
      (applied op a?) := by
  cases op with
  | dagger => exact emits_dagger hAligned hOperand
  | trace => exact emits_trace hAligned hOperand
  | expm => exact emits_exponential hAligned (hNotScalar rfl) hOperand
  | sqrt => cases hScalarFunction
  | sin => cases hScalarFunction
  | cos => cases hScalarFunction
  | exp => cases hScalarFunction

end Lowering

end QuantumLab
