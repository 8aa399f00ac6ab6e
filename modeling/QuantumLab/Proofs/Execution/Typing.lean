import QuantumLab.Proofs.Dense.Extents
import QuantumLab.Proofs.Execution.Memoization

/-
  This file gives shapes to the nodes of plans.  In a plan
  whose nodes are typed a node computes a value of its shape,
  or fails because an exponential cannot be computed.

  Key definitions include:
    * `Cause.IsNumeric`
    * `Operation.Typed`
    * `Plan.Typed`

  Main statements:
    * `Operation.Typed.ends` says what a typed operation does
      with operands of their shapes.
    * `Plan.Typed.evaluate_meets` says what the evaluation of
      a typed node returns and fails with.
-/

------------------------------------------------------------
-- Numeric faults
------------------------------------------------------------

namespace QuantumLab

variable {R : Type} [Arithmetic R]

omit [Arithmetic R] in
/- An exponential could not be computed. -/
inductive Cause.IsNumeric : Cause R → Prop where
  | unsettled : IsNumeric .unsettledExponential
  | exponential (gap skewGap : R) :
      IsNumeric (.exponentialOf gap skewGap)

/- A fault of a computation on numbers. -/
abbrev Fault.IsNumeric (fault : Fault R) : Prop :=
  fault.cause.IsNumeric

namespace Guarded

theorem ends_exponentialOfHermitian
    (z : Scalar R)
    (a : Mat R) :
    Ends (fun b : Mat R => b.shape = .matrix a.rows a.rows)
      Fault.IsNumeric (exponentialOfHermitian z a) := by
  cases hResult : exponentialOfHermitian z a with
  | ok b => exact shape_exponentialOfHermitian hResult
  | error fault =>
      unfold exponentialOfHermitian at hResult
      cases hSpectrum : a.hermitianPart.spectrum? with
      | none =>
          rw [hSpectrum] at hResult
          rw [← refuse_eq_error_iff.1 hResult]
          exact .unsettled
      | some spectrum =>
          rw [hSpectrum] at hResult
          cases hResult

/- The exponential of a square matrix is a matrix of its shape. -/
theorem ends_exponential
    {a : Mat R}
    (hSquare : a.rows = a.cols) :
    Ends (fun b : Mat R => b.shape = a.shape) Fault.IsNumeric
      (exponential a) := by
  cases hResult : exponential a with
  | ok b => exact (shape_exponential hResult).2
  | error fault =>
      have hPasses : requireSquare a "matrix exponential" = .ok () :=
        requireSquare_eq_ok_iff.2 hSquare
      unfold exponential at hResult
      rw [hPasses, ok_bind] at hResult
      by_cases hEmpty : a.isEmpty = true
      · rw [if_pos hEmpty] at hResult
        exact absurd hResult pure_ne_error
      · rw [if_neg hEmpty] at hResult
        have hHermitian : ∀ z b,
            exponentialOfHermitian z b = .error fault →
              fault.IsNumeric := by
          intro z b hFault
          have hEnds := ends_exponentialOfHermitian z b
          rw [hFault] at hEnds
          exact hEnds
        split at hResult
        · exact hHermitian _ _ hResult
        · split at hResult
          · exact hHermitian _ _ hResult
          · rw [← refuse_eq_error_iff.1 hResult]
            exact .exponential _ _

/- The propagator of a square matrix is a matrix of its shape. -/
theorem ends_propagator
    {h : Mat R}
    (hSquare : h.rows = h.cols)
    (time : R) :
    Ends (fun u : Mat R => u.shape = h.shape) Fault.IsNumeric
      (propagator h time) := by
  have hPasses : requireSquare h "unitary propagator" = .ok () :=
    requireSquare_eq_ok_iff.2 hSquare
  unfold propagator
  rw [hPasses, ok_bind]
  by_cases hEmpty : h.isEmpty = true
  · rw [if_pos hEmpty]
    rfl
  · rw [if_neg hEmpty]
    have hShape : h.shape = .matrix h.rows h.rows := by
      rw [Mat.shape, ← hSquare]
    rw [hShape]
    exact ends_exponentialOfHermitian _ _

end Guarded

end QuantumLab

------------------------------------------------------------
-- Typed operations
------------------------------------------------------------

namespace QuantumLab

variable {R : Type}

/-
  The operations on nodes of given shapes that can only fail
  on numbers, and the shapes of their results.
-/
inductive Operation.Typed (shapeOf : NodeId → Shape) :
    Operation R → Shape → Prop
  | loadMatrix
      (name : String)
      (data : Mat R) :
      Typed shapeOf (.loadMatrix name data) data.shape
  | loadVector
      (name : String)
      (data : Vec R) :
      Typed shapeOf (.loadVector name data) data.shape
  | scalar
      (name : String)
      (value : Scalar R) :
      Typed shapeOf (.scalar name value) .scalar
  | sum
      {lhs rhs : NodeId} :
      shapeOf lhs = shapeOf rhs →
      Typed shapeOf (.matrixAdd lhs rhs) (shapeOf lhs)
  | product
      {lhs rhs : NodeId}
      {n m k : Nat} :
      shapeOf lhs = .matrix n m →
      shapeOf rhs = .matrix m k →
      Typed shapeOf (.matrixMul lhs rhs) (.matrix n k)
  | vectorProduct
      {lhs rhs : NodeId}
      {n m : Nat} :
      shapeOf lhs = .matrix n m →
      shapeOf rhs = .vector m →
      Typed shapeOf (.matrixMul lhs rhs) (.vector n)
  | multiple
      {factor operand : NodeId} :
      shapeOf factor = .scalar →
      Typed shapeOf (.scalarMul factor operand) (shapeOf operand)
  | tensor
      {lhs rhs : NodeId}
      {n m n' m' : Nat} :
      shapeOf lhs = .matrix n m →
      shapeOf rhs = .matrix n' m' →
      Typed shapeOf (.tensorProduct lhs rhs)
        (.matrix (n * n') (m * m'))
  | vectorTensor
      {lhs rhs : NodeId}
      {n n' : Nat} :
      shapeOf lhs = .vector n →
      shapeOf rhs = .vector n' →
      Typed shapeOf (.tensorProduct lhs rhs) (.vector (n * n'))
  | dagger
      (operand : NodeId) :
      Typed shapeOf (.dagger operand) (shapeOf operand).dagger
  | trace
      {operand : NodeId}
      {n : Nat} :
      shapeOf operand = .matrix n n →
      Typed shapeOf (.trace operand) .scalar
  | commutator
      {lhs rhs : NodeId}
      {n : Nat} :
      shapeOf lhs = .matrix n n →
      shapeOf rhs = .matrix n n →
      Typed shapeOf (.commutator lhs rhs) (.matrix n n)
  | exponential
      {operand : NodeId}
      {n : Nat} :
      shapeOf operand = .matrix n n →
      Typed shapeOf (.matrixExp operand) (.matrix n n)

/- The operation that gives a value has the shape of the value. -/
theorem Operation.typed_constant
    (shapeOf : NodeId → Shape)
    (name : String)
    (value : Value R) :
    Typed shapeOf (.constant name value) value.shape := by
  cases value with
  | scalar z => exact .scalar name z
  | vector v => exact .loadVector name v
  | matrix a => exact .loadMatrix name a

/- Only the shapes of the operands matter. -/
theorem Operation.Typed.congr
    {shapeOf shapeOf' : NodeId → Shape}
    {operation : Operation R}
    {shape : Shape}
    (hTyped : operation.Typed shapeOf shape)
    (hSame : ∀ operand ∈ operation.operands,
      shapeOf' operand = shapeOf operand) :
    operation.Typed shapeOf' shape := by
  cases hTyped with
  | loadMatrix name data => exact .loadMatrix name data
  | loadVector name data => exact .loadVector name data
  | scalar name value => exact .scalar name value
  | sum hShapes =>
      simp only [operands, List.forall_mem_cons] at hSame
      rw [← hSame.1]
      exact .sum (by rw [hSame.1, hSame.2.1, hShapes])
  | product hLhs hRhs =>
      simp only [operands, List.forall_mem_cons] at hSame
      exact .product (hSame.1.trans hLhs) (hSame.2.1.trans hRhs)
  | vectorProduct hLhs hRhs =>
      simp only [operands, List.forall_mem_cons] at hSame
      exact .vectorProduct (hSame.1.trans hLhs) (hSame.2.1.trans hRhs)
  | multiple hFactor =>
      simp only [operands, List.forall_mem_cons] at hSame
      rw [← hSame.2.1]
      exact .multiple (hSame.1.trans hFactor)
  | tensor hLhs hRhs =>
      simp only [operands, List.forall_mem_cons] at hSame
      exact .tensor (hSame.1.trans hLhs) (hSame.2.1.trans hRhs)
  | vectorTensor hLhs hRhs =>
      simp only [operands, List.forall_mem_cons] at hSame
      exact .vectorTensor (hSame.1.trans hLhs) (hSame.2.1.trans hRhs)
  | dagger operand =>
      simp only [operands, List.forall_mem_cons] at hSame
      rw [← hSame.1]
      exact .dagger operand
  | trace hOperand =>
      simp only [operands, List.forall_mem_cons] at hSame
      exact .trace (hSame.1.trans hOperand)
  | commutator hLhs hRhs =>
      simp only [operands, List.forall_mem_cons] at hSame
      exact .commutator (hSame.1.trans hLhs) (hSame.2.1.trans hRhs)
  | exponential hOperand =>
      simp only [operands, List.forall_mem_cons] at hSame
      exact .exponential (hSame.1.trans hOperand)

end QuantumLab

------------------------------------------------------------
-- Results of typed operations
------------------------------------------------------------

namespace QuantumLab

variable {R : Type}

/- A computation gives a value of a shape or fails on numbers. -/
abbrev EndsTyped
    (shape : Shape)
    (x : Except (Fault R) (Value R)) : Prop :=
  Ends (fun v => v.shape = shape) Fault.IsNumeric x

namespace Operands

variable
  {values : Operands R}
  {operand : NodeId}

/- The operand of the shape of a matrix is a matrix. -/
theorem ends_matrix
    {n m : Nat}
    (node : NodeId)
    (hOperand : EndsTyped (.matrix n m) (values operand)) :
    Ends (fun a : Mat R => a.rows = n ∧ a.cols = m) Fault.IsNumeric
      (values.matrix node operand) := by
  refine hOperand.bind fun v hShape => ?_
  rcases Value.exists_matrix hShape with ⟨a, rfl, hExtents⟩
  exact hExtents

theorem ends_scalar
    (node : NodeId)
    (hOperand : EndsTyped .scalar (values operand)) :
    Ends (fun _ : Scalar R => True) Fault.IsNumeric
      (values.scalar node operand) := by
  refine hOperand.bind fun v hShape => ?_
  rcases Value.exists_scalar hShape with ⟨z, rfl⟩
  exact trivial

end Operands

variable [Arithmetic R]

/-
  A typed operation gives a value of its shape if its
  operands do, and fails on numbers only.
-/
theorem Operation.Typed.ends
    {shapeOf : NodeId → Shape}
    {values : Operands R}
    {operation : Operation R}
    {shape : Shape}
    (hTyped : operation.Typed shapeOf shape)
    (hOperands : ∀ operand ∈ operation.operands,
      EndsTyped (shapeOf operand) (values operand))
    (node : NodeId) :
    EndsTyped shape (operation.compute values node) := by
  cases hTyped with
  | loadMatrix name data => exact .of_ok rfl rfl
  | loadVector name data => exact .of_ok rfl rfl
  | scalar name value => exact .of_ok rfl rfl
  | @sum lhs rhs hShapes =>
      simp only [operands, List.forall_mem_cons] at hOperands
      refine hOperands.1.bind fun a hA => ?_
      refine hOperands.2.1.bind fun b hB => ?_
      rw [← hShapes, ← hA] at hB
      rw [← hA]
      cases a with
      | scalar z =>
          rcases Value.exists_scalar hB with ⟨w, rfl⟩
          exact .of_ok rfl rfl
      | vector v =>
          rcases Value.exists_vector hB with ⟨w, rfl, hSize⟩
          have hSum := Guarded.vectorSum_eq_ok_iff.2 ⟨hSize.symm, rfl⟩
          exact .of_ok (map_eq_ok_iff.2 ⟨_, hSum, rfl⟩)
            (Vec.shape_add v w)
      | matrix a =>
          rcases Value.exists_matrix hB with ⟨b, rfl, hRows, hCols⟩
          have hSame : a.shape = b.shape := by
            rw [Mat.shape, Mat.shape, hRows, hCols]
          have hSum := Guarded.sum_eq_ok_iff.2 ⟨hSame, rfl⟩
          exact .of_ok (map_eq_ok_iff.2 ⟨_, hSum, rfl⟩)
            (Mat.shape_add a b)
  | @product lhs rhs n m k hLhs hRhs =>
      simp only [operands, List.forall_mem_cons, hLhs, hRhs] at hOperands
      refine (Operands.ends_matrix node hOperands.1).bind
        fun a hA => ?_
      refine hOperands.2.1.bind fun v hV => ?_
      rcases Value.exists_matrix hV with ⟨b, rfl, hRows, hCols⟩
      have hFit : a.cols = b.rows := hA.2.trans hRows.symm
      have hProduct := Guarded.product_eq_ok_iff.2 ⟨hFit, rfl⟩
      refine .of_ok (map_eq_ok_iff.2 ⟨_, hProduct, rfl⟩) ?_
      rw [← hA.1, ← hCols]
      exact Mat.shape_mul a b
  | @vectorProduct lhs rhs n m hLhs hRhs =>
      simp only [operands, List.forall_mem_cons, hLhs, hRhs] at hOperands
      refine (Operands.ends_matrix node hOperands.1).bind
        fun a hA => ?_
      refine hOperands.2.1.bind fun v hV => ?_
      rcases Value.exists_vector hV with ⟨w, rfl, hSize⟩
      have hFit : a.cols = w.size := hA.2.trans hSize.symm
      have hProduct := Guarded.vectorProduct_eq_ok_iff.2 ⟨hFit, rfl⟩
      refine .of_ok (map_eq_ok_iff.2 ⟨_, hProduct, rfl⟩) ?_
      rw [← hA.1]
      exact Vec.shape_mulVec a w
  | @multiple factor operand hFactor =>
      simp only [operands, List.forall_mem_cons, hFactor] at hOperands
      refine (Operands.ends_scalar node hOperands.1).bind
        fun z _ => ?_
      refine hOperands.2.1.bind fun v hV => ?_
      exact .of_ok rfl ((Value.shape_scale z v).trans hV)
  | @tensor lhs rhs n m n' m' hLhs hRhs =>
      simp only [operands, List.forall_mem_cons, hLhs, hRhs] at hOperands
      refine hOperands.1.bind fun v hV => ?_
      refine hOperands.2.1.bind fun w hW => ?_
      rcases Value.exists_matrix hV with ⟨a, rfl, rfl, rfl⟩
      rcases Value.exists_matrix hW with ⟨b, rfl, rfl, rfl⟩
      exact .of_ok rfl rfl
  | @vectorTensor lhs rhs n n' hLhs hRhs =>
      simp only [operands, List.forall_mem_cons, hLhs, hRhs] at hOperands
      refine hOperands.1.bind fun v hV => ?_
      refine hOperands.2.1.bind fun w hW => ?_
      rcases Value.exists_vector hV with ⟨a, rfl, rfl⟩
      rcases Value.exists_vector hW with ⟨b, rfl, rfl⟩
      exact .of_ok rfl (Vec.shape_kronecker a b)
  | dagger operand =>
      simp only [operands, List.forall_mem_cons] at hOperands
      refine hOperands.1.bind fun v hV => ?_
      refine .of_ok rfl ?_
      rw [Value.shape_adjoint, hV]
  | @trace operand n hOperand =>
      simp only [operands, List.forall_mem_cons, hOperand] at hOperands
      refine (Operands.ends_matrix node hOperands.1).bind
        fun a hA => ?_
      have hTrace :=
        Guarded.trace_eq_ok_iff.2 ⟨hA.1.trans hA.2.symm, rfl⟩
      exact .of_ok (map_eq_ok_iff.2 ⟨_, hTrace, rfl⟩) rfl
  | @commutator lhs rhs n hLhs hRhs =>
      simp only [operands, List.forall_mem_cons, hLhs, hRhs] at hOperands
      refine (Operands.ends_matrix node hOperands.1).bind
        fun a hA => ?_
      refine (Operands.ends_matrix node hOperands.2.1).bind
        fun b hB => ?_
      have hSame : a.shape = b.shape := by
        rw [Mat.shape, Mat.shape, hA.1, hA.2, hB.1, hB.2]
      have hCommutator := Guarded.commutator_eq_ok_iff.2
        ⟨⟨hA.1.trans hA.2.symm, hSame⟩, rfl⟩
      refine .of_ok (map_eq_ok_iff.2 ⟨_, hCommutator, rfl⟩) ?_
      have hShape : (a.commutator b).shape = .matrix n n := by
        rw [Mat.shape_commutator, hA.1, hB.2]
      exact hShape
  | @exponential operand n hOperand =>
      simp only [operands, List.forall_mem_cons, hOperand] at hOperands
      refine (Operands.ends_matrix node hOperands.1).bind
        fun a hA => ?_
      have hSquare : a.rows = a.cols := hA.1.trans hA.2.symm
      have hShape : a.shape = .matrix n n := by
        rw [Mat.shape, hA.1, hA.2]
      exact (Guarded.ends_exponential hSquare).map fun b hB =>
        hB.trans hShape

end QuantumLab

------------------------------------------------------------
-- Typed plans
------------------------------------------------------------

namespace QuantumLab

variable {R : Type}

namespace Plan

/-
  The nodes of a plan have shapes, and their operands come
  before them.
-/
structure Typed
    (plan : Plan R)
    (shapeOf : NodeId → Shape) : Prop where
  backward : ∀ id operation, plan.operation? id = some operation →
    ∀ operand ∈ operation.operands, operand < id
  typed : ∀ id operation, plan.operation? id = some operation →
    operation.Typed shapeOf (shapeOf id)

/- A node is there and has a shape. -/
structure HasShape
    (plan : Plan R)
    (shapeOf : NodeId → Shape)
    (id : NodeId)
    (shape : Shape) : Prop where
  inside : id < plan.size
  recorded : shapeOf id = shape

variable
  [Arithmetic R]
  {plan : Plan R}
  {shapeOf : NodeId → Shape}
  {id : NodeId}

/- A node denotes a value of its shape or fails on numbers. -/
theorem Typed.denote
    (hTyped : plan.Typed shapeOf)
    (hInside : id < plan.size) :
    EndsTyped (shapeOf id) (plan.denote id) := by
  induction id using Nat.strongRecOn with
  | ind id ih =>
      cases hOperation : plan.operation? id with
      | none =>
          have hOutside := operation?_eq_none_iff.1 hOperation
          exact absurd hInside (Nat.not_lt.2 hOutside)
      | some operation =>
          have hBackward := hTyped.backward id operation hOperation
          rw [denote_eq_compute hOperation hBackward]
          refine (hTyped.typed id operation hOperation).ends ?_ id
          intro operand hOperand
          have hBefore := hBackward operand hOperand
          exact ih operand hBefore (Nat.lt_trans hBefore hInside)

/- The evaluation of a node fails on numbers only. -/
theorem Typed.isNumeric_of_failure
    {fault : Fault R}
    (hTyped : plan.Typed shapeOf)
    (hInside : id < plan.size)
    (hFailure : plan.Failure id fault) :
    fault.IsNumeric := by
  cases hFailure with
  | missing hOutside => exact absurd hInside (Nat.not_lt.2 hOutside)
  | @forward node operand operation _ hOperation hOperand hLater =>
      have hBefore :=
        hTyped.backward node operation hOperation operand hOperand
      exact absurd hBefore (Nat.not_lt.2 hLater)
  | @compute node operation fault _ hOperation hOperands hFault =>
      have hBackward := hTyped.backward node operation hOperation
      have hEnds := hTyped.denote (lt_size_of_operation hOperation)
      rw [denote_eq_compute hOperation hBackward, hFault] at hEnds
      exact hEnds

/- What the evaluation of a typed node meets. -/
theorem Typed.evaluate_meets
    {shape : Shape}
    (hTyped : plan.Typed shapeOf)
    (hShape : plan.HasShape shapeOf id shape) :
    Session.Meets (Memo.Valid plan)
      (fun value => value.shape = shape)
      Fault.IsNumeric
      (plan.evaluate id) := by
  refine (plan.evaluate_meets id).weaken ?_ ?_
  · intro value hValue
    have hEnds := hTyped.denote hShape.inside
    rw [hValue] at hEnds
    exact hEnds.trans hShape.recorded
  · intro fault hFailure
    exact hTyped.isNumeric_of_failure hShape.inside hFailure

/- What the evaluation of a node of the shape of a matrix meets. -/
theorem Typed.evaluateMatrix_meets
    {n m : Nat}
    (hTyped : plan.Typed shapeOf)
    (hShape : plan.HasShape shapeOf id (.matrix n m)) :
    Session.Meets (Memo.Valid plan)
      (fun a => a.shape = .matrix n m)
      Fault.IsNumeric
      (plan.evaluateMatrix id) := by
  refine (hTyped.evaluate_meets hShape).bind fun value hValue => ?_
  rcases Value.exists_matrix hValue with ⟨a, rfl, _⟩
  exact Session.Meets.pure hValue

end Plan

end QuantumLab
