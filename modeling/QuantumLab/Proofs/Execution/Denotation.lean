import QuantumLab.Plan.Compute
import QuantumLab.Proofs.Outcome

/-
  This file gives plans a meaning of their own: the value of
  a node by plain recursion over its operands, with nothing
  kept in between.

  Key definitions include:
    * `Plan.valuesBelow`
    * `Plan.denote`
    * `Plan.Uses`

  Main statements:
    * `Operation.compute_congr` and
      `Operation.exists_of_compute_ok` say that an operation
      depends on all of its operands and on nothing else.
    * `Plan.denote_eq_ok_iff` says when a node has a value.
    * `Plan.denote_congr` says that later nodes do not
      change the values of earlier ones.
-/

------------------------------------------------------------
-- Operations and their operands
------------------------------------------------------------

namespace QuantumLab

variable {R : Type}

namespace Operands

variable {f g : Operands R} {node operand : NodeId}

theorem matrix_congr
    (hSame : f operand = g operand) :
    f.matrix node operand = g.matrix node operand := by
  rw [matrix, matrix, hSame]

theorem vector_congr
    (hSame : f operand = g operand) :
    f.vector node operand = g.vector node operand := by
  rw [vector, vector, hSame]

theorem scalar_congr
    (hSame : f operand = g operand) :
    f.scalar node operand = g.scalar node operand := by
  rw [scalar, scalar, hSame]

theorem matrix_eq_ok_iff
    {a : Mat R} :
    f.matrix node operand = .ok a ↔ f operand = .ok (.matrix a) := by
  rw [matrix, bind_eq_ok_iff]
  constructor
  · rintro ⟨value, hValue, hKind⟩
    cases value with
    | matrix b => rw [hValue, pure_eq_ok_iff.1 hKind]
    | scalar z => simp [refuseOperand] at hKind
    | vector v => simp [refuseOperand] at hKind
  · intro hValue
    exact ⟨.matrix a, hValue, rfl⟩

theorem vector_eq_ok_iff
    {v : Vec R} :
    f.vector node operand = .ok v ↔ f operand = .ok (.vector v) := by
  rw [vector, bind_eq_ok_iff]
  constructor
  · rintro ⟨value, hValue, hKind⟩
    cases value with
    | vector w => rw [hValue, pure_eq_ok_iff.1 hKind]
    | scalar z => simp [refuseOperand] at hKind
    | matrix a => simp [refuseOperand] at hKind
  · intro hValue
    exact ⟨.vector v, hValue, rfl⟩

theorem scalar_eq_ok_iff
    {z : Scalar R} :
    f.scalar node operand = .ok z ↔ f operand = .ok (.scalar z) := by
  rw [scalar, bind_eq_ok_iff]
  constructor
  · rintro ⟨value, hValue, hKind⟩
    cases value with
    | scalar w => rw [hValue, pure_eq_ok_iff.1 hKind]
    | vector v => simp [refuseOperand] at hKind
    | matrix a => simp [refuseOperand] at hKind
  · intro hValue
    exact ⟨.scalar z, hValue, rfl⟩

theorem exists_of_matrix_ok
    (hMatrix : ∃ a, f.matrix node operand = .ok a) :
    ∃ used, f operand = .ok used := by
  rcases hMatrix with ⟨a, hMatrix⟩
  exact ⟨_, matrix_eq_ok_iff.1 hMatrix⟩

theorem exists_of_vector_ok
    (hVector : ∃ v, f.vector node operand = .ok v) :
    ∃ used, f operand = .ok used := by
  rcases hVector with ⟨v, hVector⟩
  exact ⟨_, vector_eq_ok_iff.1 hVector⟩

theorem exists_of_scalar_ok
    (hScalar : ∃ z, f.scalar node operand = .ok z) :
    ∃ used, f operand = .ok used := by
  rcases hScalar with ⟨z, hScalar⟩
  exact ⟨_, scalar_eq_ok_iff.1 hScalar⟩

theorem channels_congr
    {jumps : List (Jump R)}
    (hSame : ∀ jump ∈ jumps, f jump.operator = g jump.operator) :
    f.channels node jumps = g.channels node jumps := by
  refine mapM_congr fun jump hJump => ?_
  rw [matrix_congr (hSame jump hJump)]

theorem exists_of_channels_ok
    {jumps : List (Jump R)}
    {channels : List (Channel R)}
    (hChannels : f.channels node jumps = .ok channels) :
    ∀ jump ∈ jumps, ∃ used, f jump.operator = .ok used := by
  intro jump hJump
  rcases exists_of_mapM_eq_ok hChannels jump hJump with
    ⟨channel, hChannel⟩
  rcases bind_eq_ok_iff.1 hChannel with ⟨a, hMatrix, _⟩
  exact ⟨_, matrix_eq_ok_iff.1 hMatrix⟩

variable [Arithmetic R]

theorem density_congr
    (hSame : f operand = g operand) :
    f.density node operand = g.density node operand := by
  rw [density, density, hSame]

/- A density matrix comes from a ket or is a matrix itself. -/
theorem density_eq_ok_iff
    {rho : Mat R} :
    f.density node operand = .ok rho ↔
      f operand = .ok (.matrix rho) ∨
        ∃ ket, f operand = .ok (.vector ket) ∧
          Mat.outer ket ket = rho := by
  rw [density, bind_eq_ok_iff]
  constructor
  · rintro ⟨value, hValue, hKind⟩
    cases value with
    | scalar z => simp [refuseOperand] at hKind
    | vector ket => exact .inr ⟨ket, hValue, pure_eq_ok_iff.1 hKind⟩
    | matrix a => exact .inl (by rw [hValue, pure_eq_ok_iff.1 hKind])
  · rintro (hMatrix | ⟨ket, hKet, rfl⟩)
    · exact ⟨.matrix rho, hMatrix, rfl⟩
    · exact ⟨.vector ket, hKet, rfl⟩

theorem exists_of_density_ok
    (hState : ∃ rho, f.density node operand = .ok rho) :
    ∃ used, f operand = .ok used := by
  rcases hState with ⟨rho, hState⟩
  rcases density_eq_ok_iff.1 hState with hMatrix | ⟨ket, hKet, _⟩
  · exact ⟨_, hMatrix⟩
  · exact ⟨_, hKet⟩

end Operands

namespace Operation

open Operands

variable [Arithmetic R] {f g : Operands R} {node : NodeId}

/- An operation depends on its operands alone. -/
theorem compute_congr
    {operation : Operation R}
    (hSame : ∀ operand ∈ operation.operands,
      f operand = g operand) :
    operation.compute f node = operation.compute g node := by
  cases operation with
  | loadMatrix name data => rfl
  | loadVector name data => rfl
  | scalar name value => rfl
  | matrixAdd lhs rhs =>
      simp [operands] at hSame
      simp only [compute, hSame]
  | matrixMul lhs rhs =>
      simp [operands] at hSame
      simp only [compute, matrix_congr hSame.1, hSame.2]
  | scalarMul factor operand =>
      simp [operands] at hSame
      simp only [compute, scalar_congr hSame.1, hSame.2]
  | tensorProduct lhs rhs =>
      simp [operands] at hSame
      simp only [compute, hSame]
  | dagger operand =>
      simp [operands] at hSame
      simp only [compute, hSame]
  | trace operand =>
      simp [operands] at hSame
      simp only [compute, matrix_congr hSame]
  | commutator lhs rhs =>
      simp [operands] at hSame
      simp only [compute, matrix_congr hSame.1, matrix_congr hSame.2]
  | matrixExp operand =>
      simp [operands] at hSame
      simp only [compute, matrix_congr hSame]
  | unitaryPropagator hamiltonian time =>
      simp [operands] at hSame
      simp only [compute, matrix_congr hSame]
  | applyUnitaryKet unitary ket =>
      simp [operands] at hSame
      simp only [compute, matrix_congr hSame.1, vector_congr hSame.2]
  | applyUnitaryRho unitary rho =>
      simp [operands] at hSame
      simp only [compute, matrix_congr hSame.1, matrix_congr hSame.2]
  | integrateLindblad hamiltonian initialState jumps times =>
      simp [operands] at hSame
      simp only [compute, matrix_congr hSame.1,
        density_congr hSame.2.1, channels_congr hSame.2.2]
  | measureExpectation observable state =>
      simp [operands] at hSame
      simp only [compute, matrix_congr hSame.1, density_congr hSame.2]
  | measureProjective projectors state =>
      have hState : f state = g state :=
        hSame state (List.mem_append_right _ List.mem_cons_self)
      have hProjectors :
          projectors.mapM (f.matrix node) =
            projectors.mapM (g.matrix node) :=
        mapM_congr fun projector hProjector =>
          matrix_congr
            (hSame projector (List.mem_append_left _ hProjector))
      simp only [compute, hProjectors, density_congr hState]

/- An operation with a value has used the values of all of its operands. -/
theorem exists_of_compute_ok
    {operation : Operation R}
    {value : Value R}
    (hValue : operation.compute f node = .ok value) :
    ∀ operand ∈ operation.operands,
      ∃ used, f operand = .ok used := by
  cases operation with
  | loadMatrix name data => simp [operands]
  | loadVector name data => simp [operands]
  | scalar name value => simp [operands]
  | matrixAdd lhs rhs =>
      simpa [operands] using exists_of_bind_bind_ok hValue
  | matrixMul lhs rhs =>
      rcases exists_of_bind_bind_ok hValue with ⟨hLeft, hRight⟩
      simpa [operands] using ⟨exists_of_matrix_ok hLeft, hRight⟩
  | scalarMul factor scaled =>
      rcases exists_of_bind_bind_ok hValue with ⟨hFactor, hScaled⟩
      simpa [operands] using ⟨exists_of_scalar_ok hFactor, hScaled⟩
  | tensorProduct lhs rhs =>
      simpa [operands] using exists_of_bind_bind_ok hValue
  | dagger used =>
      simpa [operands] using exists_of_bind_ok hValue
  | trace used =>
      simpa [operands] using
        exists_of_matrix_ok (exists_of_bind_ok hValue)
  | commutator lhs rhs =>
      rcases exists_of_bind_bind_ok hValue with ⟨hLeft, hRight⟩
      simpa [operands] using
        ⟨exists_of_matrix_ok hLeft, exists_of_matrix_ok hRight⟩
  | matrixExp used =>
      simpa [operands] using
        exists_of_matrix_ok (exists_of_bind_ok hValue)
  | unitaryPropagator hamiltonian time =>
      simpa [operands] using
        exists_of_matrix_ok (exists_of_bind_ok hValue)
  | applyUnitaryKet unitary ket =>
      rcases exists_of_bind_bind_ok hValue with ⟨hUnitary, hKet⟩
      simpa [operands] using
        ⟨exists_of_matrix_ok hUnitary, exists_of_vector_ok hKet⟩
  | applyUnitaryRho unitary rho =>
      rcases exists_of_bind_bind_ok hValue with ⟨hUnitary, hRho⟩
      simpa [operands] using
        ⟨exists_of_matrix_ok hUnitary, exists_of_matrix_ok hRho⟩
  | integrateLindblad hamiltonian initialState jumps times =>
      rcases bind_eq_ok_iff.1 hValue with ⟨h, hHamiltonian, hRest⟩
      rcases exists_of_bind_bind_ok hRest with
        ⟨hState, channels, hChannels⟩
      simpa [operands] using
        ⟨exists_of_matrix_ok ⟨h, hHamiltonian⟩,
          exists_of_density_ok hState,
          exists_of_channels_ok hChannels⟩
  | measureExpectation observable state =>
      rcases exists_of_bind_bind_ok hValue with ⟨hObservable, hState⟩
      simpa [operands] using
        ⟨exists_of_matrix_ok hObservable, exists_of_density_ok hState⟩
  | measureProjective projectors state =>
      rcases exists_of_bind_bind_ok hValue with
        ⟨⟨ps, hProjectors⟩, hState⟩
      intro operand hOperand
      rcases List.mem_append.1 hOperand with hProjector | hLast
      · exact exists_of_matrix_ok
          (exists_of_mapM_eq_ok hProjectors operand hProjector)
      · rw [List.mem_singleton.1 hLast]
        exact exists_of_density_ok hState

end Operation

end QuantumLab

------------------------------------------------------------
-- Nodes
------------------------------------------------------------

namespace QuantumLab

variable {R : Type}

namespace Plan

theorem operation?_eq_none_iff
    {plan : Plan R}
    {id : NodeId} :
    plan.operation? id = none ↔ plan.size ≤ id := by
  rw [operation?, size, Array.getElem?_eq_none_iff]

theorem lt_size_of_operation
    {plan : Plan R}
    {id : NodeId}
    {operation : Operation R}
    (hOperation : plan.operation? id = some operation) :
    id < plan.size := by
  rw [operation?, Array.getElem?_eq_some_iff] at hOperation
  exact hOperation.1

theorem exists_operation
    {plan : Plan R}
    {id : NodeId}
    (hInside : id < plan.size) :
    ∃ operation, plan.operation? id = some operation := by
  cases hOperation : plan.operation? id with
  | none =>
      exact absurd hInside
        (Nat.not_lt.2 (operation?_eq_none_iff.1 hOperation))
  | some operation => exact ⟨operation, rfl⟩

/-
  The nodes that are reached from a node through operands,
  the node itself included.
-/
inductive Uses (plan : Plan R) (id : NodeId) : NodeId → Prop
  | self : plan.Uses id id
  | operand
      {node operand : NodeId}
      {operation : Operation R} :
      plan.Uses id node →
      plan.operation? node = some operation →
      operand ∈ operation.operands →
      plan.Uses id operand

end Plan

end QuantumLab

------------------------------------------------------------
-- Values of nodes
------------------------------------------------------------

namespace QuantumLab

variable {R : Type} [Arithmetic R]

namespace Plan

/-
  The values of the nodes before position `n`.  A node sees
  the values of those before it and of no other.
-/
def valuesBelow (plan : Plan R) : Nat → Operands R
  | 0, id => .error ⟨.missingNode id, some id⟩
  | n + 1, id =>
      if id = n then
        match plan.operation? n with
        | some operation => operation.compute (plan.valuesBelow n) n
        | none => .error ⟨.missingNode id, some id⟩
      else
        plan.valuesBelow n id

/- The value of a node by plain recursion over its operands. -/
def denote
    (plan : Plan R)
    (id : NodeId) : Except (Fault R) (Value R) :=
  plan.valuesBelow (id + 1) id

/- There is no value where there is no node yet. -/
theorem valuesBelow_of_le
    {plan : Plan R}
    {n id : Nat}
    (hOutside : n ≤ id) :
    plan.valuesBelow n id = .error ⟨.missingNode id, some id⟩ := by
  induction n with
  | zero => rfl
  | succ n ih =>
      have hOther : id ≠ n := by omega
      rw [valuesBelow, if_neg hOther, ih (by omega)]

theorem valuesBelow_of_lt
    {plan : Plan R}
    {n id : Nat}
    (hInside : id < n) :
    plan.valuesBelow n id = plan.denote id := by
  induction n with
  | zero => exact absurd hInside (Nat.not_lt_zero id)
  | succ n ih =>
      by_cases hLast : id = n
      · rw [hLast, denote]
      · rw [valuesBelow, if_neg hLast, ih (by omega)]

theorem denote_of_operation
    {plan : Plan R}
    {id : NodeId}
    {operation : Operation R}
    (hOperation : plan.operation? id = some operation) :
    plan.denote id = operation.compute (plan.valuesBelow id) id := by
  rw [denote, valuesBelow, if_pos rfl, hOperation]

theorem denote_of_none
    {plan : Plan R}
    {id : NodeId}
    (hNone : plan.operation? id = none) :
    plan.denote id = .error ⟨.missingNode id, some id⟩ := by
  rw [denote, valuesBelow, if_pos rfl, hNone]

/- A node whose operands come before it is computed from their values. -/
theorem denote_eq_compute
    {plan : Plan R}
    {id : NodeId}
    {operation : Operation R}
    (hOperation : plan.operation? id = some operation)
    (hBackward : ∀ operand ∈ operation.operands, operand < id) :
    plan.denote id = operation.compute plan.denote id := by
  rw [denote_of_operation hOperation]
  exact Operation.compute_congr fun operand hOperand =>
    valuesBelow_of_lt (hBackward operand hOperand)

/-
  A node has a value if and only if its operands come
  before it and its operation gives that value from theirs.
-/
theorem denote_eq_ok_iff
    {plan : Plan R}
    {id : NodeId}
    {value : Value R} :
    plan.denote id = .ok value ↔
      ∃ operation, plan.operation? id = some operation ∧
        (∀ operand ∈ operation.operands, operand < id) ∧
        operation.compute plan.denote id = .ok value := by
  constructor
  · intro hValue
    cases hOperation : plan.operation? id with
    | none => simp [denote_of_none hOperation] at hValue
    | some operation =>
        rw [denote_of_operation hOperation] at hValue
        have hBackward :
            ∀ operand ∈ operation.operands, operand < id := by
          intro operand hOperand
          rcases Operation.exists_of_compute_ok hValue
              operand hOperand with
            ⟨used, hUsed⟩
          apply Nat.lt_of_not_le
          intro hForward
          rw [valuesBelow_of_le hForward] at hUsed
          cases hUsed
        refine ⟨operation, rfl, hBackward, ?_⟩
        rw [← denote_eq_compute hOperation hBackward,
          denote_of_operation hOperation, hValue]
  · rintro ⟨operation, hOperation, hBackward, hValue⟩
    rw [denote_eq_compute hOperation hBackward, hValue]

theorem lt_size_of_denote
    {plan : Plan R}
    {id : NodeId}
    {value : Value R}
    (hValue : plan.denote id = .ok value) :
    id < plan.size := by
  rcases denote_eq_ok_iff.1 hValue with ⟨operation, hOperation, _⟩
  exact lt_size_of_operation hOperation

/- The operands of a node with a value come before it and have values. -/
theorem operands_of_denote
    {plan : Plan R}
    {id : NodeId}
    {value : Value R}
    {operation : Operation R}
    (hValue : plan.denote id = .ok value)
    (hOperation : plan.operation? id = some operation) :
    ∀ operand ∈ operation.operands,
      operand < id ∧ ∃ used, plan.denote operand = .ok used := by
  rcases denote_eq_ok_iff.1 hValue with
    ⟨operation', hOperation', hBackward, hComputed⟩
  rw [hOperation] at hOperation'
  cases hOperation'
  intro operand hOperand
  exact ⟨hBackward operand hOperand,
    Operation.exists_of_compute_ok hComputed operand hOperand⟩

/- Plans that agree up to a position agree on the values up to there. -/
theorem denote_congr
    {p q : Plan R}
    {n id : Nat}
    (hSame : ∀ k < n, p.operation? k = q.operation? k)
    (hInside : id < n) :
    p.denote id = q.denote id := by
  have hBelow :
      ∀ m ≤ n, p.valuesBelow m = q.valuesBelow m := by
    intro m hm
    induction m with
    | zero => rfl
    | succ m ih =>
        funext k
        rw [valuesBelow, valuesBelow, hSame m (by omega),
          ih (by omega)]
  rw [denote, denote, hBelow (id + 1) (by omega)]

/- A value rests on nodes with values alone. -/
theorem Uses.exists_denote
    {plan : Plan R}
    {id node : NodeId}
    {value : Value R}
    (hUses : plan.Uses id node)
    (hValue : plan.denote id = .ok value) :
    ∃ used, plan.denote node = .ok used := by
  induction hUses with
  | self => exact ⟨value, hValue⟩
  | operand _ hOperation hOperand ih =>
      rcases ih with ⟨used, hUsed⟩
      exact (operands_of_denote hUsed hOperation _ hOperand).2

end Plan

end QuantumLab
