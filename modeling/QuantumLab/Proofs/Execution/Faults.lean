import QuantumLab.Evolution.Unitary
import QuantumLab.Plan.Compute
import QuantumLab.Proofs.Outcome

/-
  This file says with which faults computations on values
  end, and at which node.

  Key definitions include:
    * `Cause.isOperational`, `Cause.isTimeGrid`
    * `Fault.Arises`, `Fault.ArisesOffGrid`
    * `Operates`, `OffGrid`

  Main statements:
    * `Lindblad.operates_integrate` and
      `Unitary.operates_evolve` say how the evolution of a
      state can fail.
    * `Operation.operates_compute` says how an operation can
      fail once its operands have values.
    * `Lindblad.offGrid_integrate`, `Unitary.offGrid_evolve`
      and `Operation.offGrid_compute` say that they do not
      fail because of times that ascend.
-/

------------------------------------------------------------
-- Faults of operations
------------------------------------------------------------

namespace QuantumLab

variable {R α : Type}

/-
  Whether computations on values fail in this way: on values
  that do not fit together, on an exponential that cannot be
  computed, or on times that do not ascend.
-/
def Cause.isOperational : Cause R → Bool
  | .mismatch _ _ _ => true
  | .exponentialOf _ _ => true
  | .unsettledExponential => true
  | .emptyTimeGrid => true
  | .unorderedTimeGrid _ _ => true
  | .operandKind _ _ _ _ => true
  | .addedKinds _ _ _ => true
  | .combinedKinds _ _ _ => true
  | _ => false

/- Whether times do not ascend. -/
def Cause.isTimeGrid : Cause R → Bool
  | .emptyTimeGrid => true
  | .unorderedTimeGrid _ _ => true
  | _ => false

/- A fault of a computation on values, of no node yet or of one node. -/
structure Fault.Arises (node : NodeId) (fault : Fault R) : Prop where
  operational : fault.cause.isOperational = true
  origin : fault.node = none ∨ fault.node = some node

/- A fault of a computation on values that is not one of times. -/
structure Fault.ArisesOffGrid
    (node : NodeId)
    (fault : Fault R) : Prop
    extends Fault.Arises node fault where
  offGrid : fault.cause.isTimeGrid = false

/- A fault of no node yet is put at the node of the computation. -/
theorem Fault.Arises.node_atNode
    {node : NodeId}
    {fault : Fault R}
    (hArises : fault.Arises node) :
    (fault.atNode node).node = some node := by
  rcases hArises.origin with hNone | hSome
  · simp [atNode, hNone]
  · simp [atNode, hSome]

/- A computation on values that a node makes. -/
abbrev Operates
    (node : NodeId)
    (x : Except (Fault R) α) : Prop :=
  Fails (Fault.Arises node) x

/-
  A computation that a node makes and that does not fail
  because of times.
-/
abbrev OffGrid
    (node : NodeId)
    (x : Except (Fault R) α) : Prop :=
  Fails (Fault.ArisesOffGrid node) x

variable {node : NodeId}

theorem OffGrid.operates
    {x : Except (Fault R) α}
    (hOffGrid : OffGrid node x) :
    Operates node x :=
  hOffGrid.imp_error fun _ hArises => hArises.toArises

theorem operates_refuse
    {cause : Cause R}
    (hCause : cause.isOperational = true) :
    Operates node (refuse cause : Except (Fault R) α) :=
  ⟨hCause, .inl rfl⟩

theorem offGrid_refuse
    {cause : Cause R}
    (hCause : cause.isOperational = true)
    (hOffGrid : cause.isTimeGrid = false) :
    OffGrid node (refuse cause : Except (Fault R) α) :=
  ⟨⟨hCause, .inl rfl⟩, hOffGrid⟩

theorem offGrid_at
    {cause : Cause R}
    (hCause : cause.isOperational = true)
    (hOffGrid : cause.isTimeGrid = false) :
    OffGrid node (.error ⟨cause, some node⟩ : Except (Fault R) α) :=
  ⟨⟨hCause, .inr rfl⟩, hOffGrid⟩

end QuantumLab

------------------------------------------------------------
-- Dense operations
------------------------------------------------------------

namespace QuantumLab

variable {R : Type} [Arithmetic R] {node : NodeId}

namespace Guarded

omit [Arithmetic R] in
theorem offGrid_requireSquare
    (a : Mat R)
    (subject : String) :
    OffGrid node (requireSquare a subject) :=
  Fails.ite trivial (offGrid_refuse rfl rfl)

omit [Arithmetic R] in
theorem offGrid_requireSameSquare
    (a b : Mat R)
    (subject : String) :
    OffGrid node (requireSameSquare a b subject) :=
  (offGrid_requireSquare a subject).bind fun _ =>
    Fails.ite trivial (offGrid_refuse rfl rfl)

theorem offGrid_trace (a : Mat R) : OffGrid node (trace a) :=
  (offGrid_requireSquare a _).bind fun _ => trivial

theorem offGrid_sum (a b : Mat R) : OffGrid node (sum a b) :=
  Fails.ite trivial (offGrid_refuse rfl rfl)

theorem offGrid_vectorSum
    (v w : Vec R) :
    OffGrid node (vectorSum v w) :=
  Fails.ite trivial (offGrid_refuse rfl rfl)

theorem offGrid_product (a b : Mat R) : OffGrid node (product a b) :=
  Fails.ite trivial (offGrid_refuse rfl rfl)

theorem offGrid_vectorProduct
    (a : Mat R)
    (v : Vec R) :
    OffGrid node (vectorProduct a v) :=
  Fails.ite trivial (offGrid_refuse rfl rfl)

theorem offGrid_commutator
    (a b : Mat R) :
    OffGrid node (commutator a b) :=
  (offGrid_requireSameSquare a b _).bind fun _ => trivial

theorem offGrid_anticommutator
    (a b : Mat R) :
    OffGrid node (anticommutator a b) :=
  (offGrid_requireSameSquare a b _).bind fun _ => trivial

theorem offGrid_evolveState
    (u rho : Mat R) :
    OffGrid node (evolveState u rho) :=
  Fails.ite trivial (offGrid_refuse rfl rfl)

theorem offGrid_expectation
    (a rho : Mat R) :
    OffGrid node (expectation a rho) :=
  (offGrid_requireSameSquare a rho _).bind fun _ => trivial

theorem offGrid_exponentialOfHermitian
    (z : Scalar R)
    (a : Mat R) :
    OffGrid node (exponentialOfHermitian z a) := by
  unfold exponentialOfHermitian
  split
  · exact trivial
  · exact offGrid_refuse rfl rfl

theorem offGrid_exponential
    (a : Mat R) :
    OffGrid node (exponential a) := by
  refine (offGrid_requireSquare a _).bind fun _ => ?_
  refine Fails.ite trivial (Fails.ite ?_ (Fails.ite ?_ ?_))
  · exact offGrid_exponentialOfHermitian _ a
  · exact offGrid_exponentialOfHermitian _ _
  · exact offGrid_refuse rfl rfl

theorem offGrid_propagator
    (h : Mat R)
    (time : R) :
    OffGrid node (propagator h time) :=
  (offGrid_requireSquare h _).bind fun _ =>
    Fails.ite trivial (offGrid_exponentialOfHermitian _ h)

theorem offGrid_probabilities
    (operators : List (Mat R))
    (rho : Mat R) :
    OffGrid node (probabilities operators rho) := by
  have hWeights : OffGrid node (operators.mapM (weight rho)) :=
    Fails.mapM fun p _ =>
      (offGrid_requireSameSquare p rho _).bind fun _ => trivial
  exact hWeights.bind fun _ => trivial

end Guarded

------------------------------------------------------------
-- Evolutions
------------------------------------------------------------

theorem operates_requireAscending
    (times : List R) :
    Operates node (requireAscending times) := by
  refine Fails.ite (operates_refuse rfl) ?_
  split
  · exact operates_refuse rfl
  · exact trivial

theorem offGrid_requireAscending
    {times : List R}
    (hAscending : requireAscending times = .ok ()) :
    OffGrid node (requireAscending times) :=
  Fails.of_ok ⟨(), hAscending⟩

section Evolutions

variable {P : Fault R → Prop} {times : List R}

namespace Lindblad

/- An integration fails on its times or on its dimensions. -/
theorem fails_integrate
    (hOffGrid : ∀ fault, fault.ArisesOffGrid node → P fault)
    (hTimes : Fails P (requireAscending times))
    (system : Lindblad R)
    (rho : Mat R) :
    Fails P (system.integrate rho times) := by
  have hChannels : OffGrid node system.requireChannels :=
    Fails.forM fun channel =>
      Fails.ite trivial (offGrid_refuse rfl rfl)
  have hDimensions : OffGrid node (system.requireDimensions rho) :=
    (Guarded.offGrid_requireSquare _ _).bind fun _ =>
      Fails.ite (offGrid_refuse rfl rfl) hChannels
  exact hTimes.bind fun _ =>
    Fails.bind (hDimensions.imp_error hOffGrid) fun _ => trivial

theorem operates_integrate
    (system : Lindblad R)
    (rho : Mat R)
    (times : List R) :
    Operates node (system.integrate rho times) :=
  fails_integrate (fun _ hArises => hArises.toArises)
    (operates_requireAscending times) system rho

theorem offGrid_integrate
    (hAscending : requireAscending times = .ok ())
    (system : Lindblad R)
    (rho : Mat R) :
    OffGrid node (system.integrate rho times) :=
  fails_integrate (fun _ hArises => hArises)
    (offGrid_requireAscending hAscending) system rho

end Lindblad

namespace Unitary

theorem offGrid_ketsAfter
    (h : Mat R)
    (ket : Vec R)
    (times : List R) :
    OffGrid node (ketsAfter h ket times) := by
  induction times generalizing ket with
  | nil => exact trivial
  | cons first rest ih =>
      cases rest with
      | nil => exact trivial
      | cons second rest =>
          refine (Guarded.offGrid_propagator h _).bind fun u => ?_
          refine (Guarded.offGrid_vectorProduct u ket).bind
            fun next => ?_
          exact (ih next).bind fun _ => trivial

/- An evolution fails on its times, its dimensions or its propagators. -/
theorem fails_evolve
    (hOffGrid : ∀ fault, fault.ArisesOffGrid node → P fault)
    (hTimes : Fails P (requireAscending times))
    (h : Mat R)
    (ket : Vec R) :
    Fails P (evolve h ket times) := by
  have hDimensions : OffGrid node (requireDimensions h ket) :=
    Fails.ite trivial (offGrid_refuse rfl rfl)
  have hKets : OffGrid node (do
      requireDimensions h ket
      let later ← ketsAfter h ket times
      return ket :: later) :=
    hDimensions.bind fun _ =>
      (offGrid_ketsAfter h ket times).bind fun _ => trivial
  exact hTimes.bind fun _ => hKets.imp_error hOffGrid

theorem operates_evolve
    (h : Mat R)
    (ket : Vec R)
    (times : List R) :
    Operates node (evolve h ket times) :=
  fails_evolve (fun _ hArises => hArises.toArises)
    (operates_requireAscending times) h ket

theorem offGrid_evolve
    (hAscending : requireAscending times = .ok ())
    (h : Mat R)
    (ket : Vec R) :
    OffGrid node (evolve h ket times) :=
  fails_evolve (fun _ hArises => hArises)
    (offGrid_requireAscending hAscending) h ket

end Unitary

end Evolutions

end QuantumLab

------------------------------------------------------------
-- Operations of nodes
------------------------------------------------------------

namespace QuantumLab

variable {R : Type} [Arithmetic R] {node : NodeId}

namespace Operands

variable {values : Operands R} {operand : NodeId}

omit [Arithmetic R] in
theorem offGrid_matrix
    (hUsed : ∃ used, values operand = .ok used) :
    OffGrid node (values.matrix node operand) := by
  rcases hUsed with ⟨used, hUsed⟩
  rw [matrix, hUsed, ok_bind]
  cases used with
  | matrix a => exact trivial
  | scalar z => exact offGrid_at rfl rfl
  | vector v => exact offGrid_at rfl rfl

omit [Arithmetic R] in
theorem offGrid_vector
    (hUsed : ∃ used, values operand = .ok used) :
    OffGrid node (values.vector node operand) := by
  rcases hUsed with ⟨used, hUsed⟩
  rw [vector, hUsed, ok_bind]
  cases used with
  | vector v => exact trivial
  | scalar z => exact offGrid_at rfl rfl
  | matrix a => exact offGrid_at rfl rfl

omit [Arithmetic R] in
theorem offGrid_scalar
    (hUsed : ∃ used, values operand = .ok used) :
    OffGrid node (values.scalar node operand) := by
  rcases hUsed with ⟨used, hUsed⟩
  rw [scalar, hUsed, ok_bind]
  cases used with
  | scalar z => exact trivial
  | vector v => exact offGrid_at rfl rfl
  | matrix a => exact offGrid_at rfl rfl

theorem offGrid_density
    (hUsed : ∃ used, values operand = .ok used) :
    OffGrid node (values.density node operand) := by
  rcases hUsed with ⟨used, hUsed⟩
  rw [density, hUsed, ok_bind]
  cases used with
  | vector ket => exact trivial
  | matrix rho => exact trivial
  | scalar z => exact offGrid_at rfl rfl

end Operands

namespace Operation

theorem offGrid_computeSum
    (lhs rhs : Value R) :
    OffGrid node (computeSum node lhs rhs) := by
  unfold computeSum
  split
  · exact (Guarded.offGrid_sum _ _).map
  · exact (Guarded.offGrid_vectorSum _ _).map
  · exact trivial
  · exact offGrid_at rfl rfl

theorem offGrid_computeProduct
    (operand : NodeId)
    (a : Mat R)
    (rhs : Value R) :
    OffGrid node (computeProduct node operand a rhs) := by
  unfold computeProduct
  split
  · exact (Guarded.offGrid_product _ _).map
  · exact (Guarded.offGrid_vectorProduct _ _).map
  · exact offGrid_at rfl rfl

theorem offGrid_computeTensor
    (lhs rhs : Value R) :
    OffGrid node (computeTensor node lhs rhs) := by
  unfold computeTensor
  split
  · exact trivial
  · exact trivial
  · exact offGrid_at rfl rfl

open Operands Guarded

/- An integration whose operands have values fails on times or on values. -/
theorem fails_compute_integrateLindblad
    {values : Operands R}
    {P : Fault R → Prop}
    {hamiltonian initialState : NodeId}
    {jumps : List (Jump R)}
    {times : List R}
    (hOffGrid : ∀ fault, fault.ArisesOffGrid node → P fault)
    (hTimes : Fails P (requireAscending times))
    (hValues : ∀ operand ∈ (integrateLindblad hamiltonian initialState
      jumps times).operands, ∃ used, values operand = .ok used) :
    Fails P ((integrateLindblad hamiltonian initialState jumps
      times).compute values node) := by
  simp only [operands, List.forall_mem_cons, List.forall_mem_map]
    at hValues
  have hChannels : OffGrid node (values.channels node jumps) :=
    Fails.mapM fun jump hJump =>
      (offGrid_matrix (hValues.2.2 jump hJump)).bind
        fun _ => trivial
  refine Fails.bind ((offGrid_matrix hValues.1).imp_error hOffGrid)
    fun h => ?_
  refine Fails.bind ((offGrid_density hValues.2.1).imp_error hOffGrid)
    fun rho => ?_
  refine Fails.bind (hChannels.imp_error hOffGrid) fun channels => ?_
  exact (Lindblad.fails_integrate hOffGrid hTimes _ rho).bind
    fun _ => trivial

/- The times over which an operation integrates. -/
def grid? : Operation R → Option (List R)
  | integrateLindblad _ _ _ times => some times
  | _ => none

/-
  An operation whose operands have values, and whose times
  ascend if it has any, does not fail because of times.
-/
theorem offGrid_compute
    {values : Operands R}
    {operation : Operation R}
    (hGrid : ∀ times, operation.grid? = some times →
      requireAscending times = .ok ())
    (hValues : ∀ operand ∈ operation.operands,
      ∃ used, values operand = .ok used) :
    OffGrid node (operation.compute values node) := by
  cases operation with
  | loadMatrix name data => exact trivial
  | loadVector name data => exact trivial
  | scalar name value => exact trivial
  | matrixAdd lhs rhs =>
      simp only [operands, List.forall_mem_cons] at hValues
      exact (Fails.of_ok hValues.1).bind fun a =>
        (Fails.of_ok hValues.2.1).bind fun b =>
          offGrid_computeSum a b
  | matrixMul lhs rhs =>
      simp only [operands, List.forall_mem_cons] at hValues
      exact (offGrid_matrix hValues.1).bind fun a =>
        (Fails.of_ok hValues.2.1).bind fun b =>
          offGrid_computeProduct rhs a b
  | scalarMul factor operand =>
      simp only [operands, List.forall_mem_cons] at hValues
      exact (offGrid_scalar hValues.1).bind fun _ =>
        (Fails.of_ok hValues.2.1).bind fun _ => trivial
  | tensorProduct lhs rhs =>
      simp only [operands, List.forall_mem_cons] at hValues
      exact (Fails.of_ok hValues.1).bind fun a =>
        (Fails.of_ok hValues.2.1).bind fun b =>
          offGrid_computeTensor a b
  | dagger operand =>
      simp only [operands, List.forall_mem_cons] at hValues
      exact (Fails.of_ok hValues.1).bind fun _ => trivial
  | trace operand =>
      simp only [operands, List.forall_mem_cons] at hValues
      exact (offGrid_matrix hValues.1).bind fun a =>
        (offGrid_trace a).map
  | commutator lhs rhs =>
      simp only [operands, List.forall_mem_cons] at hValues
      exact (offGrid_matrix hValues.1).bind fun a =>
        (offGrid_matrix hValues.2.1).bind fun b =>
          (offGrid_commutator a b).map
  | matrixExp operand =>
      simp only [operands, List.forall_mem_cons] at hValues
      exact (offGrid_matrix hValues.1).bind fun a =>
        (offGrid_exponential a).map
  | unitaryPropagator hamiltonian time =>
      simp only [operands, List.forall_mem_cons] at hValues
      exact (offGrid_matrix hValues.1).bind fun h =>
        (offGrid_propagator h time).map
  | applyUnitaryKet unitary ket =>
      simp only [operands, List.forall_mem_cons] at hValues
      exact (offGrid_matrix hValues.1).bind fun u =>
        (offGrid_vector hValues.2.1).bind fun v =>
          (offGrid_vectorProduct u v).map
  | applyUnitaryRho unitary rho =>
      simp only [operands, List.forall_mem_cons] at hValues
      exact (offGrid_matrix hValues.1).bind fun u =>
        (offGrid_matrix hValues.2.1).bind fun a =>
          (offGrid_evolveState u a).map
  | integrateLindblad hamiltonian initialState jumps times =>
      exact fails_compute_integrateLindblad (fun _ hArises => hArises)
        (offGrid_requireAscending (hGrid times rfl)) hValues
  | measureExpectation observable state =>
      simp only [operands, List.forall_mem_cons] at hValues
      exact (offGrid_matrix hValues.1).bind fun a =>
        (offGrid_density hValues.2.1).bind fun rho =>
          (offGrid_expectation a rho).map
  | measureProjective projectors state =>
      simp only [operands, List.forall_mem_append, List.forall_mem_cons]
        at hValues
      have hProjectors :
          OffGrid node (projectors.mapM (values.matrix node)) :=
        Fails.mapM fun projector hProjector =>
          offGrid_matrix (hValues.1 projector hProjector)
      exact hProjectors.bind fun ps =>
        (offGrid_density hValues.2.1).bind fun rho =>
          (offGrid_probabilities ps rho).bind fun _ => trivial

/-
  An operation whose operands have values fails for a reason
  of its own: a fault that names a node names its own.
-/
theorem operates_compute
    {values : Operands R}
    {operation : Operation R}
    (hValues : ∀ operand ∈ operation.operands,
      ∃ used, values operand = .ok used) :
    Operates node (operation.compute values node) := by
  cases operation with
  | integrateLindblad hamiltonian initialState jumps times =>
      exact fails_compute_integrateLindblad
        (fun _ hArises => hArises.toArises)
        (operates_requireAscending times) hValues
  | _ =>
      refine (offGrid_compute ?_ hValues).operates
      intro times hGrid
      cases hGrid

end Operation

end QuantumLab
