import Mathlib.Algebra.Algebra.Bilinear
import Mathlib.Tactic.Module
import QuantumLab.Proofs.Exact.Matrices
import QuantumLab.Proofs.Execution.Experiments

/-
  This file reads the motion of an open system in exact
  arithmetic as linear algebra.  The derivative of a density
  matrix is the value of a linear map, the generator, and a
  step of the integrator applies the exponential series of
  that map, cut off after the fourth power.

  Key definitions include:
    * `Superoperator`
    * `Channel.dissipation`
    * `Lindblad.generator`
    * `Lindblad.propagator`
    * `Lindblad.HasDimension`

  Main statements:
    * `Lindblad.toMatrix_derivative` says that derivatives
      are the values of the generator.
    * `Lindblad.toMatrix_step` says that a step applies the
      propagator.
    * `Lindblad.integrate_eq_ok_iff` says which systems and
      states are integrated, and to what.
-/

------------------------------------------------------------
-- Generators
------------------------------------------------------------

namespace QuantumLab

open Matrix

/- The linear maps of square matrices to square matrices. -/
abbrev Superoperator (n : Nat) :=
  Module.End ℂ (Matrix (Fin n) (Fin n) ℂ)

/- What a channel adds to the derivative, as a linear map. -/
noncomputable def Channel.dissipation
    (channel : Channel ℝ)
    (n : Nat) : Superoperator n :=
  let jump := channel.operator.toMatrix n n
  let counter := jumpᴴ * jump
  (channel.rate : ℂ) •
    (LinearMap.mulLeft ℂ jump * LinearMap.mulRight ℂ jumpᴴ
      - (1 / 2 : ℂ) •
        (LinearMap.mulLeft ℂ counter + LinearMap.mulRight ℂ counter))

namespace Lindblad

/-
  The generator of a system: the commutator with the
  Hamiltonian, and the sum of what the channels add.
-/
noncomputable def generator
    (system : Lindblad ℝ)
    (n : Nat) : Superoperator n :=
  let axis := system.hamiltonian.toMatrix n n
  (-Complex.I) •
      (LinearMap.mulLeft ℂ axis - LinearMap.mulRight ℂ axis)
    + (system.channels.map fun channel => channel.dissipation n).sum

/-
  The exponential series of the generator over a time, cut
  off after the fourth power.
-/
noncomputable def propagator
    (system : Lindblad ℝ)
    (n : Nat)
    (dt : ℝ) : Superoperator n :=
  ∑ k ∈ Finset.range 5,
    ((dt ^ k / k.factorial : ℝ) : ℂ) • system.generator n ^ k

/- The operators of a system have `n` rows and columns. -/
structure HasDimension (system : Lindblad ℝ) (n : Nat) : Prop where
  hamiltonian : system.hamiltonian.HasExtents n n
  jumps : ∀ channel ∈ system.channels, channel.operator.HasExtents n n

end Lindblad

end QuantumLab

------------------------------------------------------------
-- Values of generators
------------------------------------------------------------

namespace QuantumLab

open Matrix

variable {n : Nat}

theorem Channel.dissipation_apply
    (channel : Channel ℝ)
    (x : Matrix (Fin n) (Fin n) ℂ) :
    channel.dissipation n x =
      (channel.rate : ℂ) •
        (channel.operator.toMatrix n n * x
            * (channel.operator.toMatrix n n)ᴴ
          - (1 / 2 : ℂ) •
            ((channel.operator.toMatrix n n)ᴴ
                * channel.operator.toMatrix n n * x
              + x * ((channel.operator.toMatrix n n)ᴴ
                * channel.operator.toMatrix n n))) := by
  rw [Matrix.mul_assoc (channel.operator.toMatrix n n)]
  rfl

namespace Lindblad

theorem generator_apply
    (system : Lindblad ℝ)
    (x : Matrix (Fin n) (Fin n) ℂ) :
    system.generator n x =
      (-Complex.I) •
          (system.hamiltonian.toMatrix n n * x
            - x * system.hamiltonian.toMatrix n n)
        + (system.channels.map fun channel =>
            channel.dissipation n x).sum := by
  have hSum := map_list_sum (LinearMap.applyₗ x)
    (system.channels.map fun channel => channel.dissipation n)
  rw [List.map_map] at hSum
  rw [generator, LinearMap.add_apply]
  exact congrArg _ hSum

/- Powers of the generator apply it repeatedly. -/
theorem generator_pow_succ
    (system : Lindblad ℝ)
    (k : Nat)
    (x : Matrix (Fin n) (Fin n) ℂ) :
    (system.generator n ^ (k + 1)) x =
      system.generator n ((system.generator n ^ k) x) := by
  rw [pow_succ', Module.End.mul_apply]

/- A propagator adds multiples of what the generator makes of a state. -/
theorem propagator_eq_add
    (system : Lindblad ℝ)
    (dt : ℝ)
    (x : Matrix (Fin n) (Fin n) ℂ) :
    system.propagator n dt x =
      x + ∑ k ∈ Finset.range 4,
        ((dt ^ (k + 1) / (k + 1).factorial : ℝ) : ℂ) •
          system.generator n ((system.generator n ^ k) x) := by
  rw [propagator, Finset.sum_range_succ', LinearMap.add_apply,
    LinearMap.sum_apply, add_comm]
  simp only [LinearMap.smul_apply, generator_pow_succ]
  simp

end Lindblad

end QuantumLab

------------------------------------------------------------
-- Derivatives
------------------------------------------------------------

namespace QuantumLab

open Matrix

variable
  {system : Lindblad ℝ}
  {rho : Mat ℝ}
  {n : Nat}

/- The dissipator of a channel is the value of a linear map. -/
theorem Mat.toMatrix_dissipator
    {channel : Channel ℝ}
    (hJump : channel.operator.HasExtents n n)
    (hState : rho.HasExtents n n) :
    (Lindblad.dissipator channel rho).toMatrix n n =
      channel.dissipation n (rho.toMatrix n n) := by
  have hDagger := hJump.dagger
  have hCounter := hDagger.mul hJump
  have hGain := (hJump.mul hState).mul hDagger
  have hLoss := (hCounter.mul hState).add (b := rho *
    (channel.operator.dagger * channel.operator))
  rw [Lindblad.dissipator, toMatrix_scaleReal hGain.sub,
    toMatrix_sub hGain, toMatrix_scaleReal hLoss,
    toMatrix_add (hCounter.mul hState), toMatrix_mul hCounter hState,
    toMatrix_mul hState hCounter, toMatrix_mul hDagger hJump,
    toMatrix_mul (hJump.mul hState) hDagger, toMatrix_mul hJump hState,
    toMatrix_dagger hJump, Channel.dissipation_apply]
  norm_num

namespace Lindblad

theorem hasExtents_foldl_dissipator
    {channels : List (Channel ℝ)}
    {start : Mat ℝ}
    (hStart : start.HasExtents n n) :
    (channels.foldl (fun total channel => total + dissipator channel rho)
      start).HasExtents n n := by
  induction channels generalizing start with
  | nil => exact hStart
  | cons channel rest ih => exact ih hStart.add

/- The channels of a system are added up one by one. -/
theorem toMatrix_foldl_dissipator
    {channels : List (Channel ℝ)}
    {start : Mat ℝ}
    (hJumps : ∀ channel ∈ channels, channel.operator.HasExtents n n)
    (hState : rho.HasExtents n n)
    (hStart : start.HasExtents n n) :
    (channels.foldl (fun total channel => total + dissipator channel rho)
      start).toMatrix n n =
        start.toMatrix n n +
          (channels.map fun channel =>
            channel.dissipation n (rho.toMatrix n n)).sum := by
  induction channels generalizing start with
  | nil => simp
  | cons channel rest ih =>
      rcases List.forall_mem_cons.1 hJumps with ⟨hFirst, hRest⟩
      rw [List.foldl_cons, ih hRest hStart.add, Mat.toMatrix_add hStart,
        Mat.toMatrix_dissipator hFirst hState, List.map_cons,
        List.sum_cons, add_assoc]

theorem hasExtents_derivative
    (hSystem : system.HasDimension n)
    (hState : rho.HasExtents n n) :
    (system.derivative rho).HasExtents n n :=
  hasExtents_foldl_dissipator
    ((hSystem.hamiltonian.mul hState).sub.scale _)

/- The derivative of a state is the value of the generator. -/
theorem toMatrix_derivative
    (hSystem : system.HasDimension n)
    (hState : rho.HasExtents n n) :
    (system.derivative rho).toMatrix n n =
      system.generator n (rho.toMatrix n n) := by
  have hLeft := hSystem.hamiltonian.mul hState
  have hMotion : (system.hamiltonian.commutator rho).HasExtents n n :=
    hLeft.sub
  rw [derivative, toMatrix_foldl_dissipator hSystem.jumps hState
      (hMotion.scale _), Mat.toMatrix_scale hMotion, Mat.commutator,
    Mat.toMatrix_sub hLeft, Mat.toMatrix_mul hSystem.hamiltonian hState,
    Mat.toMatrix_mul hState hSystem.hamiltonian, Scalar.toComplex_neg_i,
    generator_apply]

/- The derivative of a state that was moved along another matrix. -/
theorem toMatrix_derivative_add
    {slope : Mat ℝ}
    (hSystem : system.HasDimension n)
    (hState : rho.HasExtents n n)
    (hSlope : slope.HasExtents n n)
    (r : ℝ) :
    (system.derivative (rho + slope.scaleReal r)).toMatrix n n =
      system.generator n
        (rho.toMatrix n n + (r : ℂ) • slope.toMatrix n n) := by
  rw [toMatrix_derivative hSystem hState.add, Mat.toMatrix_add hState,
    Mat.toMatrix_scaleReal hSlope]

/-
  The four stages of a step add up to a propagator: the
  generator is linear, so that every stage is a polynomial
  in it.
-/
theorem propagator_apply
    (system : Lindblad ℝ)
    (n : Nat)
    (dt : ℝ)
    (x : Matrix (Fin n) (Fin n) ℂ) :
    system.propagator n dt x =
      let g := system.generator n
      let k1 := g x
      let k2 := g (x + ((0.5 * dt : ℝ) : ℂ) • k1)
      let k3 := g (x + ((0.5 * dt : ℝ) : ℂ) • k2)
      let k4 := g (x + (dt : ℂ) • k3)
      x + ((dt / 6.0 : ℝ) : ℂ) •
        (k1 + ((2.0 : ℝ) : ℂ) • k2 +
          ((2.0 : ℝ) : ℂ) • k3 + k4) := by
  simp only [propagator, Finset.sum_range_succ, Finset.range_zero,
    Finset.sum_empty, LinearMap.add_apply, LinearMap.smul_apply,
    map_add, map_smul, pow_succ, pow_zero, Module.End.mul_apply,
    Module.End.one_apply, LinearMap.zero_apply, Nat.factorial]
  push_cast
  match_scalars <;> norm_num <;> ring

/- A step applies the propagator of its length. -/
theorem toMatrix_step
    (hSystem : system.HasDimension n)
    (hState : rho.HasExtents n n)
    (dt : ℝ) :
    (system.step rho dt).toMatrix n n =
      system.propagator n dt (rho.toMatrix n n) := by
  let k1 := system.derivative rho
  let k2 := system.derivative (rho + Mat.scaleReal (0.5 * dt) k1)
  let k3 := system.derivative (rho + Mat.scaleReal (0.5 * dt) k2)
  let k4 := system.derivative (rho + Mat.scaleReal dt k3)
  have hFirst : k1.HasExtents n n := hasExtents_derivative hSystem hState
  have hSecond : k2.HasExtents n n :=
    hasExtents_derivative hSystem hState.add
  have hThird : k3.HasExtents n n :=
    hasExtents_derivative hSystem hState.add
  have hK1 := toMatrix_derivative hSystem hState
  have hK2 := toMatrix_derivative_add hSystem hState hFirst (0.5 * dt)
  have hK3 := toMatrix_derivative_add hSystem hState hSecond (0.5 * dt)
  have hK4 := toMatrix_derivative_add hSystem hState hThird dt
  change (rho + Mat.scaleReal (dt / 6.0)
    (k1 + Mat.scaleReal 2.0 k2 + Mat.scaleReal 2.0 k3 + k4)).toMatrix n n =
      _
  rw [Mat.toMatrix_add hState, Mat.toMatrix_scaleReal hFirst.add.add.add,
    Mat.toMatrix_add hFirst.add.add, Mat.toMatrix_add hFirst.add,
    Mat.toMatrix_add hFirst, Mat.toMatrix_scaleReal hSecond,
    Mat.toMatrix_scaleReal hThird, hK4, hK3, hK2, hK1]
  exact (propagator_apply system n dt (rho.toMatrix n n)).symm

end Lindblad

end QuantumLab

------------------------------------------------------------
-- Systems that are integrated
------------------------------------------------------------

namespace QuantumLab

theorem Mat.hasExtents_iff_shape
    {a : Mat ℝ}
    {n m : Nat} :
    a.HasExtents n m ↔ a.shape = .matrix n m := by
  constructor
  · intro hExtents
    rw [shape, hExtents.rows, hExtents.cols]
  · intro hShape
    rcases Shape.matrix.inj hShape with ⟨hRows, hCols⟩
    exact ⟨hRows, hCols⟩

namespace Lindblad

variable
  {system : Lindblad ℝ}
  {rho : Mat ℝ}
  {times : List ℝ}
  {states : List (Mat ℝ)}

/- A step keeps the extents of a state. -/
theorem hasExtents_step
    {n : Nat}
    (hState : rho.HasExtents n n)
    (dt : ℝ) :
    (system.step rho dt).HasExtents n n :=
  hState.add

/- What is integrated are square matrices of one dimension. -/
theorem requireDimensions_eq_ok_iff_exists :
    system.requireDimensions rho = .ok () ↔
      ∃ n, system.HasDimension n ∧ rho.HasExtents n n := by
  rw [requireDimensions_eq_ok_iff]
  constructor
  · rintro ⟨hSquare, hSame, hJumps⟩
    have hHamiltonian : system.hamiltonian.HasExtents
        system.hamiltonian.rows system.hamiltonian.rows :=
      ⟨rfl, hSquare.symm⟩
    have hShape := Mat.hasExtents_iff_shape.1 hHamiltonian
    refine ⟨system.hamiltonian.rows, ⟨hHamiltonian, ?_⟩,
      Mat.hasExtents_iff_shape.2 (hSame.trans hShape)⟩
    intro channel hMember
    exact Mat.hasExtents_iff_shape.2 ((hJumps channel hMember).trans hShape)
  · rintro ⟨n, hSystem, hState⟩
    have hShape := Mat.hasExtents_iff_shape.1 hSystem.hamiltonian
    refine ⟨hSystem.hamiltonian.rows.trans
      hSystem.hamiltonian.cols.symm,
      (Mat.hasExtents_iff_shape.1 hState).trans hShape.symm, ?_⟩
    intro channel hMember
    rw [Mat.hasExtents_iff_shape.1 (hSystem.jumps channel hMember), hShape]

/-
  An integration succeeds if the times ascend and all
  matrices have one dimension.
-/
theorem integrate_eq_ok_iff :
    system.integrate rho times = .ok states ↔
      requireAscending times = .ok () ∧
        (∃ n, system.HasDimension n ∧ rho.HasExtents n n) ∧
          rho :: system.statesAfter rho times = states := by
  rw [integrate, unit_bind_eq_ok_iff, unit_bind_eq_ok_iff,
    requireDimensions_eq_ok_iff_exists, pure_eq_ok_iff]

/- The states of a trajectory have the extents of the first one. -/
theorem hasExtents_of_integrate
    {n : Nat}
    (hIntegrate : system.integrate rho times = .ok states)
    (hState : rho.HasExtents n n) :
    ∀ state ∈ states, state.HasExtents n n := by
  rcases integrate_eq_ok_iff.1 hIntegrate with ⟨_, _, hStates⟩
  rw [← hStates, List.forall_mem_cons]
  exact ⟨hState, forall_statesAfter
    (fun _ dt hExtents => hasExtents_step hExtents dt) hState⟩

end Lindblad

end QuantumLab
