import QuantumLab.Proofs.Exact.Generator

/-
  This file proves that the integration of an open system
  commutes with the conjugate transpose, and so keeps its
  states Hermitian.  In exact arithmetic the generator of a
  system with a Hermitian Hamiltonian commutes with it,
  whatever the jump operators are, and a step adds real
  multiples of powers of the generator.

  Key definitions include:
    * `Mat.SelfAdjoint`
    * `Lindblad.ActsOn`

  Main statements:
    * `Lindblad.ActsOn.generator_conjTranspose` says that
      derivatives commute with the conjugate transpose.
    * `Lindblad.ActsOn.step_dagger` says the same of a step,
      and `Lindblad.integrate_dagger` of a trajectory.
    * `Lindblad.selfAdjoint_integrate` says that the states
      of a trajectory are Hermitian if the first one is.
-/

------------------------------------------------------------
-- Hermitian matrices
------------------------------------------------------------

namespace QuantumLab

open Matrix

namespace Mat

/- A Hermitian matrix of `n` rows and columns. -/
structure SelfAdjoint (a : Mat ℝ) (n : Nat) : Prop where
  extents : a.HasExtents n n
  hermitian : (a.toMatrix n n).IsHermitian

/- The density matrix of a ket is Hermitian. -/
theorem selfAdjoint_outer
    {ket : Vec ℝ}
    {n : Nat}
    (hSize : ket.size = n) :
    (outer ket ket).SelfAdjoint n where
  extents := hasExtents_outer hSize
  hermitian := by
    rw [toMatrix_outer hSize, Matrix.IsHermitian,
      Matrix.conjTranspose_vecMulVec, star_star]

/- A matrix is Hermitian if it is its own conjugate transpose. -/
theorem selfAdjoint_iff_dagger
    {a : Mat ℝ}
    {n : Nat}
    (hExtents : a.HasExtents n n) :
    a.SelfAdjoint n ↔ a.dagger = a := by
  constructor
  · intro hAdjoint
    apply ext_toMatrix hExtents.dagger hExtents
    rw [toMatrix_dagger hExtents, hAdjoint.hermitian.eq]
  · intro hSame
    refine ⟨hExtents, ?_⟩
    rw [Matrix.IsHermitian, ← toMatrix_dagger hExtents, hSame]

end Mat

end QuantumLab

------------------------------------------------------------
-- Conjugate transposes of derivatives
------------------------------------------------------------

namespace QuantumLab

open Matrix

variable {n : Nat}

/- Dissipation commutes with the conjugate transpose. -/
theorem Channel.dissipation_conjTranspose
    (channel : Channel ℝ)
    (x : Matrix (Fin n) (Fin n) ℂ) :
    channel.dissipation n xᴴ = (channel.dissipation n x)ᴴ := by
  rw [dissipation_apply, dissipation_apply]
  simp [Matrix.mul_assoc, add_comm]

namespace Lindblad

/- A Hermitian Hamiltonian and jump operators of its extents. -/
structure ActsOn (system : Lindblad ℝ) (n : Nat) : Prop where
  hamiltonian : system.hamiltonian.SelfAdjoint n
  jumps : ∀ channel ∈ system.channels, channel.operator.HasExtents n n

namespace ActsOn

variable {system : Lindblad ℝ}

theorem hasDimension
    (hSystem : system.ActsOn n) :
    system.HasDimension n :=
  ⟨hSystem.hamiltonian.extents, hSystem.jumps⟩

/-
  The generator commutes with the conjugate transpose.  In
  the commutator with the Hamiltonian, the change of order
  makes up for the conjugate of the imaginary unit.
-/
theorem generator_conjTranspose
    (hSystem : system.ActsOn n)
    (x : Matrix (Fin n) (Fin n) ℂ) :
    system.generator n xᴴ = (system.generator n x)ᴴ := by
  have hMotion :
      (-Complex.I) • (system.hamiltonian.toMatrix n n * xᴴ -
          xᴴ * system.hamiltonian.toMatrix n n) =
        ((-Complex.I) • (system.hamiltonian.toMatrix n n * x -
          x * system.hamiltonian.toMatrix n n))ᴴ := by
    rw [Matrix.conjTranspose_smul, Matrix.conjTranspose_sub,
      Matrix.conjTranspose_mul, Matrix.conjTranspose_mul,
      hSystem.hamiltonian.hermitian.eq, star_neg, Complex.star_def,
      Complex.conj_I, neg_neg, ← neg_sub, smul_neg, neg_smul,
      neg_neg]
  have hChannels :
      (system.channels.map fun channel => channel.dissipation n xᴴ).sum =
        (system.channels.map fun channel =>
          channel.dissipation n x).sumᴴ := by
    rw [Matrix.conjTranspose_list_sum, List.map_map]
    congr 1
    exact List.map_congr_left fun channel _ =>
      channel.dissipation_conjTranspose x
  rw [generator_apply, generator_apply, hMotion, hChannels,
    Matrix.conjTranspose_add]

/- The coefficients of the exponential series are real. -/
theorem propagator_conjTranspose
    (hSystem : system.ActsOn n)
    (dt : ℝ)
    (x : Matrix (Fin n) (Fin n) ℂ) :
    system.propagator n dt xᴴ = (system.propagator n dt x)ᴴ := by
  have hPower (k : Nat) : (system.generator n ^ k) xᴴ =
      ((system.generator n ^ k) x)ᴴ := by
    induction k with
    | zero => rfl
    | succ k ih =>
        rw [generator_pow_succ, generator_pow_succ, ih,
          hSystem.generator_conjTranspose]
  rw [propagator_eq_add, propagator_eq_add, Matrix.conjTranspose_add,
    Matrix.conjTranspose_sum]
  congr 1
  refine Finset.sum_congr rfl fun k _ => ?_
  rw [hPower, hSystem.generator_conjTranspose, Matrix.conjTranspose_smul,
    Complex.star_def, Complex.conj_ofReal]

end ActsOn

end Lindblad

end QuantumLab

------------------------------------------------------------
-- Conjugate transposes of trajectories
------------------------------------------------------------

namespace QuantumLab

namespace Lindblad

variable
  {system : Lindblad ℝ}
  {rho : Mat ℝ}
  {times : List ℝ}
  {states : List (Mat ℝ)}
  {n : Nat}

/- A step commutes with the conjugate transpose. -/
theorem ActsOn.step_dagger
    (hSystem : system.ActsOn n)
    (hState : rho.HasExtents n n)
    (dt : ℝ) :
    system.step rho.dagger dt = (system.step rho dt).dagger := by
  have hNext : (system.step rho dt).HasExtents n n :=
    hasExtents_step hState dt
  apply Mat.ext_toMatrix (hasExtents_step hState.dagger dt) hNext.dagger
  rw [toMatrix_step hSystem.hasDimension hState.dagger,
    Mat.toMatrix_dagger hState, hSystem.propagator_conjTranspose,
    Mat.toMatrix_dagger hNext, toMatrix_step hSystem.hasDimension hState]

/-
  A system that is integrated acts on the space of its first
  state.
-/
theorem actsOn_of_integrate
    {k : Nat}
    (hIntegrate : system.integrate rho times = .ok states)
    (hHamiltonian : system.hamiltonian.SelfAdjoint k) :
    system.ActsOn k ∧ rho.HasExtents k k := by
  rcases integrate_eq_ok_iff.1 hIntegrate with
    ⟨_, ⟨n, hSystem, hState⟩, _⟩
  have hDimension : n = k := by
    rw [← hSystem.hamiltonian.rows, hHamiltonian.extents.rows]
  subst hDimension
  exact ⟨⟨hHamiltonian, hSystem.jumps⟩, hState⟩

/- A trajectory commutes with the conjugate transpose. -/
theorem integrate_dagger
    {k : Nat}
    (hIntegrate : system.integrate rho times = .ok states)
    (hHamiltonian : system.hamiltonian.SelfAdjoint k) :
    system.integrate rho.dagger times = .ok (states.map Mat.dagger) := by
  rcases actsOn_of_integrate hIntegrate hHamiltonian with
    ⟨hSystem, hState⟩
  rcases integrate_eq_ok_iff.1 hIntegrate with ⟨hAscending, _, hStates⟩
  have hLater : system.statesAfter rho.dagger times =
      (system.statesAfter rho times).map Mat.dagger :=
    statesAfter_map (fun _ dt hFits => hasExtents_step hFits dt)
      (fun _ dt hFits => hSystem.step_dagger hFits dt) hState
  refine integrate_eq_ok_iff.2 ⟨hAscending,
    ⟨k, hSystem.hasDimension, hState.dagger⟩, ?_⟩
  rw [← hStates, List.map_cons, hLater]

/- A trajectory from a Hermitian state is its own conjugate transpose. -/
theorem dagger_eq_of_integrate
    {k : Nat}
    (hIntegrate : system.integrate rho times = .ok states)
    (hHamiltonian : system.hamiltonian.SelfAdjoint k)
    (hState : rho.dagger = rho) :
    ∀ state ∈ states, state.dagger = state := by
  have hDagger := integrate_dagger hIntegrate hHamiltonian
  rw [hState, hIntegrate, Except.ok.injEq] at hDagger
  exact List.map_inj_left.1 (hDagger.symm.trans (List.map_id states).symm)

/- Every state of a trajectory is Hermitian if the first one is. -/
theorem selfAdjoint_integrate
    {k : Nat}
    (hIntegrate : system.integrate rho times = .ok states)
    (hHamiltonian : system.hamiltonian.SelfAdjoint k)
    (hState : rho.SelfAdjoint n) :
    ∀ state ∈ states, state.SelfAdjoint n := by
  have hExtents := hasExtents_of_integrate hIntegrate hState.extents
  have hDagger := dagger_eq_of_integrate hIntegrate hHamiltonian
    ((Mat.selfAdjoint_iff_dagger hState.extents).1 hState)
  intro state hMember
  exact (Mat.selfAdjoint_iff_dagger (hExtents state hMember)).2
    (hDagger state hMember)

end Lindblad

end QuantumLab
