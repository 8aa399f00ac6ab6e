import Mathlib.Tactic.IntervalCases
import QuantumLab.Proofs.Exact.Expectation
import QuantumLab.Proofs.Execution.Verification

/-
  This file says what the integration of an open system does
  to a state in exact arithmetic: it keeps its trace, it
  keeps it Hermitian, and it takes superpositions of states
  to superpositions of trajectories.  A state that commutes
  with the Hamiltonian of a system without channels stays.

  Key definitions include:
    * `Mat.superposition`

  Main statements:
    * `Lindblad.trace_conserved` says that derivatives have
      no trace and that trajectories keep theirs.
    * `Lindblad.trajectory_hermitian` says what a trajectory
      makes of conjugate transposes and of Hermitian states.
    * `Lindblad.integrate_linear` says that trajectories are
      linear in their first state, and which ones stand
      still.
-/

------------------------------------------------------------
-- Traces
------------------------------------------------------------

namespace QuantumLab

open Matrix

variable
  {system : Lindblad ℝ}
  {rho : Mat ℝ}
  {times : List ℝ}
  {states : List (Mat ℝ)}
  {n : Nat}

/- What a channel takes from the trace is what it adds to it. -/
theorem Channel.trace_dissipation
    (channel : Channel ℝ)
    (x : Matrix (Fin n) (Fin n) ℂ) :
    (channel.dissipation n x).trace = 0 := by
  have hGain := Matrix.trace_mul_cycle (channel.operator.toMatrix n n) x
    (channel.operator.toMatrix n n)ᴴ
  have hLoss := Matrix.trace_mul_comm x
    ((channel.operator.toMatrix n n)ᴴ * channel.operator.toMatrix n n)
  rw [dissipation_apply, Matrix.trace_smul, Matrix.trace_sub,
    Matrix.trace_smul, Matrix.trace_add, hGain, hLoss]
  simp only [smul_eq_mul]
  ring

namespace Lindblad

/- A commutator has no trace, and no channel adds to it. -/
theorem trace_generator
    (system : Lindblad ℝ)
    (x : Matrix (Fin n) (Fin n) ℂ) :
    (system.generator n x).trace = 0 := by
  have hMotion := Matrix.trace_mul_comm
    (system.hamiltonian.toMatrix n n) x
  rw [generator_apply, Matrix.trace_add, Matrix.trace_smul,
    Matrix.trace_sub, hMotion, sub_self, smul_zero, zero_add,
    Matrix.trace_list_sum, List.map_map]
  apply List.sum_eq_zero
  intro z hMember
  rcases List.mem_map.1 hMember with ⟨channel, _, rfl⟩
  exact channel.trace_dissipation x

theorem trace_propagator
    (system : Lindblad ℝ)
    (dt : ℝ)
    (x : Matrix (Fin n) (Fin n) ℂ) :
    (system.propagator n dt x).trace = x.trace := by
  rw [propagator_eq_add, Matrix.trace_add, Matrix.trace_sum]
  simp [trace_generator]

/- A derivative has no trace. -/
theorem trace_derivative
    (hSystem : system.HasDimension n)
    (hState : rho.HasExtents n n) :
    (system.derivative rho).trace = Scalar.zero := by
  apply Scalar.toComplex_injective
  rw [Mat.toComplex_trace (hasExtents_derivative hSystem hState).rows,
    toMatrix_derivative hSystem hState, trace_generator,
    Scalar.toComplex_zero]

/- A step keeps the trace. -/
theorem trace_step
    (hSystem : system.HasDimension n)
    (hState : rho.HasExtents n n)
    (dt : ℝ) :
    (system.step rho dt).trace = rho.trace := by
  apply Scalar.toComplex_injective
  rw [Mat.toComplex_trace (hasExtents_step hState dt).rows,
    toMatrix_step hSystem hState, trace_propagator,
    Mat.toComplex_trace hState.rows]

/- All states of a trajectory have the trace of the first one. -/
theorem trace_of_integrate
    (hIntegrate : system.integrate rho times = .ok states) :
    ∀ state ∈ states, state.trace = rho.trace := by
  rcases integrate_eq_ok_iff.1 hIntegrate with
    ⟨_, ⟨n, hSystem, hState⟩, hStates⟩
  have hLater : ∀ state ∈ system.statesAfter rho times,
      state.HasExtents n n ∧ state.trace = rho.trace :=
    forall_statesAfter
      (fun state dt hKept => ⟨hasExtents_step hKept.1 dt,
        (trace_step hSystem hKept.1 dt).trans hKept.2⟩) ⟨hState, rfl⟩
  rw [← hStates, List.forall_mem_cons]
  exact ⟨rfl, fun state hMember => (hLater state hMember).2⟩

/-
  The trace is conserved.  Where a system is integrated, the
  derivative of every matrix of its dimension has trace
  zero, and every state of the trajectory is a square matrix
  with the trace of the first state, for all Hamiltonians,
  jump operators, rates and times.
-/
theorem trace_conserved
    (hIntegrate : system.integrate rho times = .ok states) :
    (∀ sigma : Mat ℝ, sigma.shape = system.hamiltonian.shape →
      Guarded.trace (system.derivative sigma) = .ok Scalar.zero) ∧
      states.length = times.length ∧
        ∀ state ∈ states, Guarded.trace state = .ok rho.trace := by
  rcases integrate_eq_ok_iff.1 hIntegrate with
    ⟨_, ⟨n, hSystem, hState⟩, _⟩
  refine ⟨?_, length_integrate hIntegrate, ?_⟩
  · intro sigma hShape
    rw [Mat.hasExtents_iff_shape.1 hSystem.hamiltonian] at hShape
    have hSigma := Mat.hasExtents_iff_shape.2 hShape
    have hExtents := hasExtents_derivative hSystem hSigma
    exact Guarded.trace_eq_ok_iff.2
      ⟨hExtents.rows.trans hExtents.cols.symm,
        trace_derivative hSystem hSigma⟩
  · intro state hMember
    have hExtents := hasExtents_of_integrate hIntegrate hState state hMember
    exact Guarded.trace_eq_ok_iff.2
      ⟨hExtents.rows.trans hExtents.cols.symm,
        trace_of_integrate hIntegrate state hMember⟩

/- A spin that turns around an axis and decays across it. -/
noncomputable def drivenSpin : Lindblad ℝ :=
  ⟨Predefined.pauliX, [⟨Plan.lowering, 1⟩]⟩

theorem ascending_uneven :
    requireAscending [(0 : ℝ), 1 / 2, 2] = .ok () := by
  norm_num [requireAscending, firstUnordered?, firstUnorderedFrom?]

theorem hasDimension_drivenSpin : drivenSpin.HasDimension 2 where
  hamiltonian := ⟨rfl, rfl⟩
  jumps := by
    intro channel hMember
    cases List.mem_singleton.1 hMember
    exact ⟨rfl, rfl⟩

/- The driven spin has a trajectory from each of its basis states. -/
theorem exists_trajectory_drivenSpin
    (k : Fin 2) :
    ∃ states, drivenSpin.integrate (Plan.basisProjector k)
      [0, 1 / 2, 2] = .ok states :=
  ⟨_, integrate_eq_ok_iff.2 ⟨ascending_uneven,
    ⟨2, hasDimension_drivenSpin, rfl, rfl⟩, rfl⟩⟩

theorem trace_basisProjector
    (k : Fin 2) :
    (Plan.basisProjector k).trace = Scalar.one := by
  apply Scalar.toComplex_injective
  rw [Mat.toComplex_trace (Plan.projects_basisProjector k).extents.rows,
    Plan.toMatrix_basisProjector, Matrix.trace_single_eq_same,
    Scalar.toComplex_one]

/- The driven spin keeps the trace of its state. -/
theorem trace_conserved_drivenSpin :
    ∃ states, drivenSpin.integrate (Plan.basisProjector 1) [0, 1 / 2, 2] =
        .ok states ∧
      Guarded.trace (drivenSpin.derivative Plan.lowering) =
        .ok Scalar.zero ∧
      states.length = 3 ∧
      ∀ state ∈ states, Guarded.trace state = .ok Scalar.one := by
  rcases exists_trajectory_drivenSpin 1 with ⟨states, hIntegrate⟩
  rcases trace_conserved hIntegrate with ⟨hDerivative, hLength, hStates⟩
  rw [trace_basisProjector] at hStates
  exact ⟨states, hIntegrate, hDerivative Plan.lowering rfl, hLength,
    hStates⟩

end Lindblad

end QuantumLab

------------------------------------------------------------
-- Hermitian states
------------------------------------------------------------

namespace QuantumLab

namespace Lindblad

variable
  {system : Lindblad ℝ}
  {rho : Mat ℝ}
  {times : List ℝ}
  {states : List (Mat ℝ)}

/-
  The integration of an open system commutes with the
  conjugate transpose if its Hamiltonian is Hermitian,
  whatever the jump operators are.  From a Hermitian state
  it leads to Hermitian states only.
-/
theorem trajectory_hermitian
    (hIntegrate : system.integrate rho times = .ok states)
    (hHamiltonian : system.hamiltonian.dagger = system.hamiltonian) :
    system.integrate rho.dagger times = .ok (states.map Mat.dagger) ∧
      (rho.dagger = rho → ∀ state ∈ states, state.dagger = state) := by
  rcases integrate_eq_ok_iff.1 hIntegrate with ⟨_, ⟨n, hSystem, _⟩, _⟩
  have hAdjoint :=
    (Mat.selfAdjoint_iff_dagger hSystem.hamiltonian).2 hHamiltonian
  constructor
  · exact integrate_dagger hIntegrate hAdjoint
  · intro hState
    exact dagger_eq_of_integrate hIntegrate hAdjoint hState

theorem dagger_pauliX :
    (Predefined.pauliX : Mat ℝ).dagger = Predefined.pauliX := by
  refine Mat.ext_entry (by rfl) (by rfl) ?_
  intro i hRow j hCol
  have hRow : i < 2 := hRow
  have hCol : j < 2 := hCol
  interval_cases i <;> interval_cases j <;>
    simp [Mat.dagger, Predefined.pauliX, Predefined.twoByTwo,
      Mat.ofEntries, Mat.entry_ofFn, Scalar.conj, Scalar.zero,
      Scalar.one, Scalar.ofReal]

/- The driven spin stays in Hermitian states. -/
theorem trajectory_hermitian_drivenSpin :
    ∃ states, drivenSpin.integrate (Plan.basisProjector 1) [0, 1 / 2, 2] =
        .ok states ∧
      states.length = 3 ∧ ∀ state ∈ states, state.dagger = state := by
  rcases exists_trajectory_drivenSpin 1 with ⟨states, hIntegrate⟩
  have hProjector := Plan.selfAdjoint_basisProjector 1
  refine ⟨states, hIntegrate, length_integrate hIntegrate, ?_⟩
  exact (trajectory_hermitian hIntegrate dagger_pauliX).2
    ((Mat.selfAdjoint_iff_dagger hProjector.extents).1 hProjector)

end Lindblad

end QuantumLab

------------------------------------------------------------
-- Superpositions
------------------------------------------------------------

namespace QuantumLab

variable
  {system : Lindblad ℝ}
  {rho sigma : Mat ℝ}
  {times : List ℝ}
  {n : Nat}

/- The sum of a multiple of one matrix and a multiple of another. -/
def Mat.superposition
    {R : Type}
    [Arithmetic R]
    (a b : Scalar R)
    (rho sigma : Mat R) : Mat R :=
  rho.scale a + sigma.scale b

theorem Mat.HasExtents.superposition
    (hRho : rho.HasExtents n n)
    (a b : Scalar ℝ) :
    (Mat.superposition a b rho sigma).HasExtents n n :=
  (hRho.scale a).add

theorem Mat.toMatrix_superposition
    (hRho : rho.HasExtents n n)
    (hSigma : sigma.HasExtents n n)
    (a b : Scalar ℝ) :
    (superposition a b rho sigma).toMatrix n n =
      a.toComplex • rho.toMatrix n n +
        b.toComplex • sigma.toMatrix n n := by
  rw [superposition, toMatrix_add (hRho.scale a), toMatrix_scale hRho,
    toMatrix_scale hSigma]

namespace Lindblad

/- A step takes superpositions to superpositions. -/
theorem step_superposition
    (hSystem : system.HasDimension n)
    (hRho : rho.HasExtents n n)
    (hSigma : sigma.HasExtents n n)
    (a b : Scalar ℝ)
    (dt : ℝ) :
    system.step (Mat.superposition a b rho sigma) dt =
      Mat.superposition a b (system.step rho dt)
        (system.step sigma dt) := by
  have hFirst : (system.step rho dt).HasExtents n n :=
    hasExtents_step hRho dt
  have hSecond : (system.step sigma dt).HasExtents n n :=
    hasExtents_step hSigma dt
  have hState : (Mat.superposition a b rho sigma).HasExtents n n :=
    hRho.superposition a b
  apply Mat.ext_toMatrix (hasExtents_step hState dt)
    (hFirst.superposition a b)
  rw [toMatrix_step hSystem hState, Mat.toMatrix_superposition hRho hSigma,
    map_add, map_smul, map_smul,
    Mat.toMatrix_superposition hFirst hSecond,
    toMatrix_step hSystem hRho, toMatrix_step hSystem hSigma]

theorem statesAfter_superposition
    (hSystem : system.HasDimension n)
    (hRho : rho.HasExtents n n)
    (hSigma : sigma.HasExtents n n)
    (a b : Scalar ℝ) :
    system.statesAfter (Mat.superposition a b rho sigma) times =
      List.zipWith (Mat.superposition a b)
        (system.statesAfter rho times)
        (system.statesAfter sigma times) := by
  induction times generalizing rho sigma with
  | nil => rfl
  | cons first rest ih =>
      cases rest with
      | nil => rfl
      | cons second rest =>
          simp only [statesAfter, List.zipWith_cons_cons]
          rw [step_superposition hSystem hRho hSigma,
            ih (hasExtents_step hRho _) (hasExtents_step hSigma _)]

/- Only the shape of a state decides whether it is integrated. -/
theorem requireDimensions_congr
    (hShape : sigma.shape = rho.shape) :
    system.requireDimensions sigma = system.requireDimensions rho := by
  rw [requireDimensions, requireDimensions, hShape]

/-
  A superposition is integrated if both of its parts are, to
  the superpositions of their states, and refused as they
  are refused otherwise.
-/
theorem integrate_superposition
    (hShape : sigma.shape = rho.shape)
    (a b : Scalar ℝ) :
    system.integrate (Mat.superposition a b rho sigma) times =
      (do
        let first ← system.integrate rho times
        let second ← system.integrate sigma times
        return List.zipWith (Mat.superposition a b) first second) := by
  have hSum : (Mat.superposition a b rho sigma).shape = rho.shape := rfl
  simp only [integrate]
  rw [requireDimensions_congr hSum, requireDimensions_congr hShape]
  cases requireAscending times with
  | error fault => simp only [error_bind]
  | ok _ =>
      cases hDimensions : system.requireDimensions rho with
      | error fault => simp only [ok_bind, error_bind]
      | ok _ =>
          rcases requireDimensions_eq_ok_iff_exists.1 hDimensions with
            ⟨n, hSystem, hRho⟩
          have hSigma : sigma.HasExtents n n :=
            Mat.hasExtents_iff_shape.2
              (hShape.trans (Mat.hasExtents_iff_shape.1 hRho))
          simp only [ok_bind]
          rw [statesAfter_superposition hSystem hRho hSigma]
          rfl

end Lindblad

end QuantumLab

------------------------------------------------------------
-- States that stay
------------------------------------------------------------

namespace QuantumLab

namespace Lindblad

variable
  {system : Lindblad ℝ}
  {rho : Mat ℝ}
  {times : List ℝ}
  {states : List (Mat ℝ)}
  {n : Nat}

/- A state without a derivative is not moved by a step. -/
theorem step_eq_self
    (hSystem : system.HasDimension n)
    (hState : rho.HasExtents n n)
    (hStill : system.generator n (rho.toMatrix n n) = 0)
    (dt : ℝ) :
    system.step rho dt = rho := by
  have hPower (k : Nat) :
      system.generator n ((system.generator n ^ k) (rho.toMatrix n n)) =
        0 := by
    rw [← generator_pow_succ, pow_succ, Module.End.mul_apply, hStill,
      map_zero]
  apply Mat.ext_toMatrix (hasExtents_step hState dt) hState
  rw [toMatrix_step hSystem hState, propagator_eq_add]
  simp [hPower]

/-
  What commutes with the Hamiltonian of a closed system has
  no derivative.
-/
theorem generator_eq_zero
    (hSystem : system.HasDimension n)
    (hState : rho.HasExtents n n)
    (hClosed : system.channels = [])
    (hCommutes : system.hamiltonian * rho = rho * system.hamiltonian) :
    system.generator n (rho.toMatrix n n) = 0 := by
  have hSame : system.hamiltonian.toMatrix n n * rho.toMatrix n n =
      rho.toMatrix n n * system.hamiltonian.toMatrix n n := by
    rw [← Mat.toMatrix_mul hSystem.hamiltonian hState, hCommutes,
      Mat.toMatrix_mul hState hSystem.hamiltonian]
  rw [generator_apply, hSame, hClosed]
  simp

/- A state without a derivative stays at all times. -/
theorem integrate_stationary
    (hIntegrate : system.integrate rho times = .ok states)
    (hClosed : system.channels = [])
    (hCommutes : system.hamiltonian * rho = rho * system.hamiltonian) :
    states = List.replicate times.length rho := by
  rcases integrate_eq_ok_iff.1 hIntegrate with
    ⟨_, ⟨n, hSystem, hState⟩, hStates⟩
  have hStill := generator_eq_zero hSystem hState hClosed hCommutes
  have hLater : ∀ state ∈ system.statesAfter rho times, state = rho := by
    apply forall_statesAfter
    · intro state dt hSame
      rw [hSame, step_eq_self hSystem hState hStill]
    · rfl
  refine List.eq_replicate_iff.2 ⟨length_integrate hIntegrate, ?_⟩
  rw [← hStates, List.forall_mem_cons]
  exact ⟨rfl, hLater⟩

/- Everything commutes with a Hamiltonian of zeros. -/
theorem commutes_of_zero
    {k : Nat}
    (hSystem : system.HasDimension n)
    (hState : rho.HasExtents n n)
    (hZero : system.hamiltonian = .zero k k) :
    system.hamiltonian * rho = rho * system.hamiltonian := by
  have hDimension : k = n := by
    rw [← hSystem.hamiltonian.rows, hZero]
    rfl
  subst hDimension
  apply Mat.ext_toMatrix (hSystem.hamiltonian.mul hState)
    (hState.mul hSystem.hamiltonian)
  rw [Mat.toMatrix_mul hSystem.hamiltonian hState,
    Mat.toMatrix_mul hState hSystem.hamiltonian, hZero,
    Mat.toMatrix_zero, Matrix.zero_mul, Matrix.mul_zero]

/-
  The evolution of an open system is linear.  A superposition
  of two states of one shape is integrated exactly if both
  states are, and every state of its trajectory is the
  superposition of the states of theirs.  Without channels, a
  state that commutes with the Hamiltonian stays what it is,
  and so does every state if the Hamiltonian is zero.
-/
theorem integrate_linear
    (system : Lindblad ℝ)
    (times : List ℝ) :
    (∀ (a b : Scalar ℝ) (rho sigma : Mat ℝ), sigma.shape = rho.shape →
      system.integrate (Mat.superposition a b rho sigma) times =
        (do
          let first ← system.integrate rho times
          let second ← system.integrate sigma times
          return List.zipWith (Mat.superposition a b) first second)) ∧
      ∀ (rho : Mat ℝ) (states : List (Mat ℝ)),
        system.integrate rho times = .ok states →
        system.channels = [] →
        (system.hamiltonian * rho = rho * system.hamiltonian ∨
          ∃ k, system.hamiltonian = .zero k k) →
        states = List.replicate times.length rho := by
  constructor
  · intro a b rho sigma hShape
    exact integrate_superposition hShape a b
  · intro rho states hIntegrate hClosed hStill
    rcases integrate_eq_ok_iff.1 hIntegrate with
      ⟨_, ⟨n, hSystem, hState⟩, _⟩
    rcases hStill with hCommutes | ⟨k, hZero⟩
    · exact integrate_stationary hIntegrate hClosed hCommutes
    · exact integrate_stationary hIntegrate hClosed
        (commutes_of_zero hSystem hState hZero)

/- The projectors on the two basis states of a spin commute. -/
theorem basisProjectors_commute :
    Plan.basisProjector 0 * Plan.basisProjector 1 =
      Plan.basisProjector 1 * Plan.basisProjector 0 := by
  have hFirst := (Plan.projects_basisProjector 0).extents
  have hSecond := (Plan.projects_basisProjector 1).extents
  apply Mat.ext_toMatrix (hFirst.mul hSecond) (hSecond.mul hFirst)
  rw [Mat.toMatrix_mul hFirst hSecond, Mat.toMatrix_mul hSecond hFirst,
    Plan.toMatrix_basisProjector, Plan.toMatrix_basisProjector]
  simp

/-
  The driven spin takes a superposition of its basis states
  to one of their trajectories, and a spin in a basis state
  does not turn around the axis of that state.
-/
theorem integrate_linear_drivenSpin :
    (∃ first second,
      drivenSpin.integrate (Plan.basisProjector 0) [0, 1 / 2, 2] =
        .ok first ∧
      drivenSpin.integrate (Plan.basisProjector 1) [0, 1 / 2, 2] =
        .ok second ∧
      drivenSpin.integrate (Mat.superposition .one .i
          (Plan.basisProjector 0) (Plan.basisProjector 1)) [0, 1 / 2, 2] =
        .ok (List.zipWith (Mat.superposition .one .i) first second)) ∧
      ∃ states,
        (Lindblad.mk (Plan.basisProjector 0) []).integrate
            (Plan.basisProjector 1) [0, 1 / 2, 2] = .ok states ∧
          states = List.replicate 3 (Plan.basisProjector 1) := by
  constructor
  · rcases exists_trajectory_drivenSpin 0 with ⟨first, hFirst⟩
    rcases exists_trajectory_drivenSpin 1 with ⟨second, hSecond⟩
    refine ⟨first, second, hFirst, hSecond, ?_⟩
    rw [(integrate_linear drivenSpin [0, 1 / 2, 2]).1 .one .i
      (Plan.basisProjector 0) (Plan.basisProjector 1) rfl, hFirst, hSecond]
    rfl
  · have hSystem :
        (Lindblad.mk (Plan.basisProjector 0) []).HasDimension 2 :=
      ⟨(Plan.projects_basisProjector 0).extents, nofun⟩
    have hIntegrate := integrate_eq_ok_iff.2 ⟨ascending_uneven,
      ⟨2, hSystem, (Plan.projects_basisProjector 1).extents⟩, rfl⟩
    refine ⟨_, hIntegrate, ?_⟩
    exact (integrate_linear _ _).2 (Plan.basisProjector 1) _ hIntegrate rfl
      (.inl basisProjectors_commute)

end Lindblad

end QuantumLab
