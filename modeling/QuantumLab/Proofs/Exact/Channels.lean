import QuantumLab.Proofs.Exact.Trajectories

/-
  This file says that the dissipation channels of an open
  system act as a sum.  In exact arithmetic, channels may be
  put in another order, left out if their rate is zero,
  joined if their jump operators are the same, and have a
  factor of the jump operator moved to the rate.

  Key definitions include:
    * `Regroups`

  Main statements:
    * `Regroups.sum_dissipation` says that channels that are
      regrouped have one sum.
    * `Lindblad.integrate_regrouped` says that they lead to
      the same trajectories.
-/

------------------------------------------------------------
-- Regrouped channels
------------------------------------------------------------

namespace QuantumLab

/-
  Lists of channels that differ in how the dissipation of a
  system is split up.
-/
inductive Regroups : List (Channel ℝ) → List (Channel ℝ) → Prop
  | permute
      {channels others : List (Channel ℝ)}
      (hPerm : channels.Perm others) :
      Regroups channels others
  | idle
      (jump : Mat ℝ)
      (rest : List (Channel ℝ)) :
      Regroups (⟨jump, 0⟩ :: rest) rest
  | merge
      (jump : Mat ℝ)
      (r s : ℝ)
      (rest : List (Channel ℝ)) :
      Regroups
        (⟨jump, r⟩ :: ⟨jump, s⟩ :: rest) (⟨jump, r + s⟩ :: rest)
  | rescale
      (c : Scalar ℝ)
      (jump : Mat ℝ)
      (r : ℝ)
      (rest : List (Channel ℝ)) :
      Regroups (⟨jump.scale c, r⟩ :: rest)
        (⟨jump, c.squaredModulus * r⟩ :: rest)
  | behind
      (channel : Channel ℝ)
      {channels others : List (Channel ℝ)}
      (hRest : Regroups channels others) :
      Regroups (channel :: channels) (channel :: others)
  | trans
      {channels others third : List (Channel ℝ)}
      (hFirst : Regroups channels others)
      (hSecond : Regroups others third) :
      Regroups channels third

end QuantumLab

------------------------------------------------------------
-- Dissipation of regrouped channels
------------------------------------------------------------

namespace QuantumLab

open Matrix

namespace Channel

variable
  {n : Nat}
  {jump : Mat ℝ}

/- A channel without a rate does nothing. -/
theorem dissipation_idle
    (jump : Mat ℝ) :
    (Channel.mk jump 0).dissipation n = 0 := by
  simp [dissipation]

/- Rates of one jump operator add up. -/
theorem dissipation_merge
    (jump : Mat ℝ)
    (r s : ℝ) :
    (Channel.mk jump r).dissipation n + (Channel.mk jump s).dissipation n =
      (Channel.mk jump (r + s)).dissipation n := by
  simp only [dissipation, Complex.ofReal_add, add_smul]

/-
  A jump operator stands twice in each term, once conjugated,
  so that a factor of it comes out as its squared modulus.
-/
theorem dissipation_rescale
    (hJump : jump.HasExtents n n)
    (c : Scalar ℝ)
    (r : ℝ) :
    (Channel.mk (jump.scale c) r).dissipation n =
      (Channel.mk jump (c.squaredModulus * r)).dissipation n := by
  have hModulus : (c.squaredModulus : ℂ) =
      c.toComplex * star c.toComplex := by
    rw [Scalar.squaredModulus_eq]
    exact (Complex.mul_conj c.toComplex).symm
  ext1 x
  rw [dissipation_apply, dissipation_apply, Mat.toMatrix_scale hJump,
    Matrix.conjTranspose_smul, Complex.ofReal_mul, hModulus]
  simp only [Matrix.smul_mul, Matrix.mul_smul]
  module

end Channel

namespace Regroups

variable
  {channels others : List (Channel ℝ)}
  {n m : Nat}

/- Regrouped channels have operators of the same extents. -/
theorem hasExtents
    (hRegroups : Regroups channels others)
    (hJumps : ∀ channel ∈ channels, channel.operator.HasExtents n m) :
    ∀ channel ∈ others, channel.operator.HasExtents n m := by
  induction hRegroups with
  | permute hPerm =>
      intro channel hMember
      exact hJumps channel (hPerm.mem_iff.2 hMember)
  | idle jump rest => exact (List.forall_mem_cons.1 hJumps).2
  | merge jump r s rest =>
      rw [List.forall_mem_cons] at hJumps ⊢
      exact ⟨hJumps.1, (List.forall_mem_cons.1 hJumps.2).2⟩
  | rescale c jump r rest =>
      rw [List.forall_mem_cons] at hJumps ⊢
      exact ⟨⟨hJumps.1.rows, hJumps.1.cols⟩, hJumps.2⟩
  | behind channel _ ih =>
      rw [List.forall_mem_cons] at hJumps ⊢
      exact ⟨hJumps.1, ih hJumps.2⟩
  | trans _ _ ihFirst ihSecond => exact ihSecond (ihFirst hJumps)

/- Regrouped channels have one sum. -/
theorem sum_dissipation
    (hRegroups : Regroups channels others)
    (hJumps : ∀ channel ∈ channels, channel.operator.HasExtents n n) :
    (channels.map fun channel => channel.dissipation n).sum =
      (others.map fun channel => channel.dissipation n).sum := by
  induction hRegroups with
  | permute hPerm => exact (hPerm.map _).sum_eq
  | idle jump rest =>
      rw [List.map_cons, List.sum_cons, Channel.dissipation_idle, zero_add]
  | merge jump r s rest =>
      simp only [List.map_cons, List.sum_cons]
      rw [← add_assoc, Channel.dissipation_merge]
  | rescale c jump r rest =>
      have hScaled := (List.forall_mem_cons.1 hJumps).1
      have hJump : jump.HasExtents n n := ⟨hScaled.rows, hScaled.cols⟩
      rw [List.map_cons, List.sum_cons, Channel.dissipation_rescale hJump,
        List.map_cons, List.sum_cons]
  | behind channel _ ih =>
      rw [List.map_cons, List.sum_cons,
        ih (List.forall_mem_cons.1 hJumps).2, List.map_cons, List.sum_cons]
  | trans hFirst _ ihFirst ihSecond =>
      rw [ihFirst hJumps, ihSecond (hFirst.hasExtents hJumps)]

end Regroups

end QuantumLab

------------------------------------------------------------
-- Trajectories of regrouped channels
------------------------------------------------------------

namespace QuantumLab

namespace Lindblad

variable
  {system other : Lindblad ℝ}
  {rho : Mat ℝ}
  {times : List ℝ}
  {n : Nat}

/- Systems of one generator take the same steps. -/
theorem step_congr
    (hSystem : system.HasDimension n)
    (hOther : other.HasDimension n)
    (hGenerator : other.generator n = system.generator n)
    (hState : rho.HasExtents n n)
    (dt : ℝ) :
    other.step rho dt = system.step rho dt := by
  apply Mat.ext_toMatrix (hasExtents_step hState dt)
    (hasExtents_step hState dt)
  rw [toMatrix_step hOther hState, toMatrix_step hSystem hState, propagator,
    propagator, hGenerator]

/- Systems of one generator have the same trajectories. -/
theorem integrate_congr
    (hDimensions :
      other.requireDimensions rho = system.requireDimensions rho)
    (hGenerators : ∀ n, system.HasDimension n →
      other.HasDimension n ∧ other.generator n = system.generator n) :
    other.integrate rho times = system.integrate rho times := by
  rw [integrate, integrate, hDimensions]
  cases requireAscending times with
  | error fault => rw [error_bind, error_bind]
  | ok _ =>
      rw [ok_bind, ok_bind]
      cases hAccepted : system.requireDimensions rho with
      | error fault => rw [error_bind, error_bind]
      | ok _ =>
          rcases requireDimensions_eq_ok_iff_exists.1 hAccepted with
            ⟨n, hSystem, hState⟩
          rcases hGenerators n hSystem with ⟨hOther, hGenerator⟩
          have hLater : other.statesAfter rho times =
              (system.statesAfter rho times).map id :=
            statesAfter_map (f := id)
              (fun _ dt hExtents => hasExtents_step hExtents dt)
              (fun _ dt hExtents =>
                step_congr hSystem hOther hGenerator hExtents dt) hState
          rw [ok_bind, ok_bind, hLater, List.map_id]

/-
  The dissipation channels of an open system act as a sum.
  The trajectory from a state is the same when channels are
  put in another order, when a channel without a rate is
  left out, when two channels of one jump operator are
  joined, when a factor of a jump operator is moved to the
  rate as its squared modulus, and after any number of such
  changes.
-/
theorem integrate_regrouped
    {h : Mat ℝ}
    {channels others : List (Channel ℝ)}
    (hRegroups : Regroups channels others)
    (hJumps : ∀ channel ∈ channels, channel.operator.shape = h.shape)
    (rho : Mat ℝ)
    (times : List ℝ) :
    (Lindblad.mk h others).integrate rho times =
      (Lindblad.mk h channels).integrate rho times := by
  have hExtents : ∀ channel ∈ channels,
      channel.operator.HasExtents h.rows h.cols := fun channel hMember =>
    Mat.hasExtents_iff_shape.2 (hJumps channel hMember)
  have hOthers : ∀ channel ∈ others, channel.operator.shape = h.shape :=
    fun channel hMember => Mat.hasExtents_iff_shape.1
      (hRegroups.hasExtents hExtents channel hMember)
  have hAccepted : (Lindblad.mk h channels).requireChannels = .ok () :=
    requireChannels_eq_ok_iff.2 hJumps
  have hAcceptedOthers : (Lindblad.mk h others).requireChannels = .ok () :=
    requireChannels_eq_ok_iff.2 hOthers
  apply integrate_congr
  · rw [requireDimensions, requireDimensions, hAccepted, hAcceptedOthers]
  · intro n hSystem
    refine ⟨⟨hSystem.hamiltonian,
      hRegroups.hasExtents hSystem.jumps⟩, ?_⟩
    rw [generator, generator, hRegroups.sum_dissipation hSystem.jumps]

/- A decay that is split up into three channels, one of them idle. -/
noncomputable def splitDecay : List (Channel ℝ) :=
  [⟨Plan.lowering.scale .i, 1⟩, ⟨Plan.lowering.dagger, 0⟩,
    ⟨Plan.lowering, 1⟩]

theorem regroups_splitDecay :
    Regroups splitDecay [⟨Plan.lowering, 2⟩] := by
  have hRate : (Scalar.i : Scalar ℝ).squaredModulus * 1 + 1 = 2 := by
    norm_num [Scalar.squaredModulus, Scalar.i]
  have hDropped : Regroups splitDecay
      [⟨Plan.lowering.scale .i, 1⟩, ⟨Plan.lowering, 1⟩] :=
    .behind _ (.idle _ _)
  have hScaled : Regroups
      [⟨Plan.lowering.scale .i, 1⟩, ⟨Plan.lowering, 1⟩]
      [⟨Plan.lowering, Scalar.i.squaredModulus * 1⟩,
        ⟨Plan.lowering, 1⟩] :=
    .rescale _ _ _ _
  rw [← hRate]
  exact (hDropped.trans hScaled).trans (.merge _ _ _ _)

/- The driven spin decays through three channels as through one. -/
theorem integrate_regrouped_splitDecay :
    ∃ states,
      (Lindblad.mk Predefined.pauliX splitDecay).integrate
          (Plan.basisProjector 1) [0, 1 / 2, 2] = .ok states ∧
        (Lindblad.mk Predefined.pauliX [⟨Plan.lowering, 2⟩]).integrate
          (Plan.basisProjector 1) [0, 1 / 2, 2] = .ok states := by
  have hJumps : ∀ channel ∈ splitDecay, channel.operator.shape =
      (Predefined.pauliX : Mat ℝ).shape := by
    simp only [splitDecay, List.forall_mem_cons]
    exact ⟨rfl, rfl, rfl, nofun⟩
  have hSystem :
      (Lindblad.mk Predefined.pauliX splitDecay).HasDimension 2 :=
    ⟨⟨rfl, rfl⟩, fun channel hMember =>
      Mat.hasExtents_iff_shape.2 (hJumps channel hMember)⟩
  have hIntegrate := integrate_eq_ok_iff.2 ⟨ascending_uneven,
    ⟨2, hSystem, (Plan.projects_basisProjector 1).extents⟩, rfl⟩
  refine ⟨_, hIntegrate, ?_⟩
  rw [integrate_regrouped regroups_splitDecay hJumps, hIntegrate]

end Lindblad

end QuantumLab
