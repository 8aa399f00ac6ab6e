import QuantumLab.Proofs.Irrelevance.Scopes
import QuantumLab.Proofs.Irrelevance.Statements
import QuantumLab.Proofs.Irrelevance.Validation
import QuantumLab.Proofs.Lowering.Steps

/-
  This file says that a declaration that nothing refers to has
  no effect on a run of a program, unless it is itself refused.

  Key definitions include:
    * `Program.StopsAt`
    * `Program.Refuses`

  Main statements:
    * `Program.walk_insert` compares the walks over a program
      with and without a statement.
    * `Program.run_insert_unreferenced` says how a run ends
      when a declaration is added to a program.
-/

------------------------------------------------------------
-- Walks with one more statement
------------------------------------------------------------

namespace QuantumLab

namespace Program

variable
  {R σ : Type}
  {step : σ → Statement R → Except (Fault R) σ}
  {s : σ}
  {earlier later : Program R}
  {d : Statement R}

/- The fault with which a statement ends a walk after earlier ones. -/
def StopsAt
    (step : σ → Statement R → Except (Fault R) σ)
    (s : σ)
    (earlier : Program R)
    (d : Statement R)
    (stop : Stop R) : Prop :=
  ∃ mid fault, earlier.walk step s = .ok mid ∧
    step mid d = .error fault ∧ stop = ⟨d.name, fault⟩

/- A walk goes on where the walk over earlier statements has ended. -/
theorem walk_append_of_ok
    {mid : σ}
    (hEarlier : earlier.walk step s = .ok mid)
    (later : Program R) :
    Program.walk step s (earlier ++ later) = later.walk step mid := by
  rw [walk_append_eq_bind, hEarlier, ok_bind]

/- A state that is related to itself is still so after a walk. -/
theorem related_self_of_walk
    {P : σ → σ → Prop}
    {t : σ}
    {program : Program R}
    (hStart : P s s)
    (hStep : ∀ d ∈ program, ∀ s s', P s s' →
      Tracks P (step s d) (step s' d))
    (hWalk : program.walk step s = .ok t) :
    P t t := by
  rcases tracks_walk hStart hStep t hWalk with ⟨t', hSame, hPair⟩
  cases hWalk.symm.trans hSame
  exact hPair

/-
  A statement is added to a program.  It ends the walk, or
  the walk leads to a related state.  The walk before it is
  compared with itself, for states need not be related to
  themselves.
-/
theorem walk_insert
    {P : σ → σ → Prop}
    {t : σ}
    (hStart : P s s)
    (hStep : ∀ d ∈ earlier ++ later, ∀ s s', P s s' →
      Tracks P (step s d) (step s' d))
    (hInsert : ∀ mid next, P mid mid → step mid d = .ok next →
      P mid next)
    (hWalk : Program.walk step s (earlier ++ later) = .ok t) :
    Ends (P t) (StopsAt step s earlier d)
      (Program.walk step s (earlier ++ d :: later)) := by
  have hEarlier : ∀ d ∈ earlier, d ∈ earlier ++ later := fun _ hMember =>
    List.mem_append_left _ hMember
  have hLater : ∀ d ∈ later, d ∈ earlier ++ later := fun _ hMember =>
    List.mem_append_right _ hMember
  rcases walk_append.1 hWalk with ⟨mid, hBefore, hAfter⟩
  have hMid : P mid mid := related_self_of_walk hStart
    (fun d hMember => hStep d (hEarlier d hMember)) hBefore
  rw [walk_append_of_ok hBefore, walk]
  cases hAdded : step mid d with
  | error fault => exact ⟨mid, fault, hBefore, hAdded, rfl⟩
  | ok next =>
      rcases tracks_walk (hInsert mid next hMid hAdded)
          (fun d hMember => hStep d (hLater d hMember)) t hAfter with
        ⟨t', hAfter', hPair⟩
      exact .of_ok hAfter' hPair

end Program

end QuantumLab

------------------------------------------------------------
-- Runs with one more declaration
------------------------------------------------------------

namespace QuantumLab

variable {R : Type} [Arithmetic R]

/- The start of a lowering, compared with itself. -/
theorem Lowering.simulates_initial
    (name : String) :
    Simulates name (.initial : Lowering R) .initial := by
  refine ⟨fun _ _ => False, ⟨rfl, rfl, ?_, fun _ _ => False.elim⟩,
    fun other _ => .unbound rfl rfl, .refl _, fun _ _ => .none, .refl _ _⟩
  exact ⟨fun _ _ _ => False.elim, fun _ _ _ => False.elim,
    fun _ _ => False.elim, .nil⟩

namespace Program

/- A stage that fails at a statement after earlier ones. -/
inductive Refuses
    (options : Options R)
    (earlier : Program R)
    (d : Statement R) : Halt R → Prop where
  | typing
      {stop : Stop R}
      (hStops : StopsAt Scope.check .initial earlier d stop) :
      Refuses options earlier d
        ⟨.typing, stop.fault, stop.log "Shape check"⟩
  | validation
      {stop : Stop R}
      (hStops : StopsAt (Validator.check options.validationTolerance)
        .initial earlier d stop) :
      Refuses options earlier d
        ⟨.validation, stop.fault, stop.log "Validation"⟩
  | lowering
      {stop : Stop R}
      (hStops : StopsAt Lowering.addStatement .initial earlier d stop) :
      Refuses options earlier d
        ⟨.lowering, stop.fault, stop.log "Lowering"⟩

variable
  {options : Options R}
  {earlier later : Program R}
  {d : Statement R}

/- The shapes of a program with one more declaration. -/
theorem typedStage_insert
    {scope : Scope}
    (hOther : d.experiment? = none)
    (hIgnores : Program.Ignores (earlier ++ later) d.name)
    (hChecked : Program.walk Scope.check .initial (earlier ++ later) =
      .ok scope) :
    Ends (fun typed => typed.program = earlier ++ d :: later)
      (Refuses options earlier d)
      (Program.typedStage (earlier ++ d :: later)) := by
  have hStep : ∀ x ∈ earlier ++ later, ∀ scope scope',
      Scope.AgreesOff d.name scope scope' →
        Tracks (Scope.AgreesOff d.name) (scope.check x)
          (scope'.check x) := by
    intro x hMember scope scope' hAgrees
    rcases hIgnores x hMember with ⟨hDeclared, hAvoids⟩
    exact Scope.tracks_check hAgrees hDeclared hAvoids
  have hWalk := walk_insert (.refl d.name .initial) hStep
    (fun _ _ _ hCheck => Scope.agreesOff_of_check hOther hCheck)
    hChecked
  have hTyped : Ends
      (fun typed => typed.program = earlier ++ d :: later)
      (StopsAt Scope.check .initial earlier d)
      (Program.typed (earlier ++ d :: later)) :=
    hWalk.bind fun _ _ => .of_ok rfl rfl
  exact hTyped.mapError fun _ hStops => .typing hStops

/- The validation of a program with one more declaration. -/
theorem validatedStage_insert
    {v : Validator R}
    (hOther : d.experiment? = none)
    (hIgnores : Program.Ignores (earlier ++ later) d.name)
    (hValidated : Program.walk
      (Validator.check options.validationTolerance) .initial
        (earlier ++ later) = .ok v)
    {typed : TypedProgram R}
    (hTyped : typed.program = earlier ++ d :: later) :
    Ends (fun p => p.typed.program = earlier ++ d :: later)
      (Refuses options earlier d) (typed.validatedStage options) := by
  have hStep : ∀ x ∈ earlier ++ later, ∀ v v',
      Validator.AgreesOff d.name v v' →
        Tracks (Validator.AgreesOff d.name)
          (Validator.check options.validationTolerance v x)
          (Validator.check options.validationTolerance v' x) :=
    fun x hMember v v' hAgrees =>
      Validator.tracks_check hAgrees (hIgnores x hMember).2
  have hWalk := walk_insert (.refl d.name .initial) hStep
    (fun _ _ _ hCheck => Validator.agreesOff_of_check hOther hCheck)
    hValidated
  rw [← hTyped] at hWalk
  have hResults : Ends
      (fun p => p.typed.program = earlier ++ d :: later)
      (StopsAt (Validator.check options.validationTolerance) .initial
        earlier d)
      (typed.validated options.validationTolerance) :=
    hWalk.bind fun _ _ => .of_ok rfl hTyped
  exact hResults.mapError fun _ hStops => .validation hStops

/- The plan of a program with one more declaration. -/
theorem planStage_insert
    {s : Lowering R}
    (hOther : d.experiment? = none)
    (hIgnores : Program.Ignores (earlier ++ later) d.name)
    (hLowered : Program.walk Lowering.addStatement .initial
      (earlier ++ later) = .ok s)
    (hVerified : s.plan.verify = .ok ())
    {p : ValidatedProgram R}
    (hProgram : p.typed.program = earlier ++ d :: later) :
    Ends (fun plan' => plan'.IsBackward ∧
        ∃ ρ, s.plan.Corresponds ρ plan')
      (Refuses options earlier d) p.planStage := by
  have hStep : ∀ x ∈ earlier ++ later, ∀ s s',
      Lowering.Simulates d.name s s' →
        Tracks (Lowering.Simulates d.name) (s.addStatement x)
          (s'.addStatement x) :=
    fun x hMember s s' hSimulates =>
      Lowering.tracks_addStatement hSimulates (hIgnores x hMember).2
  have hWalk := walk_insert (Lowering.simulates_initial d.name) hStep
    (fun _ _ hSimulates hAdd =>
      Lowering.simulates_of_addStatement hSimulates hOther hAdd)
    hLowered
  rw [← hProgram] at hWalk
  unfold ValidatedProgram.planStage ValidatedProgram.plan
  cases hLowered' : p.typed.program.walk Lowering.addStatement
      Lowering.initial with
  | error stop =>
      rw [hLowered'] at hWalk
      exact .lowering hWalk
  | ok s' =>
      rw [hLowered'] at hWalk
      rcases hWalk with ⟨ρ, hEmbeds⟩
      have hPlaced : s'.WellPlaced :=
        Lowering.wellPlaced_initial.runs
          (Lowering.runs_of_walk Lowering.wellPlaced_initial hLowered')
      have hWellFormed := hEmbeds.plans.wellFormed
        (Plan.verify_eq_ok_iff.1 hVerified) hPlaced.backward
      simp only [Plan.verify_eq_ok_iff.2 hWellFormed]
      exact ⟨hPlaced.backward, ρ, hEmbeds.plans⟩

/-
  A program runs to the same results, with as many nodes
  computed, when a declaration is added that no other
  statement refers to, and whose name none of them declares.
  The only other way for it to end is that a stage fails at
  the declaration itself.
-/
theorem run_insert_unreferenced
    {result : ExecutionResult R × Nat}
    (hOther : d.experiment? = none)
    (hIgnores : Program.Ignores (earlier ++ later) d.name)
    (hRun : Program.run options (earlier ++ later) = .ok result) :
    Program.run options (earlier ++ d :: later) = .ok result ∨
      ∃ halt, Refuses options earlier d halt ∧
        Program.run options (earlier ++ d :: later) = .error halt := by
  rcases bind_eq_ok_iff.1 hRun with ⟨plan, hPlan, hExecuted⟩
  rcases stages_of_plan hPlan with
    ⟨scope, v, s, hChecked, hValidated, hLowered, rfl, hVerified⟩
  rw [Plan.executionStage, mapError_eq_ok_iff] at hExecuted
  have hPlanned : Ends
      (fun plan' => plan'.IsBackward ∧ ∃ ρ, s.plan.Corresponds ρ plan')
      (Refuses options earlier d)
      (Program.plan options (earlier ++ d :: later)) := by
    refine (typedStage_insert hOther hIgnores hChecked).bind
      fun typed hTyped => ?_
    refine (validatedStage_insert hOther hIgnores hValidated hTyped).bind
      fun p hProgram => ?_
    exact planStage_insert hOther hIgnores hLowered hVerified hProgram
  rcases hPlanned.cases with
    ⟨plan', hPlan', hBackward, ρ, hPlans⟩ | ⟨halt, hHalt, hRefuses⟩
  · left
    have hExecuted' := hPlans.execute_eq hBackward hExecuted
    rw [Program.run, hPlan', ok_bind, Plan.executionStage,
      mapError_eq_ok_iff, hExecuted']
  · right
    refine ⟨halt, hRefuses, ?_⟩
    rw [Program.run, hHalt, error_bind]

/- The amplitude of a spin. -/
def amplitude : Statement Float :=
  .const "up" (.number ⟨1, 0⟩)

/- The spin is measured along its axis. -/
def measuredSpin : Statement Float :=
  .experiment ⟨"spin",
    some ⟨.ket, .vector [.identifier "up", .number ⟨0, 0⟩]⟩, none,
    [⟨0, "sigma_z"⟩]⟩

/- An operator that is not used. -/
def doubledSpin : Statement Float :=
  .matrix "doubled"
    (.binary .add (.identifier "sigma_z") (.identifier "sigma_z"))

theorem ignores_measuredSpin :
    Program.Ignores ([amplitude] ++ [measuredSpin])
      doubledSpin.name := by
  have hUp : (.identifier "up" : Expr Float).Avoids "doubled" :=
    .identifier (by decide)
  refine List.forall_mem_cons.2 ⟨⟨by decide, .number _ _⟩,
    List.forall_mem_singleton.2 ⟨by decide, ?_, nofun, ?_⟩⟩
  · rintro _ ⟨⟩
    refine .vector (List.forall_mem_cons.2 ⟨hUp, ?_⟩)
    exact List.forall_mem_singleton.2 (.number _ _)
  · exact List.forall_mem_singleton.2 (by decide)

/-
  The declaration gives the operator that is measured its
  node before the experiment does.
-/
theorem run_insert_unreferenced_measuredSpin :
    ∃ result,
      Program.run Options.default ([amplitude] ++ [measuredSpin]) =
        .ok result ∧
      Program.run Options.default
        ([amplitude] ++ doubledSpin :: [measuredSpin]) = .ok result := by
  have hRuns : (Program.run Options.default
      ([amplitude] ++ [measuredSpin])).toOption.isSome = true := by
    decide +kernel
  have hRuns' : (Program.run Options.default
      ([amplitude] ++ doubledSpin :: [measuredSpin])).toOption.isSome =
        true := by
    decide +kernel
  rcases Option.isSome_iff_exists.1 hRuns with ⟨result, hResult⟩
  rcases Option.isSome_iff_exists.1 hRuns' with ⟨result', hResult'⟩
  rw [toOption_eq_some_iff] at hResult hResult'
  have hOther : doubledSpin.experiment? = none := rfl
  rcases run_insert_unreferenced hOther ignores_measuredSpin hResult with
    hSame | ⟨halt, _, hHalt⟩
  · exact ⟨result, hResult, hSame⟩
  · cases hResult'.symm.trans hHalt

end Program

end QuantumLab
