import QuantumLab.Proofs.Lowering.Faults
import QuantumLab.Proofs.Program.WellFormedness

/-
  This file says what the lowering of a validated program can
  rely on: it goes along with the validation, statement by
  statement, and does not end with an internal fault.

  Key definitions include:
    * `Lowering.Mirrors`

  Main statements:
    * `Lowering.mirrors_of_walks` says that a lowering and a
      validation of the same statements know the same names.
    * `Program.not_isMalformed_of_validation` says that a
      validated program asks for nothing that is not there.
    * `TypedProgram.plan_not_internal` says how the lowering
      of a validated program can end.
-/

------------------------------------------------------------
-- Lowering along a validation
------------------------------------------------------------

namespace QuantumLab

variable {R : Type} [Arithmetic R]

namespace Lowering

/-
  A lowering goes along with a validation: names have the
  same values, or none, and the same measurements are known.
  A name with a value is resolved to a node, and a name
  without one is refused as a symbol.
-/
structure Mirrors (s : Lowering R) (v : Validator R) : Prop where
  environment : s.environment = v.environment
  measurements : ∀ name,
    s.measurements.contains name = v.measurements.contains name
  resolves : ∀ name value, v.environment.lookup name = some value →
    ∃ id later, s.resolve name = .ok (id, later)
  symbols : ∀ name, v.environment.isSymbolic name = true →
    s.resolve name = refuse (.loweredSymbol name)

variable
  {tolerance : R}
  {s : Lowering R}
  {v : Validator R}

theorem Follows.mirrors
    {m : Meaning R}
    (hFollows : s.Follows False m)
    (hNames : v.environment = m.names)
    (hMeasured : ∀ name,
      s.measurements.contains name = v.measurements.contains name) :
    s.Mirrors v where
  environment := hFollows.environment.trans hNames.symm
  measurements := hMeasured
  resolves name value hName := by
    rw [hNames] at hName
    exact hFollows.binds.exists_resolve hName
  symbols name hSymbolic := by
    rw [hNames] at hSymbolic
    exact (hFollows.unresolvable name hSymbolic).resolve_eq

/- The same statements are lowered along with their validation. -/
theorem mirrors_of_walks
    {program : Program R}
    (hLowered : program.walk addStatement .initial = .ok s)
    (hValidated : program.walk (Validator.check tolerance) .initial =
      .ok v) :
    s.Mirrors v := by
  have hFollows := follows_of_prefix hLowered
  refine hFollows.mirrors ?_ fun name => ?_
  · rw [Program.names_meaning,
      Program.environment_of_validation hValidated]
  · rw [Program.measures_of_lowering hLowered,
      Program.measures_of_validation hValidated]

/- A validated statement does not end its lowering internally. -/
theorem notInternal_of_walks
    {pre : Program R}
    {d : Statement R}
    {next : Validator R}
    (hLowered : pre.walk addStatement .initial = .ok s)
    (hValidated : pre.walk (Validator.check tolerance) .initial = .ok v)
    (hCheck : Validator.check tolerance v d = .ok next) :
    NotInternal (s.addStatement d) := by
  have hFollows := follows_of_prefix hLowered
  have hMirrors := mirrors_of_walks hLowered hValidated
  exact hFollows.notInternal_addStatement hMirrors.environment
    (funext hMirrors.measurements) hCheck

end Lowering

end QuantumLab

------------------------------------------------------------
-- Validated programs
------------------------------------------------------------

namespace QuantumLab

variable {R : Type} [Arithmetic R] {tolerance : R}

/- A measurement without operators is refused, whatever its kind. -/
theorem MeasurementKind.nonempty_of_require
    {kind : MeasurementKind}
    {name : String}
    {matrices : List (Mat R)}
    (hRequired : kind.require tolerance name matrices = .ok ()) :
    matrices ≠ [] := by
  have hComplete : requireComplete tolerance name matrices = .ok () := by
    cases kind with
    | projective => exact (unit_bind_eq_ok_iff.1 hRequired).2
    | povm => exact (unit_bind_eq_ok_iff.1 hRequired).2
  rintro rfl
  exact refuse_ne_ok hComplete

/- An empty grid is refused. -/
theorem Validator.nonempty_of_requireAscendingGrid
    {experiment : String}
    {grid : TimeGrid R}
    (hGrid : requireAscendingGrid experiment grid = .ok ()) :
    grid.times ≠ [] := by
  intro hEmpty
  simp [requireAscendingGrid, hEmpty] at hGrid

namespace Program

variable {pre : Program R} {v : Validator R}

/- Every measurement of a validated program has operators. -/
theorem operatorsOf?_ne_nil
    (hValidated : pre.walk (Validator.check tolerance) .initial =
      .ok v)
    (name : String) :
    pre.operatorsOf? name ≠ some [] := by
  refine walk_induction
    (I := fun pre _ => Program.operatorsOf? pre name ≠ some [])
    nofun ?_ hValidated
  intro pre v d next hOlder hCheck
  rw [operatorsOf?_append]
  cases hOperators : d.operatorsOf? name with
  | none => exact hOlder
  | some operators =>
      rintro ⟨⟩
      cases d with
      | measurement other kind operators =>
          rw [Statement.operatorsOf?] at hOperators
          split at hOperators
          · rcases (Validator.checks_of_check hCheck).operators with
              ⟨matrices, hMatrices, hRequired, _⟩
            cases hOperators
            cases hMatrices
            exact MeasurementKind.nonempty_of_require hRequired rfl
          · cases hOperators
      | _ => cases hOperators

/- A validated program asks for nothing that is not there. -/
theorem not_isMalformed_of_validation
    {program : Program R}
    (hValidated : program.walk (Validator.check tolerance) .initial =
      .ok v) :
    ¬ program.IsMalformed := by
  rintro ⟨pre, x, post, rfl, hMisses⟩
  rcases walk_append.1 hValidated with ⟨mid, hPre, hRest⟩
  rcases walk_cons.1 hRest with ⟨next, hCheck, _⟩
  cases hMisses with
  | point hEvolution hEmpty hEvent =>
      rcases Validator.admits_of_checkExperiment hCheck with
        ⟨_, hAdmits⟩
      exact Validator.nonempty_of_requireAscendingGrid
        (hAdmits.grid _ hEvolution) hEmpty
  | operators hEvent hNone => exact operatorsOf?_ne_nil hPre _ hNone

end Program

namespace TypedProgram

/-
  The lowering of a validated program goes along with its
  validation on all statements that it reaches, and its plan
  always verifies.  Where it fails, it fails for a reason of
  its own and not with an internal fault.  Nothing is asked of
  the shapes of the program.
-/
theorem plan_not_internal
    {typed : TypedProgram R}
    {p : ValidatedProgram R}
    (hValidated : typed.validated tolerance = .ok p) :
    (∀ pre post : Program R, typed.program = pre ++ post → ∃ v,
      pre.walk (Validator.check tolerance) .initial = .ok v ∧
        ∀ s, pre.walk Lowering.addStatement .initial = .ok s →
          s.Mirrors v) ∧
    (∀ s, typed.program.walk Lowering.addStatement .initial = .ok s →
      s.plan.verify = .ok () ∧ p.plan = .ok s.plan) ∧
    ∀ stop, p.plan = .error stop → stop.fault.kind ≠ .internal := by
  rcases bind_eq_ok_iff.1 hValidated with ⟨last, hWalked, hResults⟩
  cases pure_eq_ok_iff.1 hResults
  have hVerified : ∀ s,
      typed.program.walk Lowering.addStatement .initial = .ok s →
        s.plan.verify = .ok () := by
    intro s hLowered
    rw [Plan.verify_eq_ok_iff, Program.wellFormed_iff hLowered]
    exact Program.not_isMalformed_of_validation hWalked
  refine ⟨fun pre post hSplit => ?_, fun s hLowered => ?_,
    fun stop hStop => ?_⟩
  · rw [hSplit] at hWalked
    rcases Program.walk_append.1 hWalked with ⟨v, hPre, _⟩
    exact ⟨v, hPre, fun s hLowered =>
      Lowering.mirrors_of_walks hLowered hPre⟩
  · exact ⟨hVerified s hLowered,
      (ValidatedProgram.plan_of_walk hLowered).1 (hVerified s hLowered)⟩
  · unfold ValidatedProgram.plan at hStop
    simp only at hStop
    cases hLowered :
        typed.program.walk Lowering.addStatement .initial with
    | ok s =>
        simp [hLowered, hVerified s hLowered] at hStop
    | error first =>
        rw [hLowered] at hStop
        rw [← Except.error.inj hStop]
        rcases Program.exists_of_walk_error hLowered with
          ⟨pre, d, post, s, hSplit, hPre, hAdd⟩
        rw [hSplit] at hWalked
        rcases Program.walk_append.1 hWalked with ⟨v, hChecked, hRest⟩
        rcases Program.walk_cons.1 hRest with ⟨next, hCheck, _⟩
        exact (Lowering.notInternal_of_walks hPre hChecked
          hCheck).of_error hAdd

/- A qubit in a field that is only a symbol. -/
def symbolicField : TypedProgram Float where
  program := [
    .symbol "field",
    .experiment ⟨"qubit",
      some ⟨.ket, .vector [.number ⟨1, 0⟩, .number ⟨0, 0⟩]⟩,
      some ⟨"qubit", "field", .points [0], []⟩, []⟩]
  shapes := .empty

/- The symbol is validated, and its use is not supported. -/
theorem plan_not_internal_symbolicField :
    ∃ p stop,
      symbolicField.validated defaultValidationTolerance = .ok p ∧
      p.plan = .error stop ∧ stop.fault.kind ≠ .internal := by
  have hStops : (do
      let p ← (symbolicField.validated
        defaultValidationTolerance).toOption
      guard (p.plan.toOption.isNone = true)) = some () := by
    decide +kernel
  simp only [Option.bind_eq_bind, Option.bind_eq_some_iff,
    toOption_eq_some_iff, Option.guard_eq_some'] at hStops
  rcases hStops with ⟨p, hValidated, hNone⟩
  cases hPlan : p.plan with
  | ok plan =>
      rw [hPlan] at hNone
      cases hNone
  | error stop =>
      exact ⟨p, stop, hValidated, hPlan,
        (plan_not_internal hValidated).2.2 stop hPlan⟩

end TypedProgram

end QuantumLab
