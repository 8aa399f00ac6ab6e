import QuantumLab.Proofs.Validation.Substitution

/-
  This file puts the definition of a quantity in the place of
  its name, and says that validation then makes of a program
  what it made of it before.

  Key definitions include:
    * `Statement.replace`
    * `Statement.LeavesAlone`

  Main statements:
    * `Validator.walk_replace` is about a program that keeps
      the declaration of the name.
    * `Validator.alike_walk_replace` is also about a program
      that drops it.
    * `Program.inlining_preserves_checks` puts these together
      with the law of single expressions.
-/

------------------------------------------------------------
-- Statements in which one name is replaced
------------------------------------------------------------

namespace QuantumLab

variable {R : Type}

/- A single name that is replaced spares all names but its own and these. -/
theorem Expr.spares_update
    {name other : String}
    {d : Expr R}
    (hOther : other ≠ name)
    (hAvoids : ¬ d.Mentions other) :
    Expr.Spares (Function.update .identifier name d) other where
  same := Function.update_of_ne hOther _ _
  others third hThird hMentions := by
    by_cases hSame : third = name
    · rw [hSame, Function.update_self] at hMentions
      exact hAvoids hMentions
    · rw [Function.update_of_ne hSame] at hMentions
      exact hThird (Expr.mentions_identifier_iff.1 hMentions)

namespace Statement

/- A statement with an expression in the place of a name. -/
def replace
    (statement : Statement R)
    (name : String)
    (d : Expr R) : Statement R :=
  statement.substitute (Function.update .identifier name d)

/-
  A statement gives no new meaning to a name that is
  replaced, nor to the names in what replaces it.
-/
def LeavesAlone
    (statement : Statement R)
    (name : String)
    (d : Expr R) : Prop :=
  ∀ other, statement.Assigns other → other ≠ name ∧ ¬ d.Mentions other

end Statement

end QuantumLab

------------------------------------------------------------
-- Walks
------------------------------------------------------------

namespace QuantumLab

variable {R : Type}

namespace Program

/- What steps keep of two walks, the walks keep and end alike. -/
theorem alike_walk
    {σ τ : Type}
    {step : σ → Statement R → Except (Fault R) σ}
    {step' : τ → Statement R → Except (Fault R) τ}
    {P : σ → τ → Prop}
    {f : Statement R → Statement R}
    {s : σ}
    {s' : τ}
    {program : Program R}
    (hNames : ∀ d, (f d).name = d.name)
    (hStart : P s s')
    (hStep : ∀ d ∈ program, ∀ s s', P s s' →
      Alike P (step s d) (step' s' (f d))) :
    Alike P (walk step s program) (walk step' s' (program.map f)) := by
  induction program generalizing s s' with
  | nil => exact .ok hStart
  | cons d rest ih =>
      rcases List.forall_mem_cons.1 hStep with ⟨hHead, hTail⟩
      have hAlike := hHead s s' hStart
      rw [List.map_cons, walk, walk]
      generalize step s d = x at hAlike
      generalize step' s' (f d) = y at hAlike
      cases hAlike with
      | ok hNext => exact ih hNext hTail
      | error fault =>
          rw [hNames]
          exact .error _

end Program

variable [Arithmetic R]

namespace Validator

variable
  {tolerance : R}
  {v v' : Validator R}
  {name : String}
  {d : Expr R}
  {value : Value R}

/- A name may be replaced by any expression that means the same. -/
theorem inlines_self
    (hSame : v.environment.evaluate d = v.environment.resolve name) :
    Inlines (fun _ => False) (Function.update .identifier name d) v v where
  environment :=
    { names := by
        intro other
        by_cases hOther : other = name
        · rw [hOther, Function.update_self, hSame]
        · rw [Function.update_of_ne hOther, Environment.evaluate]
      values := fun _ _ => rfl
      symbolic := fun _ _ => rfl }
  results := .refl _ _
  measurements := rfl

/- Without the declaration of a name its definition means the same. -/
theorem inlines_of_check
    {s : Statement R}
    (hDefinition : s.definition? = some d)
    (hValue : v.environment.evaluate d = .ok value)
    (hCheck : check tolerance v s = .ok v') :
    Inlines (· = s.name) (Function.update .identifier s.name d) v' v := by
  have hDefined : Environment.Inlines (· = s.name)
      (Function.update .identifier s.name d)
      (v.environment.define s.name value) v.environment :=
    { names := by
        intro other
        by_cases hOther : other = s.name
        · rw [hOther, Function.update_self, hValue,
            Environment.resolve_define_self]
        · rw [Function.update_of_ne hOther, Environment.evaluate,
            Environment.resolve_define_of_ne (Ne.symm hOther)]
      values := Table.agreesOutside_insert _ _ _
      symbolic := Table.agreesOutside_erase _ _ }
  cases (checks_of_check hCheck).defines hDefinition with
  | undefined hNone =>
      rcases Environment.evaluate?_eq_none hNone with ⟨fault, hFault, _⟩
      cases hValue.symm.trans hFault
  | quantity hOther hEvaluated =>
      cases hValue.symm.trans hEvaluated
      exact ⟨hDefined, .refl _ _, rfl⟩
  | hamiltonian hHamiltonian hEvaluated hHermitian =>
      cases hValue.symm.trans hEvaluated
      have hResults := ValidationResults.AgreesOutside.refl
        (· = s.name) v.results
      exact ⟨hDefined, { hResults with
        hermitian := Table.agreesOutside_insert _ _ _ }, rfl⟩

/-
  A part of a program may use the definition of a name
  instead of the name.
-/
theorem alike_walk_replace
    {hidden : String → Prop}
    {part : Program R}
    (hInlines :
      Inlines hidden (Function.update .identifier name d) v v')
    (hLeaves : ∀ statement ∈ part, statement.LeavesAlone name d)
    (hSeen : ∀ statement ∈ part, ∀ other, statement.RefersTo other →
      ¬ hidden other) :
    Alike (Inlines hidden (Function.update .identifier name d))
      (part.walk (check tolerance) v)
      (Program.walk (check tolerance) v'
        (part.map (Statement.replace · name d))) := by
  refine Program.alike_walk (Statement.name_substitute _) hInlines ?_
  intro statement hMember s s' hNext
  refine alike_check hNext (fun other hAssigns => ?_)
    (hSeen statement hMember)
  rcases hLeaves statement hMember other hAssigns with
    ⟨hOther, hAvoids⟩
  exact Expr.spares_update hOther hAvoids

theorem walk_replace
    {part : Program R}
    (hSame : v.environment.evaluate d = v.environment.resolve name)
    (hLeaves : ∀ statement ∈ part, statement.LeavesAlone name d) :
    Program.walk (check tolerance) v
        (part.map (Statement.replace · name d)) =
      part.walk (check tolerance) v := by
  have hAlike : Alike (· = ·) (part.walk (check tolerance) v)
      (Program.walk (check tolerance) v
        (part.map (Statement.replace · name d))) :=
    (alike_walk_replace (inlines_self hSame) hLeaves
      fun _ _ _ _ => not_false).imp fun _ _ hNext => hNext.eq.symm
  exact hAlike.eq.symm

end Validator

end QuantumLab

------------------------------------------------------------
-- Programs
------------------------------------------------------------

namespace QuantumLab

variable {R : Type} [Arithmetic R]

namespace Program

variable
  {tolerance : R}
  {pre part post : Program R}
  {s : Statement R}
  {d : Expr R}
  {value : Value R}

/- A declaration is kept, and its definition also used for its name. -/
theorem walk_inlined
    (hDefinition : s.definition? = some d)
    (hValue : pre.environment.evaluate d = .ok value)
    (hLeaves : ∀ statement ∈ part, statement.LeavesAlone s.name d)
    (hAvoids : ¬ d.Mentions s.name) :
    walk (Validator.check tolerance) .initial
        (pre ++ s :: (part.map (Statement.replace · s.name d) ++ post)) =
      walk (Validator.check tolerance) .initial
        (pre ++ s :: (part ++ post)) := by
  rw [walk_append_eq_bind, walk_append_eq_bind]
  cases hPre : walk (Validator.check tolerance) .initial pre with
  | error stop => rfl
  | ok v =>
      rw [ok_bind, ok_bind, walk, walk]
      cases hStep : Validator.check tolerance v s with
      | error fault => rfl
      | ok v' =>
          have hBefore := environment_of_validation hPre
          have hAfter : v'.environment =
              v.environment.define s.name value := by
            rw [(Validator.checks_of_check hStep).environment,
              Environment.after_of_definition hDefinition, hBefore,
              Environment.declare_of_ok hValue]
          -- Without the name in it, the definition keeps its value.
          have hKept : v'.environment.evaluate d =
              v.environment.evaluate d := by
            rw [hAfter]
            refine Environment.evaluate_congr fun other hMentions => ?_
            refine Environment.resolve_define_of_ne ?_ value
            rintro rfl
            exact hAvoids hMentions
          have hSame : v'.environment.evaluate d =
              v'.environment.resolve s.name := by
            rw [hKept, hBefore, hValue, hAfter,
              Environment.resolve_define_self]
          simp only [walk_append_eq_bind,
            Validator.walk_replace hSame hLeaves]

/- A declaration is dropped, and its definition used for its name. -/
theorem alike_walk_inlined
    {v : Validator R}
    (hDefinition : s.definition? = some d)
    (hValue : pre.environment.evaluate d = .ok value)
    (hLeaves : ∀ statement ∈ part, statement.LeavesAlone s.name d)
    (hSeen : ∀ statement ∈ part, ¬ statement.RefersTo s.name)
    (hWalk : walk (Validator.check tolerance) .initial (pre ++ [s]) =
      .ok v) :
    Alike
      (Validator.Inlines (· = s.name)
        (Function.update .identifier s.name d))
      (walk (Validator.check tolerance) .initial (pre ++ s :: part))
      (walk (Validator.check tolerance) .initial
        (pre ++ part.map (Statement.replace · s.name d))) := by
  rcases walk_append.1 hWalk with ⟨v', hPre, hLast⟩
  have hStep := walk_single.1 hLast
  have hBefore := environment_of_validation hPre
  have hInlines := Validator.inlines_of_check hDefinition
    (hBefore ▸ hValue) hStep
  rw [walk_append_eq_bind, walk_append_eq_bind, hPre, ok_bind, ok_bind,
    walk, hStep]
  refine Validator.alike_walk_replace hInlines hLeaves ?_
  rintro statement hMember other hRefers rfl
  exact hSeen statement hMember hRefers

/-
  After a name is set to the value of an expression, every
  expression comes to what it comes to before that, with the
  expression in the place of the name; values and faults are
  the same.

  So validation makes the same of a program in which uses of
  a declared quantity are replaced by its definition.  If the
  declaration is kept, its definition may not mention the name
  itself, which by then means something else.  If it is
  dropped, no experiment may refer to the name; nothing is then
  established about the name alone.
-/
theorem inlining_preserves_checks
    (tolerance : R) :
    (∀ (env : Environment R) (name : String) (d : Expr R)
      (value : Value R), env.evaluate d = .ok value →
        ∀ e, (env.define name value).evaluate e =
          env.evaluate (e.replace name d)) ∧
    (∀ (pre part post : Program R) (s : Statement R) (d : Expr R)
      (value : Value R),
      s.definition? = some d →
      pre.environment.evaluate d = .ok value →
      (∀ statement ∈ part, statement.LeavesAlone s.name d) →
        (¬ d.Mentions s.name →
          walk (Validator.check tolerance) .initial
              (pre ++
                s :: (part.map (Statement.replace · s.name d) ++ post)) =
            walk (Validator.check tolerance) .initial
              (pre ++ s :: (part ++ post))) ∧
        ((∀ statement ∈ part, ¬ statement.RefersTo s.name) →
          ∀ v, walk (Validator.check tolerance) .initial (pre ++ [s]) =
              .ok v →
            Alike
              (fun next next' =>
                next.results.AgreesOutside (· = s.name) next'.results ∧
                  next'.measurements = next.measurements)
              (walk (Validator.check tolerance) .initial
                (pre ++ s :: part))
              (walk (Validator.check tolerance) .initial
                (pre ++ part.map (Statement.replace · s.name d))))) := by
  constructor
  · intro env name d value hValue e
    exact (Environment.evaluate_define hValue e).symm
  · intro pre part post s d value hDefinition hValue hLeaves
    refine ⟨walk_inlined hDefinition hValue hLeaves, ?_⟩
    intro hSeen v hWalk
    have hAlike :=
      alike_walk_inlined hDefinition hValue hLeaves hSeen hWalk
    exact hAlike.imp fun _ _ hNext => ⟨hNext.results, hNext.measurements⟩

/- A drive of half the strength of a predefined operator. -/
def drive : Expr Float :=
  .binary .multiply (.identifier "omega") (.identifier "sigma_x")

/- The strength of the drive. -/
def driveStrength : Statement Float :=
  .const "omega" (.number ⟨0.5, 0⟩)

/- The strength may be written where it is used. -/
theorem inlining_preserves_checks_drive :
    (Environment.initial.define "omega" (.scalar ⟨0.5, 0⟩)).evaluate
        drive =
      Environment.initial.evaluate
        (drive.replace "omega" (.number ⟨0.5, 0⟩)) ∧
    walk (Validator.check defaultValidationTolerance) .initial
        [driveStrength, .hamiltonian "drive" []
          (drive.replace "omega" (.number ⟨0.5, 0⟩))] =
      walk (Validator.check defaultValidationTolerance) .initial
        [driveStrength, .hamiltonian "drive" [] drive] ∧
    ∃ next next',
      walk (Validator.check defaultValidationTolerance) .initial
        [driveStrength, .hamiltonian "drive" [] drive] = .ok next ∧
      walk (Validator.check defaultValidationTolerance) .initial
        [.hamiltonian "drive" []
          (drive.replace "omega" (.number ⟨0.5, 0⟩))] = .ok next' ∧
      next.results.AgreesOutside (· = "omega") next'.results := by
  have hAccepted : (walk (Validator.check defaultValidationTolerance)
      .initial [driveStrength, .hamiltonian "drive" [] drive]
        ).toOption.isSome = true := by
    decide +kernel
  have hLeaves :
      ∀ statement ∈ [Statement.hamiltonian "drive" [] drive],
        statement.LeavesAlone driveStrength.name
          (.number ⟨0.5, 0⟩) := by
    refine List.forall_mem_singleton.2 fun other hAssigns => ⟨?_, nofun⟩
    rw [← hAssigns.named]
    decide
  have hSeen :
      ∀ statement ∈ [Statement.hamiltonian "drive" [] drive],
        ¬ statement.RefersTo driveStrength.name :=
    List.forall_mem_singleton.2 nofun
  have hLaws :=
    inlining_preserves_checks (defaultValidationTolerance : Float)
  have hInlined := hLaws.2 []
    [.hamiltonian "drive" [] drive] [] driveStrength
    (.number ⟨0.5, 0⟩) (.scalar ⟨0.5, 0⟩) rfl rfl hLeaves
  refine ⟨hLaws.1 .initial "omega" (.number ⟨0.5, 0⟩) _ rfl drive,
    hInlined.1 nofun, ?_⟩
  have hDropped := hInlined.2 hSeen
    (Validator.initial.define "omega" (.scalar ⟨0.5, 0⟩)) rfl
  rcases Option.isSome_iff_exists.1 hAccepted with ⟨next, hNext⟩
  rw [toOption_eq_some_iff] at hNext
  change Alike _ (walk (Validator.check defaultValidationTolerance)
    .initial [driveStrength, .hamiltonian "drive" [] drive])
    (walk (Validator.check defaultValidationTolerance) .initial
      [.hamiltonian "drive" []
        (drive.replace "omega" (.number ⟨0.5, 0⟩))]) at hDropped
  rw [hNext] at hDropped
  generalize hWalk : walk (Validator.check defaultValidationTolerance)
    .initial [Statement.hamiltonian "drive" []
      (drive.replace "omega" (.number ⟨0.5, 0⟩))] = result at hDropped
  cases hDropped with
  | ok hRelated => exact ⟨next, _, hNext, rfl, hRelated.1⟩

end Program

end QuantumLab
