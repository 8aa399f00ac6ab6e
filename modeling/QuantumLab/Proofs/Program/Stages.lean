import Mathlib.Data.List.Induction
import QuantumLab.Pipeline
import QuantumLab.Proofs.Evaluation.Expressions

/-
  This file takes walks over programs and the stages of a
  run apart, and follows the values of names through them.

  Key definitions include:
    * `Statement.definition?`, `Statement.evaluated`
    * `Environment.after`
    * `Program.environment`

  Main statements:
    * `Program.walk_append` splits a walk at a statement.
    * `Program.stages_of_plan` and `Program.Passes.plan_eq_ok`
      say that a program with a plan has passed the stages.
    * `Program.walk_induction` and `Program.walk_induction₂`
      say what walks lead to from what their steps lead to.
    * `Program.tracks_walk` compares walks step by step.
-/

------------------------------------------------------------
-- Walks
------------------------------------------------------------

namespace QuantumLab

variable {R σ : Type}

namespace Program

variable {step : σ → Statement R → Except (Fault R) σ}

theorem walk_cons
    {s t : σ}
    {d : Statement R}
    {rest : Program R} :
    walk step s (d :: rest) = .ok t ↔
      ∃ next, step s d = .ok next ∧ walk step next rest = .ok t := by
  rw [walk]
  cases step s d with
  | ok next => simp
  | error fault => simp

/- The second part of a program is walked from where the first ends. -/
theorem walk_append_eq_bind
    (s : σ)
    (pre post : Program R) :
    walk step s (pre ++ post) =
      (walk step s pre >>= fun mid => walk step mid post) := by
  induction pre generalizing s with
  | nil => rfl
  | cons d pre ih =>
      rw [List.cons_append, walk, walk]
      cases step s d with
      | ok next => exact ih next
      | error fault => rfl

/- A walk may be split at any statement. -/
theorem walk_append
    {s t : σ}
    {pre post : Program R} :
    walk step s (pre ++ post) = .ok t ↔
      ∃ mid, walk step s pre = .ok mid ∧
        walk step mid post = .ok t := by
  rw [walk_append_eq_bind, bind_eq_ok_iff]

theorem walk_single
    {s t : σ}
    {d : Statement R} :
    walk step s [d] = .ok t ↔ step s d = .ok t := by
  rw [walk_cons]
  simp [walk]

/- A walk goes through two adjacent statements one after the other. -/
theorem walk_adjacent
    {s t : σ}
    {d d' : Statement R}
    {pre post : Program R} :
    walk step s (pre ++ d :: d' :: post) = .ok t ↔
      ∃ first second third, walk step s pre = .ok first ∧
        step first d = .ok second ∧ step second d' = .ok third ∧
        walk step third post = .ok t := by
  rw [walk_append]
  constructor
  · rintro ⟨first, hFirst, hRest⟩
    rcases walk_cons.1 hRest with ⟨second, hSecond, hRest⟩
    rcases walk_cons.1 hRest with ⟨third, hThird, hLast⟩
    exact ⟨first, second, third, hFirst, hSecond, hThird, hLast⟩
  · rintro ⟨first, second, third, hFirst, hSecond, hThird, hLast⟩
    exact ⟨first, hFirst, walk_cons.2 ⟨second, hSecond,
      walk_cons.2 ⟨third, hThird, hLast⟩⟩⟩

/- A walk that is ended is ended by a statement. -/
theorem exists_of_walk_error
    {s : σ}
    {program : Program R}
    {stop : Stop R}
    (hWalk : walk step s program = .error stop) :
    ∃ pre d post mid, program = pre ++ d :: post ∧
      walk step s pre = .ok mid ∧ step mid d = .error stop.fault := by
  induction program generalizing s with
  | nil => cases hWalk
  | cons d rest ih =>
      cases hStep : step s d with
      | error fault =>
          rw [walk, hStep] at hWalk
          rw [← Except.error.inj hWalk]
          exact ⟨[], d, rest, s, rfl, rfl, hStep⟩
      | ok next =>
          rw [walk, hStep] at hWalk
          rcases ih hWalk with ⟨pre, d', post, mid, rfl, hPre, hEnd⟩
          exact ⟨d :: pre, d', post, mid, rfl,
            walk_cons.2 ⟨next, hStep, hPre⟩, hEnd⟩

/-
  What every step leads to, a walk leads to.  The invariant
  may speak of the statements before a state.
-/
theorem walk_induction
    {I : Program R → σ → Prop}
    {s t : σ}
    {program : Program R}
    (hStart : I [] s)
    (hStep : ∀ pre s d next, I pre s → step s d = .ok next →
      I (pre ++ [d]) next)
    (hWalk : walk step s program = .ok t) :
    I program t := by
  induction program using List.reverseRecOn generalizing t with
  | nil =>
      rw [← Except.ok.inj hWalk]
      exact hStart
  | append_singleton pre d ih =>
      rcases walk_append.1 hWalk with ⟨mid, hPre, hLast⟩
      exact hStep pre mid d t (ih hPre) (walk_single.1 hLast)

/- What every step of two stages leads to, their walks lead to. -/
theorem walk_induction₂
    {τ : Type}
    {step' : τ → Statement R → Except (Fault R) τ}
    {I : Program R → σ → τ → Prop}
    {s t : σ}
    {s' t' : τ}
    {program : Program R}
    (hStart : I [] s s')
    (hStep : ∀ pre s s' d next next', I pre s s' →
      step s d = .ok next → step' s' d = .ok next' →
        I (pre ++ [d]) next next')
    (hWalk : walk step s program = .ok t)
    (hWalk' : walk step' s' program = .ok t') :
    I program t t' := by
  induction program using List.reverseRecOn generalizing t t' with
  | nil =>
      rw [← Except.ok.inj hWalk, ← Except.ok.inj hWalk']
      exact hStart
  | append_singleton pre d ih =>
      rcases walk_append.1 hWalk with ⟨mid, hPre, hLast⟩
      rcases walk_append.1 hWalk' with ⟨mid', hPre', hLast'⟩
      exact hStep pre mid mid' d t t' (ih hPre hPre')
        (walk_single.1 hLast) (walk_single.1 hLast')

/-
  What a walk gives is what a fold gives, if it is for every
  statement.
-/
theorem walk_eq_foldl
    {τ : Type}
    {view : σ → τ}
    {after : τ → Statement R → τ}
    (hStep : ∀ s d next, step s d = .ok next →
      view next = after (view s) d)
    {s t : σ}
    {program : Program R}
    (hWalk : walk step s program = .ok t) :
    view t = program.foldl after (view s) := by
  induction program generalizing s with
  | nil =>
      rw [← Except.ok.inj hWalk]
      rfl
  | cons d rest ih =>
      rcases walk_cons.1 hWalk with ⟨next, hNext, hRest⟩
      rw [List.foldl_cons, ← hStep s d next hNext]
      exact ih hRest

/- What steps keep of two states, walks keep. -/
theorem tracks_walk
    {τ : Type}
    {step' : τ → Statement R → Except (Fault R) τ}
    {P : σ → τ → Prop}
    {s : σ}
    {s' : τ}
    {program : Program R}
    (hStart : P s s')
    (hStep : ∀ d ∈ program, ∀ s s', P s s' →
      Tracks P (step s d) (step' s' d)) :
    Tracks P (program.walk step s) (program.walk step' s') := by
  induction program generalizing s s' with
  | nil => exact .of_ok hStart
  | cons d rest ih =>
      rcases List.forall_mem_cons.1 hStep with ⟨hHead, hTail⟩
      intro t hWalk
      rcases walk_cons.1 hWalk with ⟨next, hNext, hRest⟩
      rcases hHead s s' hStart next hNext with ⟨next', hNext', hPair⟩
      rcases ih hPair hTail t hRest with ⟨t', hRest', hLast⟩
      exact ⟨t', walk_cons.2 ⟨next', hNext', hRest'⟩, hLast⟩

end Program

end QuantumLab

------------------------------------------------------------
-- Stages
------------------------------------------------------------

namespace QuantumLab

variable {R : Type}

/- A fault that is reworded is still a fault. -/
theorem mapError_eq_ok_iff
    {ε ε' α : Type}
    {f : ε → ε'}
    {x : Except ε α}
    {a : α} :
    x.mapError f = .ok a ↔ x = .ok a := by
  cases x with
  | error e => simp [Except.mapError]
  | ok b => simp [Except.mapError]

variable [Arithmetic R]

/- The stages that a program with a plan has passed. -/
structure Program.Passes
    (options : Options R)
    (program : Program R)
    (plan : Plan R)
    (scope : Scope)
    (v : Validator R)
    (s : Lowering R) : Prop where
  checked : program.walk Scope.check .initial = .ok scope
  validated : program.walk
    (Validator.check options.validationTolerance) .initial = .ok v
  lowered : program.walk Lowering.addStatement .initial = .ok s
  plan_eq : s.plan = plan
  verified : plan.verify = .ok ()

/- A validated program with a plan is lowered to it, and it verifies. -/
theorem ValidatedProgram.lowered_of_plan
    {p : ValidatedProgram R}
    {plan : Plan R}
    (hPlan : p.plan = .ok plan) :
    ∃ s, p.typed.program.walk Lowering.addStatement .initial = .ok s ∧
      s.plan = plan ∧ plan.verify = .ok () := by
  unfold ValidatedProgram.plan at hPlan
  cases hLowered :
      p.typed.program.walk Lowering.addStatement .initial with
  | error stop => simp [hLowered] at hPlan
  | ok s =>
      simp only [hLowered] at hPlan
      cases hVerified : s.plan.verify with
      | error fault => simp [hVerified] at hPlan
      | ok _ =>
          simp only [hVerified] at hPlan
          cases hPlan
          exact ⟨s, rfl, rfl, hVerified⟩

theorem Program.stages_of_plan
    {options : Options R}
    {program : Program R}
    {plan : Plan R}
    (hPlan : program.plan options = .ok plan) :
    ∃ scope v s, program.Passes options plan scope v s := by
  rcases bind_eq_ok_iff.1 hPlan with ⟨typed, hTyped, hRest⟩
  rcases bind_eq_ok_iff.1 hRest with ⟨p, hValidated, hPlanned⟩
  rw [typedStage, mapError_eq_ok_iff] at hTyped
  rw [TypedProgram.validatedStage, mapError_eq_ok_iff] at hValidated
  rw [ValidatedProgram.planStage, mapError_eq_ok_iff] at hPlanned
  rcases bind_eq_ok_iff.1 hTyped with ⟨scope, hChecked, hScope⟩
  cases pure_eq_ok_iff.1 hScope
  rcases bind_eq_ok_iff.1 hValidated with ⟨v, hWalked, hResults⟩
  cases pure_eq_ok_iff.1 hResults
  rcases ValidatedProgram.lowered_of_plan hPlanned with
    ⟨s, hLowered, hPlan, hVerified⟩
  exact ⟨scope, v, s, hChecked, hWalked, hLowered, hPlan, hVerified⟩

/- A program that passes the stages has its plan. -/
theorem Program.Passes.plan_eq_ok
    {options : Options R}
    {program : Program R}
    {plan : Plan R}
    {scope : Scope}
    {v : Validator R}
    {s : Lowering R}
    (hPasses : program.Passes options plan scope v s) :
    program.plan options = .ok plan := by
  have hTyped : program.typedStage = .ok ⟨program, scope.shapes⟩ :=
    mapError_eq_ok_iff.2 (bind_eq_ok_iff.2 ⟨scope, hPasses.checked, rfl⟩)
  have hValidated : TypedProgram.validatedStage options
      ⟨program, scope.shapes⟩ =
        .ok ⟨⟨program, scope.shapes⟩, v.results⟩ :=
    mapError_eq_ok_iff.2
      (bind_eq_ok_iff.2 ⟨v, hPasses.validated, rfl⟩)
  have hPlanned : ValidatedProgram.planStage
      ⟨⟨program, scope.shapes⟩, v.results⟩ = .ok plan := by
    refine mapError_eq_ok_iff.2 ?_
    unfold ValidatedProgram.plan
    simp only [hPasses.lowered, hPasses.plan_eq, hPasses.verified]
  rw [Program.plan, hTyped, ok_bind, hValidated, ok_bind, hPlanned]

end QuantumLab

------------------------------------------------------------
-- Values of names
------------------------------------------------------------

namespace QuantumLab

variable {R : Type}

namespace Statement

/- The expression by which a statement gives a value to its name. -/
def definition? : Statement R → Option (Expr R)
  | .const _ value => some value
  | .matrix _ value => some value
  | .hamiltonian _ parameters expression =>
      if parameters.isEmpty then some expression else none
  | _ => none

/- Whether a statement makes its name known without a value. -/
def declaresSymbol : Statement R → Bool
  | .symbol _ => true
  | .function _ _ _ => true
  | .hamiltonian _ parameters _ => !parameters.isEmpty
  | _ => false

/- Whether a statement defines a measurement of a name. -/
def measures (d : Statement R) (name : String) : Bool :=
  match d with
  | .measurement other _ _ => other == name
  | _ => false

/- The experiment of a statement. -/
def experiment? : Statement R → Option (Experiment R)
  | .experiment x => some x
  | _ => none

/- The expressions whose values become nodes of a plan. -/
def evaluated (d : Statement R) : List (Expr R) :=
  match d with
  | .measurement _ _ operators => operators
  | .experiment x => (x.initialState.map InitialState.value).toList
  | _ => d.definition?.toList

end Statement

namespace Statement

variable {d : Statement R} {e : Expr R}

/- A name without a value has no definition. -/
theorem definition?_of_declaresSymbol
    (hSymbol : d.declaresSymbol = true) :
    d.definition? = none := by
  cases d with
  | empty => rfl
  | const name e => cases hSymbol
  | symbol name => rfl
  | matrix name e => cases hSymbol
  | function name parameters body => rfl
  | hamiltonian name parameters e =>
      simp only [declaresSymbol, Bool.not_eq_true'] at hSymbol
      simp [definition?, hSymbol]
  | measurement name kind operators => cases hSymbol
  | experiment x => cases hSymbol

theorem measures_of_declaresSymbol
    (hSymbol : d.declaresSymbol = true)
    (name : String) :
    d.measures name = false := by
  cases d with
  | measurement other kind operators => cases hSymbol
  | _ => rfl

theorem experiment?_eq_some_iff
    {x : Experiment R} :
    d.experiment? = some x ↔ d = .experiment x := by
  cases d <;> simp [experiment?]

theorem mem_evaluated_of_definition
    (hDefinition : d.definition? = some e) :
    e ∈ d.evaluated := by
  cases d with
  | measurement name kind operators => cases hDefinition
  | experiment x => cases hDefinition
  | _ => simp [evaluated, hDefinition]

theorem measures_of_definition
    (hDefinition : d.definition? = some e)
    (name : String) :
    d.measures name = false := by
  cases d with
  | measurement other kind operators => cases hDefinition
  | _ => rfl

end Statement

namespace Program

/- Whether a program defines a measurement of a name. -/
def measures (program : Program R) (name : String) : Bool :=
  program.any (Statement.measures · name)

theorem measures_append
    (pre : Program R)
    (d : Statement R)
    (name : String) :
    measures (pre ++ [d]) name =
      (d.measures name || pre.measures name) := by
  simp [measures, Bool.or_comm]

/- The experiments of a program. -/
def experiments (program : Program R) : List (Experiment R) :=
  program.filterMap Statement.experiment?

theorem experiments_cons
    (d : Statement R)
    (rest : Program R) :
    experiments (d :: rest) =
      d.experiment?.toList ++ rest.experiments := by
  cases hExperiment : d.experiment? <;>
    simp [experiments, hExperiment]

end Program

variable [Arithmetic R]

namespace Environment

/- The environment with a name set to the value of an expression. -/
def declare
    (env : Environment R)
    (name : String)
    (e : Expr R) : Environment R :=
  match env.evaluate e with
  | .ok value => env.define name value
  | .error _ => env.declareSymbolic name

/- The environment after a statement. -/
def after (env : Environment R) (d : Statement R) : Environment R :=
  match d.definition? with
  | some e => env.declare d.name e
  | none =>
      if d.declaresSymbol then env.declareSymbolic d.name else env

theorem declare_of_ok
    {env : Environment R}
    {e : Expr R}
    {value : Value R}
    (hValue : env.evaluate e = .ok value)
    (name : String) :
    env.declare name e = env.define name value := by
  rw [declare, hValue]

theorem declare_of_none
    {env : Environment R}
    {e : Expr R}
    (hNone : env.evaluate? e = .ok none)
    (name : String) :
    env.declare name e = env.declareSymbolic name := by
  rcases evaluate?_eq_none hNone with ⟨fault, hFault, _⟩
  rw [declare, hFault]

end Environment

namespace Environment

theorem after_of_definition
    {d : Statement R}
    {e : Expr R}
    (hDefinition : d.definition? = some e)
    (env : Environment R) :
    env.after d = env.declare d.name e := by
  rw [after, hDefinition]

theorem after_of_declaresSymbol
    {d : Statement R}
    (hSymbol : d.declaresSymbol = true)
    (env : Environment R) :
    env.after d = env.declareSymbolic d.name := by
  rw [after, Statement.definition?_of_declaresSymbol hSymbol]
  simp [hSymbol]

/-
  A value of a name comes from the definition of the name, or
  the name had it before.
-/
theorem lookup_after
    {d : Statement R}
    {env : Environment R}
    {name : String}
    {value : Value R}
    (hName : (env.after d).lookup name = some value) :
    (d.name = name ∧ ∃ e, d.definition? = some e ∧
      env.evaluate e = .ok value) ∨
    (env.lookup name = some value ∧
      (d.name = name →
        d.definition? = none ∧ d.declaresSymbol = false)) := by
  cases hDefinition : d.definition? with
  | some e =>
      rw [after_of_definition hDefinition, declare] at hName
      by_cases hSame : d.name = name
      · cases hValue : env.evaluate e with
        | ok other =>
            simp only [hValue, lookup_define, if_pos hSame] at hName
            rw [Option.some.inj hName] at hValue
            exact .inl ⟨hSame, e, rfl, hValue⟩
        | error fault =>
            simp only [hValue, lookup_declareSymbolic,
              if_pos hSame] at hName
            cases hName
      · refine .inr ⟨?_, fun h => absurd h hSame⟩
        cases hValue : env.evaluate e with
        | ok other =>
            simp only [hValue, lookup_define, if_neg hSame] at hName
            exact hName
        | error fault =>
            simp only [hValue, lookup_declareSymbolic,
              if_neg hSame] at hName
            exact hName
  | none =>
      refine .inr ?_
      by_cases hSymbol : d.declaresSymbol = true
      · rw [after_of_declaresSymbol hSymbol,
          lookup_declareSymbolic] at hName
        by_cases hSame : d.name = name
        · rw [if_pos hSame] at hName
          cases hName
        · rw [if_neg hSame] at hName
          exact ⟨hName, fun h => absurd h hSame⟩
      · rw [Bool.not_eq_true] at hSymbol
        rw [after, hDefinition] at hName
        simp only [hSymbol, Bool.false_eq_true, if_false] at hName
        exact ⟨hName, fun _ => ⟨rfl, hSymbol⟩⟩

end Environment

/- The values of names after a program. -/
def Program.environment (program : Program R) : Environment R :=
  program.foldl Environment.after .initial

theorem Program.environment_append
    (pre : Program R)
    (d : Statement R) :
    Program.environment (pre ++ [d]) = pre.environment.after d := by
  simp [Program.environment]

end QuantumLab
