import QuantumLab.Proofs.Arithmetic.Comparison
import QuantumLab.Proofs.Execution.Session
import QuantumLab.Proofs.Program.Stages

/-
  This file says that larger tolerances turn down less and
  change nothing else.  Whatever is accepted with a tolerance
  is accepted with a larger one, with the same result, from
  the single checks over the statements of a program to whole
  validations, and from single expectations to whole
  executions.

  Key definitions include:
    * `Session.Persists`

  Main statements:
    * `Validator.tracks_check_tolerance` says what a larger
      tolerance does to the validation of a statement.
    * `Plan.persists_runExperiment` says what a larger
      tolerance does to an experiment.
    * `tolerance_monotone` says both of whole programs and
      plans.
-/

------------------------------------------------------------
-- Walks with the same results
------------------------------------------------------------

namespace QuantumLab

/- What holds of two steps holds of two walks. -/
theorem Program.tracks_walk_eq
    {R σ : Type}
    {step step' : σ → Statement R → Except (Fault R) σ}
    (hStep : ∀ s d, Tracks (· = ·) (step s d) (step' s d))
    (p : Program R)
    (s : σ) :
    Tracks (· = ·) (p.walk step s) (p.walk step' s) := by
  refine tracks_walk rfl fun d _ s s' hSame => ?_
  cases hSame
  exact hStep s d

end QuantumLab

------------------------------------------------------------
-- Checks
------------------------------------------------------------

namespace QuantumLab

open Arithmetic

section Checks

variable
  {R : Type}
  [Arithmetic R]
  [Comparable R]
  {t t' : R}
  (hAtMost : atMost t t' = true)

include hAtMost

theorem tracks_requireWithin
    (deviation : R)
    (invariant : Invariant)
    (name detail : String) :
    Tracks (· = ·) (requireWithin t deviation invariant name detail)
      (requireWithin t' deviation invariant name detail) :=
  .refusal fun hExceeds =>
    Comparable.less_of_atMost_of_less hAtMost hExceeds

theorem tracks_requireHermitian
    (name : String)
    (a : Mat R) :
    Tracks (· = ·) (requireHermitian t name a)
      (requireHermitian t' name a) :=
  Tracks.bind_same rfl fun _ _ => tracks_requireWithin hAtMost _ _ _ _

/- A least eigenvalue may be the further below zero. -/
theorem tracks_requirePositive
    (name : String)
    (a : Mat R) :
    Tracks (· = ·) (requirePositive t name a)
      (requirePositive t' name a) := by
  refine (tracks_requireHermitian hAtMost name a).bind_eq fun _ => ?_
  cases a.spectrum? with
  | none => exact .of_error
  | some spectrum =>
      exact .refusal fun hNegative =>
        Comparable.less_of_less_of_atMost hNegative
          (Comparable.atMost_neg hAtMost)

theorem tracks_requireUnitTrace
    (name : String)
    (a : Mat R) :
    Tracks (· = ·) (requireUnitTrace t name a)
      (requireUnitTrace t' name a) := by
  refine Tracks.bind_same rfl fun trace _ => ?_
  exact (tracks_requireWithin hAtMost _ _ _ _).bind_eq fun _ => .of_eq rfl

theorem tracks_requireNormalized
    (name : String)
    (ket : Vec R) :
    Tracks (· = ·) (requireNormalized t name ket)
      (requireNormalized t' name ket) :=
  tracks_requireWithin hAtMost _ _ _ _

theorem tracks_requireComplete
    (name : String)
    (operators : List (Mat R)) :
    Tracks (· = ·) (requireComplete t name operators)
      (requireComplete t' name operators) := by
  cases operators with
  | nil => exact .of_error
  | cons first rest =>
      exact Tracks.bind_same rfl fun _ _ =>
        tracks_requireWithin hAtMost _ _ _ _

theorem tracks_requireProjector
    (name : String)
    (a : Mat R) :
    Tracks (· = ·) (requireProjector t name a)
      (requireProjector t' name a) :=
  (tracks_requireHermitian hAtMost name a).bind_eq fun _ =>
    tracks_requireWithin hAtMost _ _ _ _

omit [Arithmetic R] [Comparable R] hAtMost in
theorem tracks_requireEach
    {check check' : String → Mat R → Except (Fault R) Unit}
    (hCheck : ∀ name a, Tracks (· = ·) (check name a) (check' name a))
    (name : String)
    (k : Nat)
    (operators : List (Mat R)) :
    Tracks (· = ·) (requireEach check name k operators)
      (requireEach check' name k operators) := by
  induction operators generalizing k with
  | nil => exact .of_eq rfl
  | cons operator rest ih =>
      exact (hCheck _ operator).bind_eq fun _ => ih (k + 1)

theorem tracks_requireProjective
    (name : String)
    (operators : List (Mat R)) :
    Tracks (· = ·) (requireProjective t name operators)
      (requireProjective t' name operators) :=
  (tracks_requireEach (tracks_requireProjector hAtMost) name 0
    operators).bind_eq fun _ => tracks_requireComplete hAtMost name _

theorem tracks_requirePovm
    (name : String)
    (operators : List (Mat R)) :
    Tracks (· = ·) (requirePovm t name operators)
      (requirePovm t' name operators) :=
  (tracks_requireEach (tracks_requirePositive hAtMost) name 0
    operators).bind_eq fun _ => tracks_requireComplete hAtMost name _

end Checks

end QuantumLab

------------------------------------------------------------
-- Validations
------------------------------------------------------------

namespace QuantumLab

namespace Validator

open Arithmetic

section Validations

variable
  {R : Type}
  [Arithmetic R]
  [Comparable R]
  {t t' : R}
  (hAtMost : atMost t t' = true)
  (v : Validator R)

include hAtMost

theorem tracks_checkHamiltonian_tolerance
    (name : String)
    (parameters : List String)
    (expression : Expr R) :
    Tracks (· = ·) (checkHamiltonian t v name parameters expression)
      (checkHamiltonian t' v name parameters expression) := by
  unfold checkHamiltonian
  by_cases hParameters : (!parameters.isEmpty) = true
  · rw [if_pos hParameters, if_pos hParameters]
    exact .of_eq rfl
  · rw [if_neg hParameters, if_neg hParameters]
    refine Tracks.bind_same rfl fun value _ => ?_
    cases value with
    | none => exact .of_eq rfl
    | some value =>
        cases value with
        | matrix h =>
            exact (tracks_requireHermitian hAtMost name h).bind_eq
              fun _ => .of_eq rfl
        | scalar z => exact .of_error
        | vector ket => exact .of_error

theorem tracks_checkMeasurement_tolerance
    (name : String)
    (kind : MeasurementKind)
    (operators : List (Expr R)) :
    Tracks (· = ·) (checkMeasurement t v name kind operators)
      (checkMeasurement t' v name kind operators) := by
  refine Tracks.bind_same rfl fun matrices _ => ?_
  cases kind with
  | projective =>
      exact (tracks_requireProjective hAtMost name matrices).bind_eq
        fun _ => .of_eq rfl
  | povm =>
      exact (tracks_requirePovm hAtMost name matrices).bind_eq
        fun _ => .of_eq rfl

theorem tracks_checkInitialState_tolerance
    (x : Experiment R) :
    Tracks (· = ·) (checkInitialState t v x)
      (checkInitialState t' v x) := by
  unfold checkInitialState
  cases x.initialState with
  | none => exact .of_error
  | some state =>
      refine Tracks.bind_same rfl fun value _ => ?_
      cases hKind : state.kind with
      | ket =>
          cases value with
          | vector ket =>
              exact (tracks_requireNormalized hAtMost _ ket).bind_eq
                fun _ => .of_eq rfl
          | scalar z => exact .of_error
          | matrix rho => exact .of_error
      | rho =>
          cases value with
          | matrix rho =>
              refine (tracks_requirePositive hAtMost _ rho).bind_eq
                fun _ => ?_
              exact (tracks_requireUnitTrace hAtMost _ rho).bind_eq
                fun _ => .of_eq rfl
          | scalar z => exact .of_error
          | vector ket => exact .of_error

/- What is noted as Hermitian is not checked with either tolerance. -/
theorem tracks_checkObservable_tolerance
    (usage name : String) :
    Tracks (· = ·) (checkObservable t v usage name)
      (checkObservable t' v usage name) := by
  refine Tracks.bind_same rfl fun found _ => ?_
  cases found with
  | none => exact .of_eq rfl
  | some a =>
      by_cases hNoted : v.results.hermitian.contains name = true
      · simp only [hNoted, if_true]
        exact .of_eq rfl
      · simp only [hNoted]
        exact (tracks_requireHermitian hAtMost name a).bind_eq
          fun _ => .of_eq rfl

theorem tracks_checkEvolution_tolerance
    (experiment : String)
    (evolution : Option (Evolution R)) :
    Tracks (· = ·) (checkEvolution t v experiment evolution)
      (checkEvolution t' v experiment evolution) := by
  cases evolution with
  | none => exact .of_eq rfl
  | some evolution =>
      refine Tracks.bind_same rfl fun _ _ => ?_
      exact (tracks_checkObservable_tolerance hAtMost v _ _).bind_eq
        fun _ => .of_eq rfl

theorem tracks_checkEvent_tolerance
    (event : Event R) :
    Tracks (· = ·) (checkEvent t v event) (checkEvent t' v event) := by
  unfold checkEvent
  split
  · exact .of_eq rfl
  · exact tracks_checkObservable_tolerance hAtMost v _ _

theorem tracks_checkExperiment_tolerance
    (x : Experiment R) :
    Tracks (· = ·) (checkExperiment t v x) (checkExperiment t' v x) := by
  refine (tracks_checkInitialState_tolerance hAtMost v x).bind_eq
    fun v => ?_
  refine (tracks_checkEvolution_tolerance hAtMost v _ _).bind_eq
    fun v => ?_
  exact Tracks.foldlM_eq (tracks_checkEvent_tolerance hAtMost) x.schedule v

/- A statement that is accepted leads to the same state. -/
theorem tracks_check_tolerance
    (d : Statement R) :
    Tracks (· = ·) (check t v d) (check t' v d) := by
  cases d with
  | empty => exact .of_error
  | const name e => exact .of_eq rfl
  | symbol name => exact .of_eq rfl
  | matrix name e => exact .of_eq rfl
  | function name parameters body => exact .of_eq rfl
  | hamiltonian name parameters e =>
      exact tracks_checkHamiltonian_tolerance hAtMost v name parameters e
  | measurement name kind operators =>
      exact tracks_checkMeasurement_tolerance hAtMost v name kind operators
  | experiment x => exact tracks_checkExperiment_tolerance hAtMost v x

end Validations

end Validator

end QuantumLab

------------------------------------------------------------
-- Executions
------------------------------------------------------------

namespace QuantumLab

namespace Session

variable {R α β : Type}

/-
  Whenever a computation succeeds, so does another one from
  the same values kept, with the same result, and the same
  values are kept.
-/
def Persists (x y : Session R α) : Prop :=
  ∀ memo a later, x.run memo = (.ok a, later) →
    y.run memo = (.ok a, later)

theorem Persists.refl
    (x : Session R α) :
    Persists x x :=
  fun _ _ _ hRun => hRun

/- Whatever fails persists as anything. -/
theorem Persists.fail
    {fault : Fault R}
    {y : Session R α} :
    Persists (Session.fail fault) y := by
  intro memo a later hRun
  cases hRun

theorem Persists.lift
    {x y : Except (Fault R) α}
    (hTracks : QuantumLab.Tracks (· = ·) x y) :
    Persists (Session.lift x) (Session.lift y) := by
  intro memo a later hRun
  cases hRun
  rw [hTracks.eq_of_ok rfl]
  rfl

theorem Persists.bind
    {x y : Session R α}
    {f g : α → Session R β}
    (hFirst : Persists x y)
    (hSecond : ∀ a, Persists (f a) (g a)) :
    Persists (x >>= f) (y >>= g) := by
  intro memo b last hRun
  rw [run_bind] at hRun
  rcases hResult : x.run memo with ⟨result, later⟩
  rw [hResult] at hRun
  cases result with
  | error fault => cases hRun
  | ok a =>
      rw [run_bind, hFirst memo a later hResult]
      exact hSecond a later b last hRun

theorem Persists.mapM
    {f g : α → Session R β}
    (hEach : ∀ a, Persists (f a) (g a))
    (as : List α) :
    Persists (as.mapM f) (as.mapM g) := by
  induction as with
  | nil => exact .refl _
  | cons a as ih =>
      rw [List.mapM_cons, List.mapM_cons]
      exact (hEach a).bind fun b => ih.bind fun bs => .refl _

end Session

namespace Plan

open Arithmetic

section Executions

variable
  {R : Type}
  [Arithmetic R]
  [Comparable R]
  {t t' : R}
  (hAtMost : atMost t t' = true)
  (plan : Plan R)

include hAtMost

omit plan in
theorem tracks_realExpectation
    (name : String)
    (a rho : Mat R) :
    Tracks (· = ·) (realExpectation t name a rho)
      (realExpectation t' name a rho) :=
  Tracks.bind_same rfl fun _ _ => .refusal fun hExceeds =>
    Comparable.less_of_atMost_of_less hAtMost hExceeds

theorem persists_measure
    (times : List R)
    (states : List (Mat R))
    (m : PlannedMeasurement) :
    Session.Persists (plan.measure t times states m)
      (plan.measure t' times states m) := by
  refine (Session.Persists.refl _).bind fun found => ?_
  refine (Session.Persists.refl _).bind fun operators => ?_
  rcases found with ⟨time, rho⟩
  cases hKind : m.kind with
  | observable =>
      cases operators with
      | nil => exact .refl _
      | cons a rest =>
          have hReal := tracks_realExpectation hAtMost m.name a rho
          exact (Session.Persists.lift hReal).bind fun x => .refl _
  | projective => exact .refl _
  | povm => exact .refl _

theorem persists_runExperiment
    (x : PlannedExperiment R) :
    Session.Persists (plan.runExperiment t x)
      (plan.runExperiment t' x) := by
  unfold runExperiment
  split
  · exact .fail
  · refine (Session.Persists.refl _).bind fun found => ?_
    refine Session.Persists.bind ?_ fun outcomes => .refl _
    exact .mapM (persists_measure hAtMost plan _ _) x.measurements

/- The experiments start from the same values kept. -/
theorem tracks_runAll_tolerance
    (xs : List (PlannedExperiment R))
    (memo : Memo R) :
    Tracks (· = ·) (plan.runAll t memo xs) (plan.runAll t' memo xs) := by
  induction xs generalizing memo with
  | nil => exact .of_eq rfl
  | cons x rest ih =>
      rcases hRun : (plan.runExperiment t x).run memo with ⟨result, later⟩
      cases result with
      | error fault =>
          rw [runAll, hRun]
          exact .of_error
      | ok result =>
          rw [runAll, runAll, hRun,
            persists_runExperiment hAtMost plan x memo result later hRun]
          exact (ih later).bind_eq fun _ => .of_eq rfl

theorem tracks_execute_tolerance
    (config : BackendConfig) :
    Tracks (· = ·) (plan.execute config t) (plan.execute config t') := by
  unfold execute
  split
  · exact (tracks_runAll_tolerance hAtMost plan _ _).bind_eq
      fun _ => .of_eq rfl
  · exact .of_error

end Executions

end Plan

end QuantumLab

------------------------------------------------------------
-- Programs and plans
------------------------------------------------------------

namespace QuantumLab

open Arithmetic

variable {R : Type} [Arithmetic R] [Comparable R]

/-
  A program that is valid up to a tolerance is valid up to
  every larger one, with the same results, and a plan that is
  executed with a tolerance is executed with every larger
  one, with the same results.
-/
theorem tolerance_monotone
    {t t' : R}
    (hAtMost : atMost t t' = true) :
    (∀ (typed : TypedProgram R) (validated : ValidatedProgram R),
      typed.validated t = .ok validated →
        typed.validated t' = .ok validated) ∧
      ∀ (plan : Plan R) (config : BackendConfig)
        (result : ExecutionResult R × Nat),
        plan.execute config t = .ok result →
          plan.execute config t' = .ok result := by
  constructor
  · intro typed validated hValidated
    have hWalk := Program.tracks_walk_eq
      (Validator.tracks_check_tolerance hAtMost) typed.program .initial
    exact (hWalk.bind_eq fun v => .of_eq rfl).eq_of_ok hValidated
  · intro plan config result hExecuted
    exact (Plan.tracks_execute_tolerance hAtMost plan config).eq_of_ok
      hExecuted

/- The spin of a ket that is not quite of length one is measured. -/
def looseSpin : Program Float :=
  [.experiment
    ⟨"spin",
      some ⟨.ket, .vector [.number ⟨1, 0⟩, .number ⟨0.25, 0⟩]⟩,
      none, [⟨0, "sigma_x"⟩]⟩]

theorem tolerance_monotone_looseSpin :
    atMost (0.125 : Float) 0.5 = true ∧
      ∃ typed validated plan result,
        looseSpin.typed = .ok typed ∧
        typed.validated (0.125 : Float) = .ok validated ∧
        typed.validated (0.5 : Float) = .ok validated ∧
        validated.plan = .ok plan ∧
        plan.execute {} (0.125 : Float) = .ok result ∧
        plan.execute {} (0.5 : Float) = .ok result := by
  have hAtMost : atMost (0.125 : Float) 0.5 = true := by
    decide +kernel
  have hAccepted : (do
      let typed ← looseSpin.typed.toOption
      let validated ← (typed.validated (0.125 : Float)).toOption
      let plan ← validated.plan.toOption
      let _ ← (plan.execute {} (0.125 : Float)).toOption
      return ()) = some () := by
    decide +kernel
  simp only [Option.bind_eq_bind, Option.bind_eq_some_iff,
    toOption_eq_some_iff] at hAccepted
  rcases hAccepted with
    ⟨typed, hTyped, validated, hValidated, plan, hPlan, result, hRun, _⟩
  rcases tolerance_monotone hAtMost with ⟨hValid, hExecuted⟩
  exact ⟨hAtMost, typed, validated, plan, result, hTyped, hValidated,
    hValid typed validated hValidated, hPlan, hRun,
    hExecuted plan {} result hRun⟩

end QuantumLab
