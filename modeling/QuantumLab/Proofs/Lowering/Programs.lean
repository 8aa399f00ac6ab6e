import Mathlib.Data.Option.Basic
import QuantumLab.Double
import QuantumLab.Proofs.Lowering.Experiments
import QuantumLab.Proofs.Validation.References

/-
  This file says what the nodes of a plan compute that the
  names and the experiments of a program refer to.

  Key definitions include:
    * `Program.TensorsFit`
    * `Program.Steady`
    * `PlannedExperiment.Realizes`
    * `Plan.StandsFor`

  Main statements:
    * `Lowering.follows_of_walk` says that a whole lowering
      keeps to what is planned.
    * `Program.meaning_of_steady` says that the nodes of a
      steady program compute the values of its names.
    * `Program.plan_computes` says when the plan of a program
      computes what its validation has checked.
-/

------------------------------------------------------------
-- Lowering of programs
------------------------------------------------------------

namespace QuantumLab

variable {R : Type} [Arithmetic R]

/- The Kronecker products of a program fit into machine words. -/
def Program.TensorsFit
    (names : Environment R) : Program R → Prop
  | [] => True
  | d :: rest =>
      names.StatementFits d ∧
        Program.TensorsFit (names.after d) rest

theorem Program.tensorsFit_append
    {names : Environment R}
    {pre : Program R}
    {d : Statement R} :
    Program.TensorsFit names (pre ++ [d]) ↔
      pre.TensorsFit names ∧
        (pre.foldl Environment.after names).StatementFits d := by
  induction pre generalizing names with
  | nil => simp [Program.TensorsFit]
  | cons first pre ih =>
      rw [List.cons_append, Program.TensorsFit, Program.TensorsFit, ih,
        and_assoc]
      rfl

namespace Lowering

/- A whole lowering keeps to what is planned. -/
theorem follows_of_walk
    {s t : Lowering R}
    {exact : Prop}
    {m : Meaning R}
    {program : Program R}
    (hFollows : s.Follows exact m)
    (hFits : exact → program.TensorsFit m.names)
    (hWalk : program.walk addStatement s = .ok t) :
    s.Grows t ∧ t.Follows exact (program.foldl Meaning.after m) := by
  induction program generalizing s m with
  | nil =>
      rw [← Except.ok.inj hWalk]
      exact ⟨.of_eq rfl rfl, hFollows⟩
  | cons d rest ih =>
      rcases Program.walk_cons.1 hWalk with ⟨next, hAdd, hRest⟩
      have hAdvances :=
        advances_addStatement hFollows (fun h => (hFits h).1) hAdd
      rcases ih hAdvances.follows (fun h => (hFits h).2) hRest with
        ⟨hGrows, hLast⟩
      exact ⟨hAdvances.grows.trans hGrows, hLast⟩

/- The first steps of a lowering keep to what is planned. -/
theorem follows_of_prefix
    {s : Lowering R}
    {pre : Program R}
    (hWalk : pre.walk addStatement initial = .ok s) :
    s.Follows False pre.meaning :=
  (follows_of_walk follows_initial (fun h => h.elim) hWalk).2

/- Lowering notes the measurements that are defined. -/
theorem contains_addStatement
    {s next : Lowering R}
    {m : Meaning R}
    {d : Statement R}
    (hFollows : s.Follows False m)
    (hAdd : s.addStatement d = .ok next)
    (name : String) :
    next.measurements.contains name =
      (d.measures name || s.measurements.contains name) := by
  have hSame : (∀ other, d.measures other = false) →
      next.measurements.contains name =
        (d.measures name || s.measurements.contains name) := by
    intro hOther
    have hAdvances :=
      advances_addStatement hFollows (fun h => h.elim) hAdd
    rw [hAdvances.measurements hOther, hOther name, Bool.false_or]
  cases d with
  | measurement other kind operators =>
      rcases measurements_addMeasurement hFollows hAdd with
        ⟨_, _, _, ids, hMeasurements, _⟩
      rw [hMeasurements, Table.contains_insert]
      rfl
  | empty => exact hSame fun _ => rfl
  | const other e => exact hSame fun _ => rfl
  | symbol other => exact hSame fun _ => rfl
  | matrix other e => exact hSame fun _ => rfl
  | function other parameters body => exact hSame fun _ => rfl
  | hamiltonian other parameters e => exact hSame fun _ => rfl
  | experiment x => exact hSame fun _ => rfl

/- A lowering adds the experiments of a program in their order. -/
theorem experiments_of_walk
    {s t : Lowering R}
    {m : Meaning R}
    {program : Program R}
    (hFollows : s.Follows False m)
    (hWalk : program.walk addStatement s = .ok t) :
    ∃ added, t.plan.experiments = s.plan.experiments ++ added ∧
      added.length = program.experiments.length := by
  induction program generalizing s m with
  | nil =>
      rw [← Except.ok.inj hWalk]
      exact ⟨[], (List.append_nil _).symm, rfl⟩
  | cons d rest ih =>
      rcases Program.walk_cons.1 hWalk with ⟨next, hAdd, hRest⟩
      rcases experiments_addStatement hFollows (fun h => h.elim) hAdd
        with ⟨first, hFirst, hPlans⟩
      have hAdvances :=
        advances_addStatement hFollows (fun h => h.elim) hAdd
      rcases ih hAdvances.follows hRest with ⟨later, hLater, hRestLength⟩
      refine ⟨first ++ later, ?_, ?_⟩
      · rw [hLater, hFirst, List.append_assoc]
      · rw [List.length_append, ← hPlans.length_eq, hRestLength,
          Program.experiments_cons, List.length_append]

/- The position of an experiment in a plan is that in the program. -/
theorem getElem?_experiments
    {s next last : Lowering R}
    {m : Meaning R}
    {pre post : Program R}
    {planned : PlannedExperiment R}
    (hPre : pre.walk addStatement initial = .ok s)
    (hPlanned :
      next.plan.experiments = s.plan.experiments ++ [planned])
    (hFollows : next.Follows False m)
    (hPost : post.walk addStatement next = .ok last) :
    last.plan.experiments[pre.experiments.length]? = some planned := by
  rcases experiments_of_walk follows_initial hPre with
    ⟨earlier, hEarlier, hLength⟩
  rcases experiments_of_walk hFollows hPost with ⟨others, hOthers, _⟩
  have hPlaces : last.plan.experiments =
      earlier ++ (planned :: others) := by
    rw [hOthers, hPlanned, hEarlier, List.append_assoc]
    rfl
  rw [hPlaces, ← hLength, List.getElem?_append_right (Nat.le_refl _),
    Nat.sub_self]
  rfl

end Lowering

namespace Program

/- Lowering leaves the names of measurements behind. -/
theorem measures_of_lowering
    {s : Lowering R}
    {pre : Program R}
    (hWalk : pre.walk Lowering.addStatement .initial = .ok s)
    (name : String) :
    s.measurements.contains name = pre.measures name := by
  have hBoth := walk_induction
    (I := fun pre s => s.Follows False (Program.meaning pre) ∧
      s.measurements.contains name = Program.measures pre name)
    ⟨Lowering.follows_initial, rfl⟩ ?_ hWalk
  · exact hBoth.2
  · rintro pre s d next ⟨hFollows, hKnows⟩ hAdd
    refine ⟨?_, ?_⟩
    · rw [meaning_append]
      exact (Lowering.advances_addStatement hFollows
        (fun h => h.elim) hAdd).follows
    · rw [Lowering.contains_addStatement hFollows hAdd, hKnows,
        measures_append]

end Program

end QuantumLab

------------------------------------------------------------
-- Steady programs
------------------------------------------------------------

namespace QuantumLab

variable {R : Type} [Arithmetic R]

/-
  The folded parts of the definitions of a program have the
  values that they have before their names are declared, and
  sums come out the same with and without the unit factor.
-/
def Program.Steady (names : Environment R) : Program R → Prop
  | [] => True
  | d :: rest =>
      (∀ e value, d.definition? = some e →
        names.evaluate e = .ok value → d.isLoaded = false →
          e.Steady names (names.define d.name value)) ∧
        Program.Steady (names.after d) rest

/- The nodes of names compute the values of the names. -/
def Meaning.Exact (m : Meaning R) : Prop :=
  ∀ name v, m.names.lookup name = some v → m.nodes name = some v

/- The node of a steady definition computes its value. -/
theorem Meaning.Exact.planned
    {m : Meaning R}
    {d : Statement R}
    {e : Expr R}
    {value : Value R}
    (hExact : m.Exact)
    (hValue : m.names.evaluate e = .ok value)
    (hSteady : d.isLoaded = false →
      e.Steady m.names (m.names.define d.name value)) :
    m.planned d e value = some value := by
  rw [Meaning.planned]
  by_cases hLoaded : d.isLoaded = true
  · rw [if_pos hLoaded]
  · rw [if_neg hLoaded]
    rw [Bool.not_eq_true] at hLoaded
    exact Expr.planned_eq_of_steady hExact hValue (hSteady hLoaded)

theorem Meaning.Exact.after
    {m : Meaning R}
    {d : Statement R}
    (hExact : m.Exact)
    (hSteady : ∀ e value, d.definition? = some e →
      m.names.evaluate e = .ok value → d.isLoaded = false →
        e.Steady m.names (m.names.define d.name value)) :
    (m.after d).Exact := by
  intro name v hName
  rcases Environment.lookup_after hName with
    ⟨rfl, e, hDefinition, hValue⟩ | ⟨hBefore, hOther⟩
  · rw [Lowering.nodes_after_self hDefinition hValue]
    exact hExact.planned hValue (hSteady e v hDefinition hValue)
  · change (if d.name = name then m.declared d else m.nodes name) = some v
    by_cases hSame : d.name = name
    · rcases hOther hSame with ⟨hDefinition, hSymbol⟩
      rw [if_pos hSame, Meaning.declared, hDefinition]
      simp only [hSymbol, Bool.false_eq_true, if_false]
      rw [hSame]
      exact hExact name v hBefore
    · rw [if_neg hSame]
      exact hExact name v hBefore

/- The nodes of a steady program compute the values of its names. -/
theorem Program.meaning_of_steady
    {program : Program R}
    (hSteady : program.Steady .initial) :
    program.meaning.Exact := by
  have hFold : ∀ m : Meaning R, m.Exact →
      program.Steady m.names → (program.foldl Meaning.after m).Exact := by
    clear hSteady
    induction program with
    | nil =>
        intro m hExact _
        exact hExact
    | cons d rest ih =>
        intro m hExact hSteady
        exact ih (m.after d) (hExact.after hSteady.1) hSteady.2
  exact hFold .initial (fun _ _ hName => hName) hSteady

theorem Program.steady_append
    {names : Environment R}
    {pre : Program R}
    {d : Statement R} :
    Program.Steady names (pre ++ [d]) ↔
      pre.Steady names ∧ ∀ e value, d.definition? = some e →
        (pre.foldl Environment.after names).evaluate e = .ok value →
          d.isLoaded = false →
            e.Steady (pre.foldl Environment.after names)
              ((pre.foldl Environment.after names).define d.name
                value) := by
  induction pre generalizing names with
  | nil => simp [Program.Steady]
  | cons first pre ih =>
      rw [List.cons_append, Program.Steady, Program.Steady, ih,
        and_assoc]
      rfl

/- A definition of a new name only needs steady sums. -/
theorem Expr.Steady.of_fresh
    {names : Environment R}
    {name : String}
    {e : Expr R}
    {value : Value R}
    (hFresh : names.lookup name = none)
    (hValue : names.evaluate e = .ok value)
    (hSteady : e.Steady names names) :
    e.Steady names (names.define name value) :=
  hSteady.of_extends (Environment.extends_define hFresh value) hValue

end QuantumLab

------------------------------------------------------------
-- Experiments of plans
------------------------------------------------------------

namespace QuantumLab

variable {R : Type}

/-
  An experiment of a plan refers to nodes that stand for the
  operators of an experiment of a program: its Hamiltonian,
  its jump operators and its observables.
-/
structure PlannedExperiment.Realizes
    (stands : String → NodeId → Prop)
    (measured : String → Bool)
    (x : Experiment R)
    (planned : PlannedExperiment R) : Prop where
  name : planned.name = x.name
  evolution : Option.Rel
    (fun evolution plannedEvolution =>
      stands evolution.hamiltonian plannedEvolution.hamiltonian ∧
        List.Forall₂
          (fun term jump => stands term.operator jump.operator)
          evolution.terms plannedEvolution.jumps)
    x.evolution planned.evolution
  observables : List.Forall₂
    (fun event entry => measured event.measurement = false →
      ∃ id, entry.operators = [id] ∧ stands event.measurement id)
    x.schedule planned.measurements

theorem PlannedExperiment.Realizes.imp
    {stands stands' : String → NodeId → Prop}
    {measured : String → Bool}
    {x : Experiment R}
    {planned : PlannedExperiment R}
    (hRealizes : planned.Realizes stands measured x)
    (hStands : ∀ name id, stands name id → stands' name id) :
    planned.Realizes stands' measured x where
  name := hRealizes.name
  evolution := by
    have hEvolution := hRealizes.evolution
    revert hEvolution
    generalize x.evolution = evolution
    generalize planned.evolution = plannedEvolution
    rintro (⟨hHamiltonian, hJumps⟩ | _)
    · exact .some ⟨hStands _ _ hHamiltonian,
        hJumps.imp fun _ _ => hStands _ _⟩
    · exact .none
  observables := hRealizes.observables.imp fun _ _ hEvent hOther => by
    rcases hEvent hOther with ⟨id, hOperators, hStandsFor⟩
    exact ⟨id, hOperators, hStands _ _ hStandsFor⟩

variable [Arithmetic R]

namespace Plan

/-
  A name is that of an operator, and a node computes what is
  planned for the name.
-/
def StandsFor
    (plan : Plan R)
    (m : Meaning R)
    (name : String)
    (id : NodeId) : Prop :=
  ∃ a, m.names.lookup name = some (.matrix a) ∧
    ∀ w, plan.EvaluatesTo id w ↔ m.nodes name = some w

/- A node computes the operator of a name. -/
def Computes
    (plan : Plan R)
    (names : Environment R)
    (name : String)
    (id : NodeId) : Prop :=
  ∃ a, names.lookup name = some (.matrix a) ∧
    plan.EvaluatesTo id (.matrix a)

theorem StandsFor.computes
    {plan : Plan R}
    {m : Meaning R}
    {name : String}
    {id : NodeId}
    (hStands : plan.StandsFor m name id)
    (hExact : m.Exact) :
    plan.Computes m.names name id := by
  rcases hStands with ⟨a, hName, hComputes⟩
  exact ⟨a, hName, (hComputes _).2 (hExact name _ hName)⟩

end Plan

namespace Lowering

/- A node of a validated operator stands for the operator. -/
theorem Refers.standsFor
    {s : Lowering R}
    {m : Meaning R}
    {name : String}
    {id : NodeId}
    (hRefers : s.Refers False m name id)
    (hKnown : m.names.KnowsOperator name) :
    s.plan.StandsFor m name id := by
  rcases hKnown with hSymbolic | ⟨a, hName⟩
  · rw [hRefers.known] at hSymbolic
    cases hSymbolic
  · refine ⟨a, hName, fun w => ?_⟩
    rw [Plan.evaluatesTo_iff_value?, (hRefers.stands _ hName).value]

/- The experiment of a plan realizes that of the program. -/
theorem PlansExperiment.realizes
    {s : Lowering R}
    {exact : Prop}
    {m : Meaning R}
    {table : Table (OutcomeKind × List NodeId)}
    {x : Experiment R}
    {planned : PlannedExperiment R}
    {stands : String → NodeId → Prop}
    (hPlans : s.PlansExperiment exact m table x planned)
    (hObserved : ∀ name ∈ x.observed table.contains,
      m.names.KnowsOperator name)
    (hJumps : ∀ name ∈ x.jumpOperators, m.names.KnowsOperator name)
    (hStands : ∀ name id, s.Refers exact m name id →
      m.names.KnowsOperator name → stands name id) :
    planned.Realizes stands table.contains x where
  name := hPlans.name
  evolution := by
    have hEvolution := hPlans.evolution
    cases hSome : x.evolution with
    | none =>
        rw [hSome] at hEvolution
        generalize planned.evolution = plannedEvolution at hEvolution
        cases hEvolution
        exact .none
    | some evolution =>
        rw [hSome] at hEvolution
        generalize planned.evolution = plannedEvolution at hEvolution
        rcases hEvolution with ⟨hBoth⟩
        have hHamiltonian :=
          hObserved _ (Experiment.hamiltonian_mem_observed hSome _)
        have hOperators : ∀ term ∈ evolution.terms,
            m.names.KnowsOperator term.operator := by
          intro term hTerm
          apply hJumps
          exact Experiment.operator_mem_jumpOperators hSome hTerm
        refine .some
          ⟨hStands _ _ hBoth.hamiltonian hHamiltonian, ?_⟩
        have hTerms :=
          (List.forall₂_and_left _ _).2 ⟨hOperators, hBoth.jumps⟩
        exact hTerms.imp fun term jump hTerm =>
          hStands _ _ hTerm.2.operator hTerm.1
  observables := by
    have hObservables : ∀ event ∈ x.schedule,
        table.contains event.measurement = false →
          m.names.KnowsOperator event.measurement :=
      fun event hEvent hOther =>
        hObserved _ (Experiment.event_mem_observed hEvent hOther)
    have hEvents := (List.forall₂_and_left _ _).2
      ⟨hObservables, hPlans.schedule⟩
    refine hEvents.imp fun event entry hEvent hOther => ?_
    rcases hEvent with ⟨hKnown, hPlanned⟩
    cases hPlanned with
    | measurement hFound =>
        rw [Table.contains, hFound] at hOther
        cases hOther
    | observable hNone hOperator =>
        exact ⟨_, rfl, hStands _ _ hOperator (hKnown hOther)⟩

end Lowering

end QuantumLab

------------------------------------------------------------
-- Plans of programs
------------------------------------------------------------

namespace QuantumLab

variable {R : Type} [Arithmetic R]

namespace Program

/- The experiment of a plan at the position of an experiment. -/
theorem realizes_of_walk
    {tolerance : R}
    {exact : Prop}
    {pre : Program R}
    {x : Experiment R}
    {v next : Validator R}
    {s last : Lowering R}
    (hValidated : pre.walk (Validator.check tolerance) .initial = .ok v)
    (hCheck : Validator.checkExperiment tolerance v x = .ok next)
    (hLowered : pre.walk Lowering.addStatement .initial = .ok s)
    (hFollows : s.Follows exact pre.meaning)
    (hAdd : s.addExperiment x = .ok last) :
    ∃ planned,
      last.plan.experiments = s.plan.experiments ++ [planned] ∧
        last.PlansExperiment exact pre.meaning s.measurements x
          planned ∧
          (∀ name ∈ x.observed s.measurements.contains,
            pre.meaning.names.KnowsOperator name) ∧
          ∀ name ∈ x.jumpOperators,
            pre.meaning.names.KnowsOperator name := by
  rcases Lowering.plans_addExperiment hFollows hAdd with
    ⟨_, _, _, planned, hPlanned, hPlans⟩
  rcases Validator.admits_of_checkExperiment hCheck with ⟨mid, hAdmits⟩
  have hNames : v.environment = pre.meaning.names := by
    rw [names_meaning, environment_of_validation hValidated]
  have hMeasured : v.measurements.contains = s.measurements.contains := by
    funext name
    rw [measures_of_validation hValidated, measures_of_lowering hLowered]
  refine ⟨planned, hPlanned, hPlans, ?_, ?_⟩
  · rw [← hNames, ← hMeasured]
    exact hAdmits.knowsOperators
  · rw [← hNames]
    exact hAdmits.jumps

/-
  The node that a definition binds its name to evaluates to
  what is planned for the definition, which is the value that
  the validation checks if the definitions are steady.  So do
  the nodes of the operators of experiments.
-/
theorem plan_computes
    {options : Options R}
    {pre post : Program R}
    {d : Statement R}
    {plan : Plan R}
    (hPlan : Program.plan options (pre ++ d :: post) = .ok plan) :
    ∃ v s,
      pre.walk (Validator.check options.validationTolerance) .initial =
        .ok v ∧
      Program.walk Lowering.addStatement .initial (pre ++ [d]) =
        .ok s ∧
      (∀ e value, d.definition? = some e →
        v.environment.evaluate e = .ok value →
          ∃ id, s.symbols.find? d.name = some id ∧
            (∀ w, plan.EvaluatesTo id w ↔
              pre.meaning.planned d e value = some w) ∧
            (Program.Steady .initial (pre ++ [d]) →
              plan.EvaluatesTo id value)) ∧
      ∀ x, d.experiment? = some x →
        ∃ planned,
          plan.experiments[pre.experiments.length]? = some planned ∧
          planned.Realizes (plan.StandsFor pre.meaning) pre.measures
            x ∧
          (pre.Steady .initial →
            planned.Realizes (plan.Computes v.environment)
              pre.measures x) := by
  rcases stages_of_plan hPlan with ⟨scope, last, t, hPasses⟩
  rcases walk_append.1 hPasses.validated with ⟨v, hValidated, hRest⟩
  rcases walk_cons.1 hRest with ⟨next, hCheck, _⟩
  rcases walk_append.1 hPasses.lowered with ⟨before, hBefore, hLater⟩
  rcases walk_cons.1 hLater with ⟨s, hAdd, hPost⟩
  have hFollows := Lowering.follows_of_prefix hBefore
  have hAdvances :=
    Lowering.advances_addStatement hFollows (fun h => h.elim) hAdd
  have hGrows : s.Grows t :=
    (Lowering.follows_of_walk hAdvances.follows (fun h => h.elim)
      hPost).1
  have hNames : v.environment = pre.meaning.names := by
    rw [names_meaning, environment_of_validation hValidated]
  refine ⟨v, s, hValidated,
    walk_append.2 ⟨before, hBefore, walk_single.2 hAdd⟩, ?_, ?_⟩
  · intro e value hDefinition hValue
    rw [hNames] at hValue
    rcases hAdvances.defined e value hDefinition hValue with
      ⟨id, hSymbol, hYields⟩
    have hFinal :=
      hYields.later hAdvances.follows.binds.aligned hGrows
    have hComputes : ∀ w, plan.EvaluatesTo id w ↔
        pre.meaning.planned d e value = some w := by
      intro w
      rw [← hPasses.plan_eq, Plan.evaluatesTo_iff_value?, hFinal.value]
    refine ⟨id, hSymbol, hComputes, fun hSteady => ?_⟩
    rcases steady_append.1 hSteady with ⟨hPre, hLast⟩
    rw [hComputes]
    apply (meaning_of_steady hPre).planned hValue
    rw [names_meaning] at hValue ⊢
    exact hLast e value hDefinition hValue
  · intro x hExperiment
    cases Statement.experiment?_eq_some_iff.1 hExperiment
    rcases realizes_of_walk hValidated hCheck hBefore hFollows hAdd with
      ⟨planned, hPlanned, hPlans, hObserved, hJumps⟩
    have hFinal :=
      hPlans.later hAdvances.follows.binds.aligned hGrows
    have hRealizes := hFinal.realizes hObserved hJumps
      fun _ _ hRefers hKnown => hRefers.standsFor hKnown
    have hMeasured : before.measurements.contains = pre.measures := by
      funext name
      exact measures_of_lowering hBefore name
    rw [hPasses.plan_eq, hMeasured] at hRealizes
    refine ⟨planned, ?_, hRealizes, fun hSteady => ?_⟩
    · rw [← hPasses.plan_eq]
      exact Lowering.getElem?_experiments hBefore hPlanned
        hAdvances.follows hPost
    · rw [hNames]
      exact hRealizes.imp fun _ _ hStands =>
        hStands.computes (meaning_of_steady hSteady)

/- A multiple of a predefined operator, under a name of its own. -/
def doubledZ : Expr Float :=
  .binary .multiply (.number ⟨2, 0⟩) (.identifier "sigma_z")

/- The node of a multiple of a predefined operator. -/
theorem plan_computes_doubledZ :
    ∃ plan s id a,
      Program.plan Options.default [.matrix "double_z" doubledZ] =
        .ok plan ∧
      Program.walk Lowering.addStatement .initial
        [.matrix "double_z" doubledZ] = .ok s ∧
      s.symbols.find? "double_z" = some id ∧
      (Environment.initial : Environment Float).evaluate doubledZ =
        .ok (.matrix a) ∧
      plan.EvaluatesTo id (.matrix a) := by
  have hPlanned :
      (Program.plan Options.default
        [.matrix "double_z" doubledZ]).isOk = true := by
    decide +kernel
  have hZ : (Environment.initial : Environment Float).resolve
      "sigma_z" = .ok (.matrix Predefined.pauliZ) :=
    Environment.resolve_eq_ok_iff.2 (Environment.lookup_initial "sigma_z")
  have hValue :
      (Environment.initial : Environment Float).evaluate doubledZ =
        .ok (.matrix (Predefined.pauliZ.scale ⟨2, 0⟩)) := by
    simp [doubledZ, Environment.evaluate, hZ, BinaryOp.apply,
      multiplyValues, Value.scale]
  have hFresh : (Environment.initial : Environment Float).lookup
      "double_z" = none :=
    Environment.lookup_initial "double_z"
  have hSums : doubledZ.Steady (.initial : Environment Float) .initial :=
    ⟨rfl, trivial, fun _ _ _ _ => rfl⟩
  have hSteady :
      Program.Steady (R := Float) .initial
        [.matrix "double_z" doubledZ] := by
    refine ⟨?_, trivial⟩
    rintro e value ⟨⟩ hEvaluated _
    exact hSums.of_fresh hFresh hEvaluated
  cases hPlan : Program.plan Options.default
      [.matrix "double_z" doubledZ] with
  | error halt =>
      rw [hPlan] at hPlanned
      cases hPlanned
  | ok plan =>
      have hSplit :
          Program.plan Options.default
            ([] ++ .matrix "double_z" doubledZ :: []) = .ok plan :=
        hPlan
      rcases plan_computes hSplit with
        ⟨v, s, hValidated, hLowered, hDefinitions, _⟩
      cases hValidated
      rcases hDefinitions doubledZ _ rfl hValue with
        ⟨id, hSymbol, _, hComputes⟩
      refine ⟨plan, s, id, _, rfl, ?_, hSymbol, hValue, ?_⟩
      · exact hLowered
      · exact hComputes hSteady

/- A predefined operator is divided by the trace of its square. -/
def normalizedX : Expr Float :=
  .binary .divide (.identifier "sigma_x")
    (.unary .trace
      (.binary .multiply (.identifier "sigma_x")
        (.identifier "sigma_x")))

/-
  The divisor of a definition that shadows an operator is
  folded with the operator that the definition gives, so the
  node of the name has larger entries than the value.
-/
theorem shadowing_folds_new_operator :
    ∃ plan s id a b,
      Program.plan Options.default [.matrix "sigma_x" normalizedX] =
        .ok plan ∧
      Program.walk Lowering.addStatement .initial
        [.matrix "sigma_x" normalizedX] = .ok s ∧
      s.symbols.find? "sigma_x" = some id ∧
      (Environment.initial : Environment Float).evaluate normalizedX =
        .ok (.matrix a) ∧
      plan.EvaluatesTo id (.matrix b) ∧
      Arithmetic.less (a.entry 0 1).re 1.0 = true ∧
      Arithmetic.less (b.entry 0 1).re 1.0 = false ∧
      ¬ plan.EvaluatesTo id (.matrix a) := by
  have hDiffer : (do
      let plan ← (Program.plan Options.default
        [.matrix "sigma_x" normalizedX]).toOption
      let s ← (Program.walk Lowering.addStatement .initial
        [.matrix "sigma_x" normalizedX]).toOption
      let id ← s.symbols.find? "sigma_x"
      let a ← ((Environment.initial : Environment Float).evaluate
        normalizedX).toOption.bind Value.matrix?
      let b ← (plan.value? id).bind Value.matrix?
      guard (Arithmetic.less (a.entry 0 1).re 1.0 = true ∧
        Arithmetic.less (b.entry 0 1).re 1.0 = false)) = some () := by
    decide +kernel
  simp only [Option.bind_eq_bind, Option.bind_eq_some_iff,
    toOption_eq_some_iff, Value.matrix?_eq_some_iff,
    Option.guard_eq_some'] at hDiffer
  rcases hDiffer with
    ⟨plan, hPlan, s, hLowered, id, hSymbol, a, ⟨_, hValue, rfl⟩, b,
      ⟨_, hNode, rfl⟩, hSmall, hLarge⟩
  rw [← Plan.evaluatesTo_iff_value?] at hNode
  refine ⟨plan, s, id, a, b, hPlan, hLowered, hSymbol, hValue, hNode,
    hSmall, hLarge, fun hSame => ?_⟩
  cases hSame.unique hNode
  rw [hLarge] at hSmall
  cases hSmall

end Program

end QuantumLab
