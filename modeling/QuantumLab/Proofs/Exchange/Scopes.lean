import QuantumLab.Proofs.Exchange.Experiments
import QuantumLab.Proofs.Exchange.Names
import QuantumLab.Proofs.Irrelevance.Scopes
import QuantumLab.Proofs.Irrelevance.Statements
import QuantumLab.Proofs.Typing.Declarations

/-
  This file says that two adjacent experiments are checked in
  either order.  Each records its initial state under a name
  that the other could refer to, but no experiment that is
  planned does so: the name has neither a value nor a node.

  Key definitions include:
    * `Lowering.Lacks`

  Main statements:
    * `Lowering.lacks_of_walk` says that a lowering lacks the
      names that no declaration introduces.
    * `Lowering.Lacks.avoids` says that an experiment that is
      planned avoids the names that the lowering lacks.
    * `Scope.exchange_checkExperiment` says that both orders
      lead to the same scope.
-/

------------------------------------------------------------
-- Names that a lowering lacks
------------------------------------------------------------

namespace QuantumLab

variable {R : Type}

/- A definition is that of a quantity. -/
theorem Statement.quantity?_of_definition
    {d : Statement R}
    {e : Expr R}
    (hDefinition : d.definition? = some e) :
    d.quantity? = some d.name := by
  cases d with
  | const name e => rfl
  | matrix name e => rfl
  | hamiltonian name parameters e => rfl
  | _ => cases hDefinition

theorem Predefined.find?_eq_none
    [Arithmetic R]
    {name : String}
    (hOther : name ∉ names) :
    (find? name : Option (Mat R)) = none := by
  rw [Option.eq_none_iff_forall_ne_some]
  exact fun a hFound => hOther
    (List.mem_map_of_mem (f := Prod.fst) (Rows.mem_of_find? hFound))

namespace Lowering

/- A name has neither a value nor a node, and is no measurement. -/
structure Lacks (s : Lowering R) (name : String) : Prop where
  environment : s.environment.lookup name = none
  symbols : s.symbols.find? name = none
  measurements : s.measurements.find? name = none

variable
  {s t : Lowering R}
  {name other : String}

theorem Lacks.emit
    (hLacks : s.Lacks name)
    (operation : Operation R)
    (shape : Shape) :
    (s.emit operation shape).2.Lacks name :=
  ⟨hLacks.environment, hLacks.symbols, hLacks.measurements⟩

theorem Lacks.bind
    (hLacks : s.Lacks name)
    (hOther : other ≠ name)
    (id : NodeId) :
    (s.bind other id).Lacks name where
  environment := hLacks.environment
  symbols := by
    rw [Lowering.bind, Table.find?_insert, if_neg hOther]
    exact hLacks.symbols
  measurements := hLacks.measurements

theorem Lacks.define
    (hLacks : s.Lacks name)
    (hOther : other ≠ name)
    (value : Value R) :
    (s.define other value).Lacks name where
  environment := by
    rw [Lowering.define, Environment.lookup_define, if_neg hOther]
    exact hLacks.environment
  symbols := hLacks.symbols
  measurements := hLacks.measurements

theorem Lacks.declareSymbolic
    (hLacks : s.Lacks name)
    (other : String) :
    (s.declareSymbolic other).Lacks name where
  environment := by
    rw [Lowering.declareSymbolic, Environment.lookup_declareSymbolic,
      hLacks.environment, ite_self]
  symbols := by
    rw [Lowering.declareSymbolic, Table.find?_erase, hLacks.symbols,
      ite_self]
  measurements := hLacks.measurements

variable [Arithmetic R]

/- Only names of predefined operators are bound on the way. -/
theorem isKept_lacks
    (hPredefined : (Predefined.find? name : Option (Mat R)) = none) :
    IsKept fun s : Lowering R => s.Lacks name where
  emit hLacks operation shape _ := hLacks.emit operation shape
  resolve hLacks hResolve := by
    rcases resolve_eq_ok_iff.1 hResolve with
      ⟨_, rfl⟩ | ⟨_, _, a, hFound, _, rfl⟩
    · exact hLacks
    · refine (hLacks.emit _ _).bind ?_ _
      rintro rfl
      cases hPredefined.symm.trans hFound

/- A statement that declares another name does not introduce it. -/
theorem Lacks.addStatement
    {d : Statement R}
    (hLacks : s.Lacks name)
    (hPredefined : (Predefined.find? name : Option (Mat R)) = none)
    (hOther : d.quantity? ≠ some name)
    (hAdd : s.addStatement d = .ok t) :
    t.Lacks name := by
  have hKept := isKept_lacks hPredefined
  cases adds_of_addStatement hAdd with
  | symbol _ _ => exact hLacks.declareSymbolic d.name
  | undefined _ _ => exact hLacks.declareSymbolic d.name
  | loaded hDefinition _ _ =>
      rw [Statement.quantity?_of_definition hDefinition] at hOther
      have hDifferent := fun hSame => hOther (congrArg some hSame)
      exact ((hLacks.define hDifferent _).emit _ _).bind hDifferent _
  | lowered hDefinition _ _ hLower =>
      rw [Statement.quantity?_of_definition hDefinition] at hOther
      have hDifferent := fun hSame => hOther (congrArg some hSame)
      have hLater := hKept.lowers (lowers_of_lower hLower)
        (hLacks.define hDifferent _)
      exact hLater.bind hDifferent _
  | measurement hMeasurement =>
      rcases loads_addMeasurement hMeasurement with
        ⟨last, ids, hLoads, rfl⟩
      have hLast := hKept.loads hLoads hLacks
      refine ⟨hLast.environment, hLast.symbols, ?_⟩
      rw [Table.find?_insert, if_neg fun hSame =>
        hOther (congrArg some hSame)]
      exact hLast.measurements
  | experiment hExperiment =>
      rcases loads_addExperiment hExperiment with
        ⟨last, planned, hLoads, rfl⟩
      have hLast := hKept.loads hLoads hLacks
      exact ⟨hLast.environment, hLast.symbols, hLast.measurements⟩

/- A lowering lacks the names that no declaration introduces. -/
theorem lacks_of_walk
    {p : Program R}
    (hPredefined : (Predefined.find? name : Option (Mat R)) = none)
    (hOther : ∀ d ∈ p, d.quantity? ≠ some name)
    (hWalk : p.walk addStatement initial = .ok s) :
    s.Lacks name := by
  refine Program.walk_induction
    (I := fun pre s => (∀ d ∈ pre, d.quantity? ≠ some name) →
      s.Lacks name) ?_ ?_ hWalk hOther
  · intro _
    refine ⟨?_, rfl, rfl⟩
    rw [initial, Environment.lookup_initial, hPredefined]
    rfl
  · intro pre mid d next hPre hAdd hDeclared
    rcases List.forall_mem_append.1 hDeclared with ⟨hBefore, hLast⟩
    exact (hPre hBefore).addStatement hPredefined
      (hLast d List.mem_cons_self) hAdd

theorem Lacks.not_canResolve
    (hLacks : s.Lacks name)
    (hPredefined : (Predefined.find? name : Option (Mat R)) = none) :
    ¬ s.CanResolve name := by
  rw [canResolve_iff]
  rintro (⟨id, hSymbol⟩ | ⟨_, a, hFound⟩)
  · cases hLacks.symbols.symm.trans hSymbol
  · cases hPredefined.symm.trans hFound

/- An experiment that is planned avoids names that are lacking. -/
theorem Lacks.avoids
    {x : Experiment R}
    (hLacks : s.Lacks name)
    (hPredefined : (Predefined.find? name : Option (Mat R)) = none)
    (hAdd : s.addExperiment x = .ok t) :
    x.Avoids name := by
  rcases addExperiment_eq_ok_iff.1 hAdd with
    ⟨constant, value, mid, planned, hStarts, hAll, hReads, _, _⟩
  -- what can be resolved is not the name
  have hOperators : ∀ other ∈ x.operators s.measurements.contains,
      other ≠ name := by
    rintro other hMember rfl
    exact hLacks.not_canResolve hPredefined
      (canResolve_emitConstant.1 (hAll.canResolve_of_mem hMember))
  refine ⟨?_, ?_, ?_⟩
  · intro state hState
    cases hStarts with
    | ket hState' _ hValue =>
        cases hState.symm.trans hState'
        exact Environment.avoids_of_evaluate hValue hLacks.environment
    | rho hState' _ hValue =>
        cases hState.symm.trans hState'
        exact Environment.avoids_of_evaluate hValue hLacks.environment
  · intro evolution hEvolution
    have hNames : ∀ other ∈ evolution.operators, other ≠ name :=
      fun other hMember => hOperators other
        (Experiment.mem_operators_of_evolution hEvolution hMember)
    rcases List.forall_mem_cons.1 hNames with ⟨hHamiltonian, hTerms⟩
    have hRelated := hReads.evolution
    rw [hEvolution] at hRelated
    rcases cases_of_rel hRelated with
      ⟨hNone, _⟩ | ⟨_, other, hSame, _, hEach⟩
    · cases hNone
    · cases hSame
      refine ⟨hHamiltonian, fun term hTerm => hTerms _
        (List.mem_map_of_mem hTerm), fun term hTerm => ?_⟩
      rcases exists_of_forall₂_left hEach.jumps term hTerm with
        ⟨jump, _, hJump⟩
      have hRate := hJump.rate
      rw [hAll.includes.environment] at hRate
      exact Environment.avoids_of_evaluateReal hRate hLacks.environment
  · rintro event hEvent rfl
    have hOther : s.measurements.contains event.measurement = false := by
      rw [Table.contains, hLacks.measurements]
      rfl
    exact hOperators _
      (Experiment.mem_operators_of_event hEvent hOther) rfl

end Lowering

end QuantumLab

------------------------------------------------------------
-- Scopes that agree
------------------------------------------------------------

namespace QuantumLab

variable {R : Type}

namespace Table

variable
  {α : Type}
  {name other : String}
  {t t' u : Table α}

theorem AgreesOff.symm
    (hAgrees : AgreesOff name t t') :
    AgreesOff name t' t :=
  fun key hKey => (hAgrees key hKey).symm

theorem AgreesOff.trans
    (hFirst : AgreesOff name t t')
    (hSecond : AgreesOff name t' u) :
    AgreesOff name t u :=
  fun key hKey => (hSecond key hKey).trans (hFirst key hKey)

/- Tables that agree off two names are the same. -/
theorem AgreesOff.eq_of_agreesOff
    (hFirst : AgreesOff name t t')
    (hSecond : AgreesOff other t t')
    (hDifferent : name ≠ other) :
    t' = t := by
  refine ext_find? fun key => ?_
  by_cases hKey : key = name
  · exact hSecond key (hKey ▸ hDifferent)
  · exact hFirst key hKey

end Table

namespace Scope

variable
  {name other : String}
  {scope scope' next last : Scope}

theorem AgreesOff.symm
    (hAgrees : AgreesOff name scope scope') :
    AgreesOff name scope' scope :=
  ⟨hAgrees.shapes.symm, hAgrees.functions.symm,
    hAgrees.measurements.symm, hAgrees.shadowable.symm,
    hAgrees.parameters.symm⟩

theorem AgreesOff.trans
    (hFirst : AgreesOff name scope scope')
    (hSecond : AgreesOff name scope' next) :
    AgreesOff name scope next :=
  ⟨hFirst.shapes.trans hSecond.shapes,
    hFirst.functions.trans hSecond.functions,
    hFirst.measurements.trans hSecond.measurements,
    hFirst.shadowable.trans hSecond.shadowable,
    hSecond.parameters.trans hFirst.parameters⟩

/- Scopes that agree off two names are the same. -/
theorem AgreesOff.eq_of_agreesOff
    (hFirst : AgreesOff name scope scope')
    (hSecond : AgreesOff other scope scope')
    (hDifferent : name ≠ other) :
    scope' = scope := by
  have hShapes := hFirst.shapes.eq_of_agreesOff hSecond.shapes hDifferent
  have hFunctions :=
    hFirst.functions.eq_of_agreesOff hSecond.functions hDifferent
  have hMeasurements :=
    hFirst.measurements.eq_of_agreesOff hSecond.measurements hDifferent
  have hShadowable :=
    hFirst.shadowable.eq_of_agreesOff hSecond.shadowable hDifferent
  have hParameters := hFirst.parameters
  cases scope
  cases scope'
  cases hShapes
  cases hFunctions
  cases hMeasurements
  cases hShadowable
  cases hParameters
  rfl

/- An experiment only records its initial state. -/
theorem agreesOff_of_checkExperiment
    {x : Experiment R}
    (hCheck : scope.checkExperiment x = .ok next) :
    AgreesOff (initialStateName x.name) scope next := by
  have hSame := AgreesOff.refl (initialStateName x.name) scope
  rcases admits_of_checkExperiment hCheck with ⟨dimension, hAdmits⟩
  have hState := hAdmits.state
  cases hSome : x.initialState with
  | none =>
      rw [hSome] at hState
      cases hState
      exact hSame
  | some state =>
      rw [hSome] at hState
      rcases bind_eq_ok_iff.1 hState with ⟨shape, _, hRest⟩
      rcases unit_bind_eq_ok_iff.1 hRest with ⟨_, hRest⟩
      rcases bind_eq_ok_iff.1 hRest with ⟨later, hDeclare, hDone⟩
      cases pure_eq_ok_iff.1 hDone
      exact hSame.declare_right hDeclare

/-
  Two adjacent experiments that do not refer to the initial
  states of each other are checked in either order, and the
  scope is the same.
-/
theorem exchange_checkExperiment
    {x y : Experiment R}
    (hAvoids : x.Avoids (initialStateName y.name))
    (hAvoids' : y.Avoids (initialStateName x.name))
    (hDifferent : initialStateName x.name ≠ initialStateName y.name)
    (hFirst : scope.checkExperiment x = .ok next)
    (hSecond : next.checkExperiment y = .ok last) :
    ∃ mid, scope.checkExperiment y = .ok mid ∧
      mid.checkExperiment x = .ok last := by
  have hNext := agreesOff_of_checkExperiment hFirst
  have hLast := agreesOff_of_checkExperiment hSecond
  rcases tracks_checkExperiment hNext.symm hDifferent.symm hAvoids' last
      hSecond with ⟨mid, hMid, hAgrees⟩
  have hMidAgrees := agreesOff_of_checkExperiment hMid
  rcases tracks_checkExperiment hMidAgrees hDifferent hAvoids next hFirst
    with ⟨last', hLast', hAgrees'⟩
  have hSame : last' = last :=
    (hAgrees.trans (agreesOff_of_checkExperiment hLast')).eq_of_agreesOff
      (hLast.symm.trans hAgrees') hDifferent
  rw [hSame] at hLast'
  exact ⟨mid, hMid, hLast'⟩

end Scope

end QuantumLab

------------------------------------------------------------
-- Adjacent experiments
------------------------------------------------------------

namespace QuantumLab

variable {R : Type} [Arithmetic R]

/- An experiment that is planned has an initial state to record. -/
theorem Lowering.recorded?_of_addExperiment
    {s t : Lowering R}
    {x : Experiment R}
    (hAdd : s.addExperiment x = .ok t) :
    (Statement.experiment x).recorded? =
      some (initialStateName x.name) := by
  rcases addExperiment_eq_ok_iff.1 hAdd with
    ⟨_, _, _, _, hStarts, _, _, _, _⟩
  cases hStarts with
  | ket hState _ _ =>
      simp [Statement.recorded?, Statement.quantity?, Statement.state?,
        hState]
  | rho hState _ _ =>
      simp [Statement.recorded?, Statement.quantity?, Statement.state?,
        hState]

omit [Arithmetic R] in
/- No statement before an experiment has its initial state's name. -/
theorem Scope.Records.not_givesShape
    {p : Program R}
    {scope next : Scope}
    {x : Experiment R}
    {name : String}
    (hRecords : Scope.Records p scope)
    (hCheck : scope.checkExperiment x = .ok next)
    (hRecorded : (Statement.experiment x).recorded? = some name) :
    ¬ p.GivesShape name := by
  cases takes_of_checkExperiment hCheck with
  | function hName _ _ => cases hName
  | record hName hFree _ _ _ =>
      cases hName.symm.trans hRecorded
      exact (hRecords.free_iff.1 hFree).1
  | nothing _ hNothing => cases hNothing.symm.trans hRecorded

/- A lowering lacks the name of a state that is not recorded yet. -/
theorem Lowering.lacks_of_not_givesShape
    {p : Program R}
    {s : Lowering R}
    {experiment : String}
    (hLowered : p.walk Lowering.addStatement .initial = .ok s)
    (hNew : ¬ p.GivesShape (initialStateName experiment)) :
    s.Lacks (initialStateName experiment) := by
  refine lacks_of_walk
    (Predefined.find?_eq_none (initialStateName_not_predefined _))
    (fun d hMember hName => hNew ⟨d, hMember, ?_⟩) hLowered
  exact Statement.recorded?_eq_some_iff.2 (.inl hName)

/-
  Two adjacent experiments that are planned do not refer to
  the initial states of each other.  The states are recorded
  under different names, the first of which is new.
-/
theorem Program.avoids_of_adjacent
    {p : Program R}
    {x y : Experiment R}
    {scope next last : Scope}
    {s t u : Lowering R}
    (hChecked : p.walk Scope.check .initial = .ok scope)
    (hCheck : scope.checkExperiment x = .ok next)
    (hCheck' : next.checkExperiment y = .ok last)
    (hLowered : p.walk Lowering.addStatement .initial = .ok s)
    (hAdd : s.addExperiment x = .ok t)
    (hAdd' : t.addExperiment y = .ok u) :
    s.Lacks (initialStateName x.name) ∧
      x.Avoids (initialStateName y.name) ∧
      y.Avoids (initialStateName x.name) ∧
      initialStateName x.name ≠ initialStateName y.name := by
  have hRecords := Scope.records_of_walk hChecked
  have hRecorded := Lowering.recorded?_of_addExperiment hAdd
  have hNew := hRecords.not_givesShape hCheck hRecorded
  have hNew' := ((Scope.takes_of_checkExperiment hCheck).records
    hRecords).not_givesShape hCheck'
      (Lowering.recorded?_of_addExperiment hAdd')
  rw [givesShape_append, not_or, hRecorded] at hNew'
  rcases hNew' with ⟨hNew', hDifferent⟩
  have hLacks := Lowering.lacks_of_not_givesShape hLowered hNew
  have hLacks' := Lowering.lacks_of_not_givesShape hLowered hNew'
  have hLater := hLacks.addStatement (d := .experiment x)
    (Predefined.find?_eq_none (initialStateName_not_predefined _))
    nofun hAdd
  refine ⟨hLacks, ?_, ?_, fun hSame => hDifferent (congrArg some hSame)⟩
  · exact hLacks'.avoids
      (Predefined.find?_eq_none (initialStateName_not_predefined _)) hAdd
  · exact hLater.avoids
      (Predefined.find?_eq_none (initialStateName_not_predefined _)) hAdd'

end QuantumLab
