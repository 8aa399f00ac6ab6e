import Mathlib.Data.Option.Basic
import QuantumLab.Double
import QuantumLab.Proofs.Dense.Extents
import QuantumLab.Proofs.Typing.Scopes
import QuantumLab.Proofs.Validation.References

/-
  This file says which operators of experiments are Hermitian
  after a validation.  A name that was noted as Hermitian is
  not checked again, also when it has come to stand for
  another operator since.

  Key definitions include:
    * `Program.Records`
    * `Program.HasObserved`
    * `Program.Stale`
    * `Validator.Honest`

  Main statements:
    * `Validator.Honest.check` says that the check of a
      statement keeps the notes honest.
    * `Program.Stale.checkObservable` says that stale names
      are accepted whatever they stand for.
    * `Program.observed_hermitian` says that the operators of
      experiments are Hermitian unless their notes are stale.
-/

------------------------------------------------------------
-- Notes
------------------------------------------------------------

namespace QuantumLab

variable {R : Type}

namespace Program

/- A name is that of an operator of a measurement. -/
def Records (pre : Program R) (name : String) : Prop :=
  ∃ other kind operators k,
    .measurement other kind operators ∈ pre ∧
      k < operators.length ∧ name = operatorName other k

theorem Records.append
    {pre : Program R}
    {name : String}
    (hRecords : pre.Records name)
    (d : Statement R) :
    Program.Records (pre ++ [d]) name := by
  rcases hRecords with ⟨other, kind, operators, k, hMember, hRest⟩
  exact ⟨other, kind, operators, k,
    List.mem_append_left _ hMember, hRest⟩

variable [Arithmetic R]

/- An experiment has referred to the operator that a name stood for. -/
def HasObserved (pre : Program R) (name : String) : Prop :=
  ∃ (before : Program R) (x : Experiment R) (after : Program R),
    pre = before ++ .experiment x :: after ∧
    name ∈ x.observed before.measures ∧
    before.environment.isSymbolic name = false

/-
  A note on a name says nothing about the operator that the
  name stands for: the name is also that of an operator of a
  measurement, or it was given another value after an
  experiment had referred to it.
-/
def Stale (pre : Program R) (name : String) : Prop :=
  pre.Records name ∨
    ∃ (before : Program R) (d : Statement R) (after : Program R),
      pre = before ++ d :: after ∧
      before.HasObserved name ∧ d.name = name ∧
      d.definition?.isSome = true ∧ d.isHamiltonian = false

theorem HasObserved.append
    {pre : Program R}
    {name : String}
    (hObserved : pre.HasObserved name)
    (d : Statement R) :
    Program.HasObserved (pre ++ [d]) name := by
  rcases hObserved with ⟨before, x, after, rfl, hRest⟩
  exact ⟨before, x, after ++ [d], by simp, hRest⟩

theorem Stale.append
    {pre : Program R}
    {name : String}
    (hStale : pre.Stale name)
    (d : Statement R) :
    Program.Stale (pre ++ [d]) name := by
  rcases hStale with hRecords | ⟨before, other, after, rfl, hRest⟩
  · exact .inl (hRecords.append d)
  · exact .inr ⟨before, other, after ++ [d], by simp, hRest⟩

/- Nothing is stale before the first statement. -/
theorem not_stale_nil (name : String) :
    ¬ Program.Stale (R := R) [] name := by
  rintro (⟨_, _, _, _, hMember, _⟩ | ⟨before, d, after, hSplit, _⟩)
  · exact List.not_mem_nil hMember
  · simp at hSplit

end Program

theorem MeasurementKind.contains_note
    (kind : MeasurementKind)
    (results : ValidationResults R)
    (name other : String) :
    (kind.note results name).hermitian.contains other =
      (decide (name = other) || results.hermitian.contains other) := by
  cases kind with
  | projective => exact results.contains_noteHermitian name other
  | povm => exact results.contains_noteHermitian name other

namespace Validator

/- The operators of a measurement are noted, and no others. -/
theorem contains_noteOperators
    (kind : MeasurementKind)
    (results : ValidationResults R)
    (name other : String)
    (count : Nat) :
    (noteOperators kind.note results name count).hermitian.contains
        other = true ↔
      (∃ k < count, other = operatorName name k) ∨
        results.hermitian.contains other = true := by
  unfold noteOperators
  induction count with
  | zero => simp
  | succ count ih =>
      rw [List.range_succ, List.foldl_append, List.foldl_cons,
        List.foldl_nil, kind.contains_note, Bool.or_eq_true, ih,
        decide_eq_true_eq]
      constructor
      · rintro (rfl | ⟨k, hk, rfl⟩ | hNoted)
        · exact .inl ⟨count, Nat.lt_succ_self _, rfl⟩
        · exact .inl ⟨k, Nat.lt_succ_of_lt hk, rfl⟩
        · exact .inr hNoted
      · rintro (⟨k, hk, rfl⟩ | hNoted)
        · rcases Nat.lt_succ_iff_lt_or_eq.1 hk with hLess | rfl
          · exact .inr (.inl ⟨k, hLess, rfl⟩)
          · exact .inl rfl
        · exact .inr (.inr hNoted)

end Validator

end QuantumLab

------------------------------------------------------------
-- Honest notes
------------------------------------------------------------

namespace QuantumLab

variable {R : Type} [Arithmetic R]

/- An operator has passed the check, or its note is stale. -/
def Program.Vouches
    (tolerance : R)
    (pre : Program R)
    (name : String)
    (a : Mat R) : Prop :=
  requireHermitian tolerance name a = .ok () ∨ pre.Stale name

namespace Validator

/-
  The notes on the operators that names stand for have been
  earned, or are stale.
-/
def Sound
    (tolerance : R)
    (pre : Program R)
    (v : Validator R) : Prop :=
  ∀ name a, v.results.hermitian.contains name = true →
    v.environment.lookup name = some (.matrix a) →
      pre.Vouches tolerance name a

/-
  A shape check and a validation have seen the same program:
  names with a value are declared, every note has a reason,
  and notes are sound.
-/
structure Honest
    (tolerance : R)
    (pre : Program R)
    (scope : Scope)
    (v : Validator R) : Prop where
  top : scope.parameters = []
  predefined : ∀ name, scope.shadowable.contains name = true →
    name ∈ Predefined.names
  environment : v.environment = pre.environment
  measurements : ∀ name,
    v.measurements.contains name = pre.measures name
  known : ∀ name value, v.environment.lookup name = some value →
    scope.shapes.contains name = true
  origin : ∀ name, v.results.hermitian.contains name = true →
    pre.Records name ∨ pre.HasObserved name ∨ scope.Settled name
  sound : v.Sound tolerance pre

/- Names that are observed are noted, and notes stay sound. -/
theorem Observes.sound
    {tolerance : R}
    {pre : Program R}
    {v next : Validator R}
    {name : String}
    (hObserves : Observes tolerance v name next)
    (hSound : v.Sound tolerance pre) :
    next.Sound tolerance pre ∧
      ∀ a, v.environment.isSymbolic name = false →
        v.environment.lookup name = some (.matrix a) →
          pre.Vouches tolerance name a := by
  cases hObserves with
  | symbolic hSymbolic =>
      refine ⟨hSound, fun a hKnown => ?_⟩
      rw [hSymbolic] at hKnown
      cases hKnown
  | noted hKnown hMatrix hNoted =>
      exact ⟨hSound, fun a _ hName => hSound name a hNoted hName⟩
  | @checked a hKnown hMatrix hHermitian =>
      constructor
      · intro other b hNoted hName
        change (v.results.noteHermitian name).hermitian.contains other =
          true at hNoted
        change v.environment.lookup other = some (.matrix b) at hName
        rw [ValidationResults.contains_noteHermitian, Bool.or_eq_true,
          decide_eq_true_eq] at hNoted
        rcases hNoted with rfl | hNoted
        · rw [hMatrix] at hName
          cases hName
          exact .inl hHermitian
        · exact hSound other b hNoted hName
      · intro b _ hName
        rw [hMatrix] at hName
        cases hName
        exact .inl hHermitian

/- Names are only noted when they are observed as operators. -/
theorem Observes.origin
    {tolerance : R}
    {v next : Validator R}
    {name other : String}
    (hObserves : Observes tolerance v name next)
    (hNoted : next.results.hermitian.contains other = true) :
    v.results.hermitian.contains other = true ∨
      (other = name ∧ v.environment.isSymbolic name = false) := by
  cases hObserves with
  | symbolic hSymbolic => exact .inl hNoted
  | noted hKnown hMatrix _ => exact .inl hNoted
  | checked hKnown hMatrix hHermitian =>
      change (v.results.noteHermitian name).hermitian.contains other =
        true at hNoted
      rw [ValidationResults.contains_noteHermitian, Bool.or_eq_true,
        decide_eq_true_eq] at hNoted
      rcases hNoted with hSame | hNoted
      · exact .inr ⟨hSame.symm, hKnown⟩
      · exact .inl hNoted

theorem ObservesAll.sound
    {tolerance : R}
    {pre : Program R}
    {v next : Validator R}
    {names : List String}
    (hObserves : ObservesAll tolerance v names next)
    (hSound : v.Sound tolerance pre) :
    next.Sound tolerance pre ∧
      ∀ name ∈ names, ∀ a, v.environment.isSymbolic name = false →
        v.environment.lookup name = some (.matrix a) →
          pre.Vouches tolerance name a := by
  induction hObserves with
  | nil =>
      refine ⟨hSound, fun name hMember => ?_⟩
      exact absurd hMember List.not_mem_nil
  | @cons v mid next name names hFirst _ ih =>
      rcases hFirst.sound hSound with ⟨hMid, hVouches⟩
      rcases ih hMid with ⟨hNext, hOthers⟩
      refine ⟨hNext, fun other hMember => ?_⟩
      rcases List.mem_cons.1 hMember with rfl | hLater
      · exact hVouches
      · rw [← hFirst.keeps.environment]
        exact hOthers other hLater

theorem ObservesAll.origin
    {tolerance : R}
    {v next : Validator R}
    {names : List String}
    {other : String}
    (hObserves : ObservesAll tolerance v names next)
    (hNoted : next.results.hermitian.contains other = true) :
    v.results.hermitian.contains other = true ∨
      (other ∈ names ∧
        v.environment.isSymbolic other = false) := by
  induction hObserves with
  | nil => exact .inl hNoted
  | @cons v mid next name names hFirst _ ih =>
      rcases ih hNoted with hMid | ⟨hMember, hKnown⟩
      · rcases hFirst.origin hMid with hBefore | ⟨rfl, hKnown⟩
        · exact .inl hBefore
        · exact .inr ⟨List.mem_cons_self, hKnown⟩
      · rw [hFirst.keeps.environment] at hKnown
        exact .inr ⟨List.mem_cons_of_mem _ hMember, hKnown⟩

/- Only the name of an initial state is noted with the state. -/
theorem origin_of_checkInitialState
    {tolerance : R}
    {v mid : Validator R}
    {x : Experiment R}
    {other : String}
    (hState : checkInitialState tolerance v x = .ok mid)
    (hNoted : mid.results.hermitian.contains other = true) :
    v.results.hermitian.contains other = true ∨
      other = initialStateName x.name := by
  rcases prepares_of_checkInitialState hState with
    ⟨state, _, hPrepares⟩
  cases hPrepares with
  | ket hKind hValue hNormalized => exact .inl hNoted
  | @rho rho trace hKind hValue hPositive hTrace =>
      change (v.results.noteHermitian
        (initialStateName x.name)).hermitian.contains other =
          true at hNoted
      rw [ValidationResults.contains_noteHermitian, Bool.or_eq_true,
        decide_eq_true_eq] at hNoted
      exact hNoted.symm.imp id Eq.symm

section Steps

variable
  {tolerance : R}
  {pre : Program R}
  {scope scope' : Scope}
  {v next : Validator R}
  {d : Statement R}

/- Names with a value are declared after a statement. -/
theorem Honest.known_after
    (hHonest : Honest tolerance pre scope v)
    (hScope : scope.Checks d scope')
    (hChecks : Checks tolerance v d next) :
    ∀ name value, next.environment.lookup name = some value →
      scope'.shapes.contains name = true := by
  intro name value hName
  rw [hChecks.environment] at hName
  rcases Environment.lookup_after hName with
    ⟨rfl, e, hDefinition, _⟩ | ⟨hBefore, _⟩
  · rcases hScope.declares hDefinition with ⟨shape, _, hDeclares⟩
    exact hDeclares.settles.declared
  · exact hScope.declared (hHonest.known name value hBefore)

/- Every note has a reason after a statement. -/
theorem Honest.origin_after
    (hHonest : Honest tolerance pre scope v)
    (hScope : scope.Checks d scope')
    (hChecks : Checks tolerance v d next) :
    ∀ name, next.results.hermitian.contains name = true →
      Program.Records (pre ++ [d]) name ∨
        Program.HasObserved (pre ++ [d]) name ∨
          scope'.Settled name := by
  intro name hNoted
  have hEarlier : v.results.hermitian.contains name = true →
      Program.Records (pre ++ [d]) name ∨
        Program.HasObserved (pre ++ [d]) name ∨
          scope'.Settled name := by
    intro hBefore
    rcases hHonest.origin name hBefore with
      hRecords | hObserved | hSettled
    · exact .inl (hRecords.append d)
    · exact .inr (.inl (hObserved.append d))
    · exact .inr (.inr (hScope.settled hSettled))
  cases hChecks with
  | symbol hSymbol => exact hEarlier hNoted
  | undefined hDefinition hNone => exact hEarlier hNoted
  | quantity hDefinition hOther hValue => exact hEarlier hNoted
  | hamiltonian hDefinition hHamiltonian hValue hHermitian =>
      change (v.results.noteHermitian d.name).hermitian.contains name =
        true at hNoted
      rw [ValidationResults.contains_noteHermitian, Bool.or_eq_true,
        decide_eq_true_eq] at hNoted
      rcases hNoted with rfl | hBefore
      · rcases hScope.declares hDefinition with ⟨shape, _, hDeclares⟩
        exact .inr (.inr hDeclares.settles)
      · exact hEarlier hBefore
  | @measurement other kind operators matrices hMatrices hRequired =>
      rcases (contains_noteOperators kind v.results other name
          matrices.length).1 hNoted with ⟨k, hk, hName⟩ | hBefore
      · rw [← (evaluates_of_operatorMatrices hMatrices).length_eq] at hk
        exact .inl ⟨other, kind, operators, k, by simp, hk, hName⟩
      · exact hEarlier hBefore
  | @experiment x _ hCheck =>
      rcases admits_of_checkExperiment hCheck with ⟨mid, hAdmits⟩
      have hKeeps := keeps_checkInitialState hAdmits.state
      rcases hAdmits.observes.origin hNoted with
        hMid | ⟨hMember, hKnown⟩
      · rcases origin_of_checkInitialState hAdmits.state hMid with
          hBefore | rfl
        · exact hEarlier hBefore
        · rcases prepares_of_checkInitialState hAdmits.state with
            ⟨state, hSome, _⟩
          cases hScope with
          | quantity hDefinition hShape hDeclares => cases hDefinition
          | symbol hSymbol hDeclares => cases hSymbol
          | experiment hScope =>
              rcases Scope.declares_of_checkExperiment hScope hSome with
                ⟨shape, hDeclares⟩
              exact .inr (.inr hDeclares.settles)
      · refine .inr (.inl ⟨pre, x, [], rfl, ?_, ?_⟩)
        · have hMeasured : v.measurements.contains = pre.measures :=
            funext hHonest.measurements
          rw [← hMeasured]
          exact hMember
        · rw [← hHonest.environment, ← hKeeps.environment]
          exact hKnown

/- The state of an experiment does not spoil the notes. -/
theorem Honest.sound_state
    {x : Experiment R}
    (hHonest : Honest tolerance pre scope v)
    (hScope : scope.checkExperiment x = .ok scope')
    (hState : checkInitialState tolerance v x = .ok next) :
    next.Sound tolerance pre := by
  intro name a hNoted hName
  rw [(keeps_checkInitialState hState).environment] at hName
  rcases origin_of_checkInitialState hState hNoted with hBefore | rfl
  · exact hHonest.sound name a hBefore hName
  · -- The name of the state has no value, as it is not declared yet.
    rcases prepares_of_checkInitialState hState with
      ⟨state, hSome, _⟩
    rcases Scope.declares_of_checkExperiment hScope hSome with
      ⟨shape, hDeclares⟩
    rcases hDeclares.fresh with hShadowable | hFresh
    · exact absurd (hHonest.predefined _ hShadowable)
        (initialStateName_not_predefined x.name)
    · rw [hHonest.known _ _ hName] at hFresh
      cases hFresh

/- The notes are sound after a statement. -/
theorem Honest.sound_after
    (hHonest : Honest tolerance pre scope v)
    (hScope : scope.Checks d scope')
    (hChecks : Checks tolerance v d next) :
    next.Sound tolerance (pre ++ [d]) := by
  intro name a hNoted hName
  have hEarlier : v.results.hermitian.contains name = true →
      v.environment.lookup name = some (.matrix a) →
        Program.Vouches tolerance (pre ++ [d]) name a :=
    fun hBefore hOld =>
      (hHonest.sound name a hBefore hOld).imp id (Program.Stale.append · d)
  have hValues := hName
  rw [hChecks.environment] at hValues
  cases hChecks with
  | symbol hSymbol =>
      rcases Environment.lookup_after hValues with
        ⟨_, e, hDefinition, _⟩ | ⟨hOld, _⟩
      · rw [Statement.definition?_of_declaresSymbol hSymbol]
          at hDefinition
        cases hDefinition
      · exact hEarlier hNoted hOld
  | undefined hDefinition hNone =>
      rcases Environment.lookup_after hValues with
        ⟨_, e, hDefinition', hValue⟩ | ⟨hOld, _⟩
      · rw [hDefinition] at hDefinition'
        cases hDefinition'
        rw [Environment.evaluate?_eq_some_iff.2 hValue] at hNone
        cases hNone
      · exact hEarlier hNoted hOld
  | quantity hDefinition hOther hValue =>
      rcases Environment.lookup_after hValues with
        ⟨rfl, _⟩ | ⟨hOld, _⟩
      · -- The name has a new value, and keeps its note.
        rcases hHonest.origin _ hNoted with
          hRecords | hObserved | hSettled
        · exact .inr (.inl (hRecords.append d))
        · refine .inr (.inr ⟨pre, d, [], rfl, hObserved, rfl, ?_, hOther⟩)
          rw [hDefinition]
          rfl
        · rcases hScope.declares hDefinition with ⟨shape, _, hDeclares⟩
          exact absurd hSettled hDeclares.not_settled
      · exact hEarlier hNoted hOld
  | @hamiltonian _ e h hDefinition hHamiltonian hValue hHermitian =>
      rcases Environment.lookup_after hValues with
        ⟨rfl, e', hDefinition', hValue'⟩ | ⟨hOld, hOther⟩
      · rw [hDefinition] at hDefinition'
        cases hDefinition'
        rw [hValue] at hValue'
        cases hValue'
        exact .inl hHermitian
      · change (v.results.noteHermitian d.name).hermitian.contains name =
          true at hNoted
        rw [ValidationResults.contains_noteHermitian, Bool.or_eq_true,
          decide_eq_true_eq] at hNoted
        rcases hNoted with hSame | hBefore
        · rw [(hOther hSame).1] at hDefinition
          cases hDefinition
        · exact hEarlier hBefore hOld
  | @measurement other kind operators matrices hMatrices hRequired =>
      rcases (contains_noteOperators kind v.results other name
          matrices.length).1 hNoted with ⟨k, hk, hRecord⟩ | hBefore
      · rw [← (evaluates_of_operatorMatrices hMatrices).length_eq] at hk
        exact .inr (.inl
          ⟨other, kind, operators, k, by simp, hk, hRecord⟩)
      · exact hEarlier hBefore hName
  | @experiment x _ hCheck =>
      rcases admits_of_checkExperiment hCheck with ⟨mid, hAdmits⟩
      cases hScope with
      | quantity hDefinition hShape hDeclares => cases hDefinition
      | symbol hSymbol hDeclares => cases hSymbol
      | experiment hScope =>
          have hMid := hHonest.sound_state hScope hAdmits.state
          have hNext := (hAdmits.observes.sound hMid).1
          exact (hNext name a hNoted hName).imp id
            (Program.Stale.append · _)

/- The check of a statement keeps the notes honest. -/
theorem Honest.check
    (hHonest : Honest tolerance pre scope v)
    (hScope : scope.check d = .ok scope')
    (hCheck : v.check tolerance d = .ok next) :
    Honest tolerance (pre ++ [d]) scope' next := by
  have hScope := Scope.checks_of_check hHonest.top hScope
  have hChecks := checks_of_check hCheck
  constructor
  · rw [hScope.parameters, hHonest.top]
  · intro name hShadowable
    exact hHonest.predefined name (hScope.shadowable hShadowable)
  · rw [hChecks.environment, hHonest.environment,
      Program.environment_append]
  · intro name
    rw [hChecks.measurements, hHonest.measurements,
      Program.measures_append]
  · exact hHonest.known_after hScope hChecks
  · exact hHonest.origin_after hScope hChecks
  · exact hHonest.sound_after hScope hChecks

end Steps

end Validator

end QuantumLab

------------------------------------------------------------
-- Operators of experiments
------------------------------------------------------------

namespace QuantumLab

variable {R : Type} [Arithmetic R]

/- What is accepted is decided by its deviation alone. -/
theorem requireWithin_eq_ok_iff
    {tolerance deviation : R}
    {invariant : Invariant}
    {name detail : String} :
    requireWithin tolerance deviation invariant name detail = .ok () ↔
      Arithmetic.less tolerance deviation = false := by
  rw [requireWithin]
  cases Arithmetic.less tolerance deviation with
  | true => simp
  | false => simp

/- A matrix passes the check if it is square and close to Hermitian. -/
theorem requireHermitian_eq_ok_iff
    {tolerance : R}
    {name : String}
    {a : Mat R} :
    requireHermitian tolerance name a = .ok () ↔
      a.rows = a.cols ∧
        Arithmetic.less tolerance a.hermiticityGap = false := by
  constructor
  · intro hCheck
    rcases bind_eq_ok_iff.1 hCheck with ⟨gap, hGap, hWithin⟩
    rcases unit_bind_eq_ok_iff.1 hGap with ⟨hSquare, hDone⟩
    rw [← pure_eq_ok_iff.1 hDone, requireWithin] at hWithin
    rw [Guarded.requireSquare_eq_ok_iff] at hSquare
    refine ⟨hSquare, ?_⟩
    rw [← Bool.not_eq_true]
    intro hLess
    rw [if_pos hLess] at hWithin
    exact absurd hWithin refuse_ne_ok
  · rintro ⟨hSquare, hLess⟩
    have hPasses :
        Guarded.requireSquare a "hermiticity check" = .ok () :=
      Guarded.requireSquare_eq_ok_iff.2 hSquare
    simp [requireHermitian, Guarded.hermiticityGap, hPasses,
      requireWithin, hLess]

namespace Validator

/- At first nothing is noted. -/
theorem honest_initial
    {tolerance : R} :
    Honest tolerance [] Scope.initial initial where
  top := rfl
  predefined _ hShadowable := Scope.predefined_of_shadowable hShadowable
  environment := rfl
  measurements _ := rfl
  known name value hName := by
    rw [Table.contains, Scope.shape_initial hName]
    rfl
  origin _ hNoted := nomatch hNoted
  sound _ _ hNoted := nomatch hNoted

/- A validation of a program that has shapes is honest. -/
theorem honest_of_walk
    {tolerance : R}
    {pre : Program R}
    {scope : Scope}
    {v : Validator R}
    (hChecked : pre.walk Scope.check .initial = .ok scope)
    (hValidated : pre.walk (check tolerance) .initial = .ok v) :
    Honest tolerance pre scope v :=
  Program.walk_induction₂ honest_initial
    (fun _ _ _ _ _ _ hHonest hScope hCheck =>
      hHonest.check hScope hCheck)
    hChecked hValidated

end Validator

namespace Program

omit [Arithmetic R] in
theorem Records.cases_append
    {pre : Program R}
    {d : Statement R}
    {name : String}
    (hRecords : Program.Records (pre ++ [d]) name) :
    pre.Records name ∨ Program.Records [d] name := by
  rcases hRecords with ⟨other, kind, operators, k, hMember, hRest⟩
  rcases List.mem_append.1 hMember with hBefore | hLast
  · exact .inl ⟨other, kind, operators, k, hBefore, hRest⟩
  · exact .inr ⟨other, kind, operators, k, hLast, hRest⟩

theorem HasObserved.cases_append
    {pre : Program R}
    {d : Statement R}
    {name : String}
    (hObserved : Program.HasObserved (pre ++ [d]) name) :
    pre.HasObserved name ∨
      ∃ x, d = .experiment x ∧ name ∈ x.observed pre.measures ∧
        pre.environment.isSymbolic name = false := by
  rcases hObserved with ⟨before, x, after, hSplit, hMember, hKnown⟩
  rcases List.eq_nil_or_concat after with rfl | ⟨init, last, rfl⟩
  · rcases List.append_inj' hSplit rfl with ⟨rfl, hLast⟩
    cases hLast
    exact .inr ⟨x, rfl, hMember, hKnown⟩
  · rw [List.concat_eq_append, ← List.cons_append,
      ← List.append_assoc] at hSplit
    rcases List.append_inj' hSplit rfl with ⟨rfl, _⟩
    exact .inl ⟨before, x, init, rfl, hMember, hKnown⟩

end Program

namespace Validator

variable
  {tolerance : R}
  {v next : Validator R}
  {name : String}

theorem Observes.keepsNote
    {other : String}
    (hObserves : Observes tolerance v other next)
    (hNoted : v.results.hermitian.contains name = true) :
    next.results.hermitian.contains name = true := by
  cases hObserves with
  | symbolic hSymbolic => exact hNoted
  | noted hKnown hMatrix _ => exact hNoted
  | checked hKnown hMatrix hHermitian =>
      change (v.results.noteHermitian other).hermitian.contains name =
        true
      rw [ValidationResults.contains_noteHermitian, hNoted,
        Bool.or_true]

theorem Observes.notes
    (hObserves : Observes tolerance v name next)
    (hKnown : v.environment.isSymbolic name = false) :
    next.results.hermitian.contains name = true := by
  cases hObserves with
  | symbolic hSymbolic =>
      rw [hSymbolic] at hKnown
      cases hKnown
  | noted _ hMatrix hNoted => exact hNoted
  | checked _ hMatrix hHermitian =>
      change (v.results.noteHermitian name).hermitian.contains name =
        true
      rw [ValidationResults.contains_noteHermitian]
      simp

theorem ObservesAll.keepsNote
    {names : List String}
    (hObserves : ObservesAll tolerance v names next)
    (hNoted : v.results.hermitian.contains name = true) :
    next.results.hermitian.contains name = true := by
  induction hObserves with
  | nil => exact hNoted
  | cons hFirst _ ih => exact ih (hFirst.keepsNote hNoted)

/- Observed names are noted, except for symbols. -/
theorem ObservesAll.notes
    {names : List String}
    (hObserves : ObservesAll tolerance v names next)
    (hMember : name ∈ names)
    (hKnown : v.environment.isSymbolic name = false) :
    next.results.hermitian.contains name = true := by
  induction hObserves with
  | nil => exact absurd hMember List.not_mem_nil
  | cons hFirst hRest ih =>
      rcases List.mem_cons.1 hMember with rfl | hLater
      · exact hRest.keepsNote (hFirst.notes hKnown)
      · apply ih hLater
        rw [hFirst.keeps.environment]
        exact hKnown

theorem keepsNote_checkInitialState
    {x : Experiment R}
    (hState : checkInitialState tolerance v x = .ok next)
    (hNoted : v.results.hermitian.contains name = true) :
    next.results.hermitian.contains name = true := by
  rcases prepares_of_checkInitialState hState with
    ⟨state, _, hPrepares⟩
  cases hPrepares with
  | ket hKind hValue hNormalized => exact hNoted
  | @rho rho trace hKind hValue hPositive hTrace =>
      change (v.results.noteHermitian
        (initialStateName x.name)).hermitian.contains name = true
      rw [ValidationResults.contains_noteHermitian, hNoted,
        Bool.or_true]

/- Notes are never taken back. -/
theorem Checks.keepsNote
    {d : Statement R}
    (hChecks : Checks tolerance v d next)
    (hNoted : v.results.hermitian.contains name = true) :
    next.results.hermitian.contains name = true := by
  cases hChecks with
  | symbol hSymbol => exact hNoted
  | undefined hDefinition hNone => exact hNoted
  | quantity hDefinition hOther hValue => exact hNoted
  | hamiltonian hDefinition hHamiltonian hValue hHermitian =>
      change (v.results.noteHermitian d.name).hermitian.contains name =
        true
      rw [ValidationResults.contains_noteHermitian, hNoted,
        Bool.or_true]
  | @measurement other kind operators matrices hMatrices hRequired =>
      exact (contains_noteOperators kind v.results other name
        matrices.length).2 (.inr hNoted)
  | experiment hCheck =>
      rcases admits_of_checkExperiment hCheck with ⟨mid, hAdmits⟩
      exact hAdmits.observes.keepsNote
        (keepsNote_checkInitialState hAdmits.state hNoted)

/- The operators of measurements are noted. -/
theorem Checks.notes_record
    {d : Statement R}
    (hChecks : Checks tolerance v d next)
    (hRecords : Program.Records [d] name) :
    next.results.hermitian.contains name = true := by
  rcases hRecords with ⟨other, kind, operators, k, hMember, hk, hName⟩
  cases List.mem_singleton.1 hMember
  rcases hChecks.operators with ⟨_, _, _, hResults⟩
  rw [hResults]
  exact (contains_noteOperators kind v.results other name
    operators.length).2 (.inl ⟨k, hk, hName⟩)

end Validator

namespace Program

/- A validation has noted what measurements and experiments refer to. -/
theorem noted_of_walk
    {tolerance : R}
    {pre : Program R}
    {v : Validator R}
    {name : String}
    (hValidated : pre.walk (Validator.check tolerance) .initial =
      .ok v)
    (hReferred : pre.Records name ∨ pre.HasObserved name) :
    v.results.hermitian.contains name = true := by
  induction pre using List.reverseRecOn generalizing v with
  | nil =>
      rcases hReferred with ⟨_, _, _, _, hMember, _⟩ |
        ⟨before, x, after, hSplit, _⟩
      · exact absurd hMember List.not_mem_nil
      · simp at hSplit
  | append_singleton pre d ih =>
      rcases walk_append.1 hValidated with ⟨mid, hPre, hLast⟩
      have hChecks := Validator.checks_of_check (walk_single.1 hLast)
      rcases hReferred with hRecords | hObserved
      · rcases hRecords.cases_append with hBefore | hLast
        · exact hChecks.keepsNote (ih hPre (.inl hBefore))
        · exact hChecks.notes_record hLast
      · rcases hObserved.cases_append with
          hBefore | ⟨x, rfl, hMember, hKnown⟩
        · exact hChecks.keepsNote (ih hPre (.inr hBefore))
        · rcases Validator.admits_of_checkExperiment
              (walk_single.1 hLast) with ⟨seen, hAdmits⟩
          have hMeasured :
              mid.measurements.contains = Program.measures pre :=
            funext (measures_of_validation hPre)
          rw [← hMeasured] at hMember
          apply hAdmits.observes.notes hMember
          rw [(Validator.keeps_checkInitialState
            hAdmits.state).environment, environment_of_validation hPre]
          exact hKnown

/- Stale names are noted. -/
theorem Stale.noted
    {tolerance : R}
    {pre : Program R}
    {v : Validator R}
    {name : String}
    (hStale : pre.Stale name)
    (hValidated : pre.walk (Validator.check tolerance) .initial =
      .ok v) :
    v.results.hermitian.contains name = true := by
  rcases hStale with
    hRecords | ⟨before, d, after, rfl, hObserved, _⟩
  · exact noted_of_walk hValidated (.inl hRecords)
  · rcases hObserved with ⟨first, x, rest, rfl, hObserved⟩
    refine noted_of_walk hValidated (.inr ?_)
    exact ⟨first, x, rest ++ d :: after, by simp, hObserved⟩

/- A stale name is accepted whatever it stands for. -/
theorem Stale.checkObservable
    {tolerance : R}
    {pre : Program R}
    {v : Validator R}
    {name : String}
    {a : Mat R}
    (hStale : pre.Stale name)
    (hValidated : pre.walk (Validator.check tolerance) .initial =
      .ok v)
    (hMatrix : v.environment.lookup name = some (.matrix a))
    (usage : String) :
    Validator.checkObservable tolerance v usage name = .ok v := by
  have hNoted := hStale.noted hValidated
  unfold Validator.checkObservable Validator.referencedMatrix
  by_cases hSymbolic : v.environment.isSymbolic name = true
  · simp [hSymbolic, pure, Except.pure]
  · simp [hSymbolic, hMatrix, hNoted, pure, Except.pure]

/-
  The operators of an experiment that have to be Hermitian
  have no value, or are square and close to Hermitian, or
  their notes are stale: the names were noted before and now
  stand for operators that have not been checked.  Stale
  names are accepted whatever they stand for.
-/
theorem observed_hermitian
    {tolerance : R}
    {pre post : Program R}
    {x : Experiment R}
    {typed : TypedProgram R}
    {validated : ValidatedProgram R}
    (hTyped : Program.typed (pre ++ .experiment x :: post) = .ok typed)
    (hValidated : typed.validated tolerance = .ok validated) :
    ∃ v, pre.walk (Validator.check tolerance) .initial = .ok v ∧
      ∀ name ∈ x.observed pre.measures,
        v.environment.isSymbolic name = true ∨
          ∃ a, v.environment.lookup name = some (.matrix a) ∧
            (pre.Stale name ∨
              a.rows = a.cols ∧
                Arithmetic.less tolerance a.hermiticityGap = false) ∧
            (pre.Stale name → ∀ usage,
              Validator.checkObservable tolerance v usage name =
                .ok v) := by
  rcases bind_eq_ok_iff.1 hTyped with ⟨scope, hChecked, hScope⟩
  cases pure_eq_ok_iff.1 hScope
  rcases bind_eq_ok_iff.1 hValidated with ⟨last, hWalked, _⟩
  rcases walk_append.1 hChecked with ⟨before, hBefore, hLater⟩
  rcases walk_cons.1 hLater with ⟨after, hScope, _⟩
  rcases walk_append.1 hWalked with ⟨v, hPre, hRest⟩
  rcases walk_cons.1 hRest with ⟨next, hCheck, _⟩
  rcases Validator.admits_of_checkExperiment hCheck with ⟨mid, hAdmits⟩
  have hHonest := Validator.honest_of_walk hBefore hPre
  have hMid := hHonest.sound_state hScope hAdmits.state
  have hVouches := (hAdmits.observes.sound hMid).2
  have hKeeps := Validator.keeps_checkInitialState hAdmits.state
  rw [hKeeps.environment] at hVouches
  have hMeasured : v.measurements.contains = pre.measures :=
    funext hHonest.measurements
  rw [← hMeasured]
  refine ⟨v, hPre, fun name hName => ?_⟩
  by_cases hSymbolic : v.environment.isSymbolic name = true
  · exact .inl hSymbolic
  · rw [Bool.not_eq_true] at hSymbolic
    rcases hAdmits.knowsOperators name hName with
      hOnly | ⟨a, hMatrix⟩
    · rw [hSymbolic] at hOnly
      cases hOnly
    · refine .inr ⟨a, hMatrix, ?_,
        fun hStale => hStale.checkObservable hPre hMatrix⟩
      rcases hVouches name hName a hSymbolic hMatrix with
        hHermitian | hStale
      · exact .inr (requireHermitian_eq_ok_iff.1 hHermitian)
      · exact .inl hStale

/- An experiment that measures an operator in the first basis state. -/
def measuring (name operator : String) : Statement Float :=
  .experiment
    ⟨name,
      some ⟨.ket, .vector [.number ⟨1, 0⟩, .number ⟨0, 0⟩]⟩,
      none, [⟨0, operator⟩]⟩

/- A predefined operator is measured. -/
theorem observed_hermitian_pauliX :
    ∃ typed validated a,
      Program.typed [measuring "flip" "sigma_x"] = .ok typed ∧
      typed.validated defaultValidationTolerance = .ok validated ∧
      (Environment.initial : Environment Float).lookup "sigma_x" =
        some (.matrix a) ∧
      a.rows = a.cols ∧
      Arithmetic.less defaultValidationTolerance a.hermiticityGap =
        false := by
  have hAccepted : (do
      let typed ← (Program.typed [measuring "flip" "sigma_x"]).toOption
      let _ ← (typed.validated defaultValidationTolerance).toOption
      return ()) = some () := by
    decide +kernel
  simp only [Option.bind_eq_bind, Option.bind_eq_some_iff,
    toOption_eq_some_iff] at hAccepted
  rcases hAccepted with ⟨typed, hTyped, validated, hValidated, _⟩
  have hSplit :
      Program.typed ([] ++ measuring "flip" "sigma_x" :: []) =
        .ok typed := hTyped
  rcases observed_hermitian hSplit hValidated with ⟨v, hWalk, hOperators⟩
  cases hWalk
  rcases hOperators "sigma_x" (by decide) with
    hSymbolic | ⟨a, hMatrix, hStale | ⟨hSquare, hClose⟩, _⟩
  · have hKnown := Environment.isSymbolic_initial (R := Float) "sigma_x"
    exact absurd hSymbolic (by simp [Validator.initial, hKnown])
  · exact absurd hStale (not_stale_nil "sigma_x")
  · exact ⟨typed, validated, a, hTyped, hValidated, hMatrix, hSquare,
      hClose⟩

/-
  A predefined operator is measured, and then its name is
  given to an operator that is not Hermitian.
-/
def raised : Program Float :=
  [measuring "flip" "sigma_x",
    .matrix "sigma_x" (.matrix
      [[.number ⟨0, 0⟩, .number ⟨1, 0⟩],
        [.number ⟨0, 0⟩, .number ⟨0, 0⟩]])]

/-
  An operator that is not Hermitian takes the name of a
  predefined operator that an experiment has measured, and is
  measured by the next experiment.
-/
theorem shadowing_operator_unchecked :
    ∃ typed validated v a,
      Program.typed (raised ++ [measuring "raise" "sigma_x"]) = .ok typed ∧
      typed.validated defaultValidationTolerance = .ok validated ∧
      raised.walk (Validator.check defaultValidationTolerance) .initial =
        .ok v ∧
      v.environment.lookup "sigma_x" = some (.matrix a) ∧
      v.environment.isSymbolic "sigma_x" = false ∧
      Arithmetic.less defaultValidationTolerance a.hermiticityGap =
        true := by
  have hAccepted : (do
      let typed ← (Program.typed
        (raised ++ [measuring "raise" "sigma_x"])).toOption
      let _ ← (typed.validated defaultValidationTolerance).toOption
      let v ← (raised.walk
        (Validator.check defaultValidationTolerance) .initial).toOption
      let a ← (v.environment.lookup "sigma_x").bind Value.matrix?
      guard (v.environment.isSymbolic "sigma_x" = false ∧
        Arithmetic.less defaultValidationTolerance a.hermiticityGap =
          true)) = some () := by
    decide +kernel
  simp only [Option.bind_eq_bind, Option.bind_eq_some_iff,
    toOption_eq_some_iff, Value.matrix?_eq_some_iff,
    Option.guard_eq_some'] at hAccepted
  rcases hAccepted with
    ⟨typed, hTyped, validated, hValidated, v, hWalk, a,
      ⟨_, hMatrix, rfl⟩, hKnown, hFar⟩
  exact ⟨typed, validated, v, a, hTyped, hValidated, hWalk, hMatrix,
    hKnown, hFar⟩

end Program

end QuantumLab
