import QuantumLab.Proofs.Irrelevance.Validation
import QuantumLab.Proofs.Validation.Hermiticity

/-
  This file says that two adjacent experiments are validated
  in either order.  The first may note operators that the
  second then need not check; in the other order the second
  checks them itself, with the same outcome.

  Key definitions include:
    * `Validator.Trusts`
    * `Validator.Trails`
    * `Experiment.Notes`

  Main statements:
    * `Validator.tracks_checkExperiment_of_trails` says that
      an experiment passes if what was noted would be found.
    * `Validator.contains_checkExperiment_iff` says what an
      experiment notes.
    * `Validator.exchange_checkExperiment` compares both
      orders.
-/

------------------------------------------------------------
-- Operators that are trusted
------------------------------------------------------------

namespace QuantumLab

variable {R : Type} [Arithmetic R]

namespace Validator

/- An operator is noted as Hermitian, or its check would pass. -/
def Trusts (tolerance : R) (v : Validator R) (name : String) : Prop :=
  v.results.hermitian.contains name = true ∨
    ∀ a, v.environment.lookup name = some (.matrix a) →
      requireHermitian tolerance name a = .ok ()

/-
  Two validations are the same, but the second may not have
  noted operators that it would accept.
-/
structure Trails
    (tolerance : R)
    (v v' : Validator R) : Prop where
  environment : v'.environment = v.environment
  measurements : v'.measurements = v.measurements
  trusted : ∀ name, v.results.hermitian.contains name = true →
    Trusts tolerance v' name

variable
  {tolerance : R}
  {v v' next : Validator R}
  {name other : String}

theorem Trusts.noteHermitian
    (hTrusts : Trusts tolerance v name)
    (other : String) :
    Trusts tolerance
      { v with results := v.results.noteHermitian other } name := by
  rcases hTrusts with hNoted | hPasses
  · left
    rw [ValidationResults.contains_noteHermitian, hNoted, Bool.or_true]
  · exact .inr hPasses

theorem trusts_noteHermitian
    (v : Validator R)
    (name : String) :
    Trusts tolerance
      { v with results := v.results.noteHermitian name } name := by
  left
  rw [ValidationResults.contains_noteHermitian]
  simp

/- The same operator is noted by both. -/
theorem Trails.noteHermitian
    (hTrails : Trails tolerance v v')
    (name : String) :
    Trails tolerance { v with results := v.results.noteHermitian name }
      { v' with results := v'.results.noteHermitian name } where
  environment := hTrails.environment
  measurements := hTrails.measurements
  trusted other hNoted := by
    rw [ValidationResults.contains_noteHermitian, Bool.or_eq_true,
      decide_eq_true_eq] at hNoted
    rcases hNoted with rfl | hNoted
    · exact trusts_noteHermitian v' name
    · exact (hTrails.trusted other hNoted).noteHermitian name

theorem Trails.noteHermitian_left
    (hTrails : Trails tolerance v v')
    (hTrusts : Trusts tolerance v' name) :
    Trails tolerance { v with results := v.results.noteHermitian name }
      v' where
  environment := hTrails.environment
  measurements := hTrails.measurements
  trusted other hNoted := by
    rw [ValidationResults.contains_noteHermitian, Bool.or_eq_true,
      decide_eq_true_eq] at hNoted
    rcases hNoted with rfl | hNoted
    · exact hTrusts
    · exact hTrails.trusted other hNoted

theorem Trails.noteHermitian_right
    (hTrails : Trails tolerance v v')
    (name : String) :
    Trails tolerance v
      { v' with results := v'.results.noteHermitian name } where
  environment := hTrails.environment
  measurements := hTrails.measurements
  trusted other hNoted :=
    (hTrails.trusted other hNoted).noteHermitian name

omit [Arithmetic R] in
theorem lookup_of_referencedMatrix
    {usage : String}
    {a : Mat R}
    (hReferenced : v.referencedMatrix usage name = .ok (some a)) :
    v.environment.lookup name = some (.matrix a) := by
  unfold referencedMatrix at hReferenced
  split at hReferenced
  · cases hReferenced
  · split at hReferenced
    · exact absurd hReferenced refuse_ne_ok
    · next hMatrix =>
      cases hReferenced
      exact hMatrix
    · exact absurd hReferenced refuse_ne_ok

omit [Arithmetic R] in
theorem referencedMatrix_congr
    (hEnvironment : v'.environment = v.environment)
    (usage name : String) :
    v'.referencedMatrix usage name = v.referencedMatrix usage name := by
  rw [referencedMatrix, hEnvironment, referencedMatrix]

/-
  An operator that is noted by one validation alone is
  checked by the other, and passes.
-/
theorem tracks_checkObservable_of_trails
    (hTrails : Trails tolerance v v')
    (usage name : String) :
    Tracks (Trails tolerance) (checkObservable tolerance v usage name)
      (checkObservable tolerance v' usage name) := by
  refine Tracks.bind_same
    (referencedMatrix_congr hTrails.environment usage name)
    fun a? hReferenced => ?_
  cases a? with
  | none => exact .of_ok hTrails
  | some a =>
      have hMatrix : v'.environment.lookup name = some (.matrix a) := by
        rw [hTrails.environment]
        exact lookup_of_referencedMatrix hReferenced
      simp only
      by_cases hNoted : v.results.hermitian.contains name = true
      · rw [if_pos hNoted]
        by_cases hNoted' : v'.results.hermitian.contains name = true
        · rw [if_pos hNoted']
          exact .of_ok hTrails
        · rw [if_neg hNoted']
          have hPasses := (hTrails.trusted name hNoted).resolve_left
            hNoted' a hMatrix
          rw [hPasses]
          exact .of_ok (hTrails.noteHermitian_right name)
      · rw [if_neg hNoted]
        by_cases hNoted' : v'.results.hermitian.contains name = true
        · rw [if_pos hNoted']
          intro last hChecked
          rcases unit_bind_eq_ok_iff.1 hChecked with ⟨_, hDone⟩
          rw [← pure_eq_ok_iff.1 hDone]
          exact ⟨v', rfl, hTrails.noteHermitian_left (.inl hNoted')⟩
        · rw [if_neg hNoted']
          exact Tracks.bind_same rfl fun _ _ =>
            .of_ok (hTrails.noteHermitian name)

theorem tracks_checkInitialState_of_trails
    (hTrails : Trails tolerance v v')
    (x : Experiment R) :
    Tracks (Trails tolerance) (checkInitialState tolerance v x)
      (checkInitialState tolerance v' x) := by
  unfold checkInitialState
  cases hState : x.initialState with
  | none => exact .of_error
  | some state =>
      refine Tracks.bind_same (by rw [hTrails.environment])
        fun value _ => ?_
      cases state.kind with
      | ket =>
          cases value with
          | vector ket =>
              exact Tracks.bind_same rfl fun _ _ => .of_ok hTrails
          | scalar z => exact .of_error
          | matrix a => exact .of_error
      | rho =>
          cases value with
          | matrix rho =>
              refine Tracks.bind_same rfl fun _ _ => ?_
              refine Tracks.bind_same rfl fun trace _ => .of_ok ?_
              have hNoted := hTrails.noteHermitian (initialStateName x.name)
              exact ⟨hNoted.environment, hNoted.measurements,
                hNoted.trusted⟩
          | scalar z => exact .of_error
          | vector w => exact .of_error

theorem tracks_checkEvolution_of_trails
    (hTrails : Trails tolerance v v')
    (experiment : String)
    (evolution : Option (Evolution R)) :
    Tracks (Trails tolerance)
      (checkEvolution tolerance v experiment evolution)
      (checkEvolution tolerance v' experiment evolution) := by
  cases evolution with
  | none => exact .of_ok hTrails
  | some evolution =>
      refine Tracks.bind_same rfl fun _ _ => ?_
      refine (tracks_checkObservable_of_trails hTrails _ _).bind
        fun next next' hNext => ?_
      have hTerms : next'.requireTerm experiment =
          next.requireTerm experiment := by
        funext term
        rw [requireTerm, referencedMatrix_congr hNext.environment,
          hNext.environment, requireTerm]
      exact Tracks.bind_same (by rw [hTerms]) fun _ _ => .of_ok hNext

theorem tracks_checkEvent_of_trails
    (hTrails : Trails tolerance v v')
    (event : Event R) :
    Tracks (Trails tolerance) (checkEvent tolerance v event)
      (checkEvent tolerance v' event) := by
  unfold checkEvent
  rw [hTrails.measurements]
  split
  · exact .of_ok hTrails
  · exact tracks_checkObservable_of_trails hTrails _ _

theorem tracks_checkSchedule_of_trails
    (hTrails : Trails tolerance v v')
    (schedule : List (Event R)) :
    Tracks (Trails tolerance) (schedule.foldlM (checkEvent tolerance) v)
      (schedule.foldlM (checkEvent tolerance) v') :=
  .foldlM hTrails fun event _ _ _ hNext =>
    tracks_checkEvent_of_trails hNext event

/- What passes still passes if what was noted would be found. -/
theorem tracks_checkExperiment_of_trails
    (hTrails : Trails tolerance v v')
    (x : Experiment R) :
    Tracks (Trails tolerance) (checkExperiment tolerance v x)
      (checkExperiment tolerance v' x) := by
  refine (tracks_checkInitialState_of_trails hTrails x).bind
    fun _ _ hFirst => ?_
  refine (tracks_checkEvolution_of_trails hFirst x.name _).bind
    fun _ _ hSecond => ?_
  exact tracks_checkSchedule_of_trails hSecond x.schedule

end Validator

end QuantumLab

------------------------------------------------------------
-- Operators that are noted
------------------------------------------------------------

namespace QuantumLab

variable {R : Type}

/-
  The names that an experiment notes: those of the operators
  that it observes, and that of its density matrix.
-/
inductive Experiment.Notes
    (x : Experiment R)
    (names : Environment R)
    (measured : String → Bool) : String → Prop where
  | observed
      {name : String}
      (hObserved : name ∈ x.observed measured)
      (hKnown : names.isSymbolic name = false) :
      Notes x names measured name
  | state
      {state : InitialState R}
      (hState : x.initialState = some state)
      (hKind : state.kind = .rho) :
      Notes x names measured (initialStateName x.name)

variable [Arithmetic R]

namespace Validator

variable
  {tolerance : R}
  {v next : Validator R}
  {name other : String}
  {x y : Experiment R}

/- An experiment notes its operators and its density matrix. -/
theorem contains_checkExperiment_iff
    (hCheck : checkExperiment tolerance v x = .ok next) :
    next.results.hermitian.contains name = true ↔
      v.results.hermitian.contains name = true ∨
        x.Notes v.environment v.measurements.contains name := by
  rcases admits_of_checkExperiment hCheck with ⟨mid, hAdmits⟩
  have hKeeps := keeps_checkInitialState hAdmits.state
  have hMid : mid.results.hermitian.contains name = true ↔
      v.results.hermitian.contains name = true ∨
        (∃ state, x.initialState = some state ∧ state.kind = .rho) ∧
          name = initialStateName x.name := by
    rcases prepares_of_checkInitialState hAdmits.state with
      ⟨state, hState, hPrepares⟩
    cases hPrepares with
    | ket hKind _ _ => simp [hState, hKind]
    | @rho rho trace hKind _ _ _ =>
        change (v.results.noteHermitian
          (initialStateName x.name)).hermitian.contains name = true ↔ _
        rw [ValidationResults.contains_noteHermitian, Bool.or_eq_true,
          decide_eq_true_eq, or_comm]
        refine or_congr_right ⟨fun hSame => ?_, fun hSame => hSame.2.symm⟩
        exact ⟨⟨state, hState, hKind⟩, hSame.symm⟩
  constructor
  · intro hNoted
    rcases hAdmits.observes.origin hNoted with
      hBefore | ⟨hObserved, hKnown⟩
    · rcases hMid.1 hBefore with hFirst | ⟨⟨state, hState, hKind⟩, rfl⟩
      · exact .inl hFirst
      · exact .inr (.state hState hKind)
    · rw [hKeeps.environment] at hKnown
      exact .inr (.observed hObserved hKnown)
  · rintro (hBefore | hNotes)
    · exact hAdmits.observes.keepsNote (hMid.2 (.inl hBefore))
    · cases hNotes with
      | observed hObserved hKnown =>
          rw [← hKeeps.environment] at hKnown
          exact hAdmits.observes.notes hObserved hKnown
      | state hState hKind =>
          exact hAdmits.observes.keepsNote
            (hMid.2 (.inr ⟨⟨_, hState, hKind⟩, rfl⟩))

/- An operator that is trusted in the end was trusted before. -/
theorem Observes.trusts
    (hObserves : Observes tolerance v name next)
    (hTrusts : Trusts tolerance next other) :
    Trusts tolerance v other := by
  cases hObserves with
  | symbolic _ => exact hTrusts
  | noted _ _ _ => exact hTrusts
  | checked _ hMatrix hHermitian =>
      rcases hTrusts with hNoted | hPasses
      · rw [ValidationResults.contains_noteHermitian, Bool.or_eq_true,
          decide_eq_true_eq] at hNoted
        rcases hNoted with rfl | hNoted
        · right
          intro a hFound
          cases hMatrix.symm.trans hFound
          exact hHermitian
        · exact .inl hNoted
      · exact .inr hPasses

theorem ObservesAll.trusts
    {names : List String}
    (hObserves : ObservesAll tolerance v names next)
    (hTrusts : Trusts tolerance next other) :
    Trusts tolerance v other := by
  induction hObserves with
  | nil => exact hTrusts
  | cons hFirst _ ih => exact hFirst.trusts (ih hTrusts)

/-
  What an experiment notes would also be found later.  The
  name of its density matrix has no value, so that there is
  nothing to check.
-/
theorem trails_of_checkExperiment
    (hUnknown : v.environment.lookup (initialStateName x.name) = none)
    (hCheck : checkExperiment tolerance v x = .ok next) :
    Trails tolerance next v := by
  have hKeeps := keeps_checkExperiment hCheck
  rcases admits_of_checkExperiment hCheck with ⟨mid, hAdmits⟩
  refine ⟨hKeeps.environment.symm, hKeeps.measurements.symm,
    fun name hNoted => ?_⟩
  have hBefore := keeps_checkInitialState hAdmits.state
  rcases hAdmits.observes.trusts (.inl hNoted) with hMid | hPasses
  · rcases origin_of_checkInitialState hAdmits.state hMid with
      hFirst | rfl
    · exact .inl hFirst
    · right
      intro a hMatrix
      cases hUnknown.symm.trans hMatrix
  · rw [hBefore.environment] at hPasses
    exact .inr hPasses

/-
  Two adjacent experiments are validated in either order, and
  the same operators are noted.
-/
theorem exchange_checkExperiment
    {last : Validator R}
    (hUnknown : v.environment.lookup (initialStateName x.name) = none)
    (hFirst : checkExperiment tolerance v x = .ok next)
    (hSecond : checkExperiment tolerance next y = .ok last) :
    ∃ mid last', checkExperiment tolerance v y = .ok mid ∧
      checkExperiment tolerance mid x = .ok last' ∧
      last'.environment = last.environment ∧
      last'.measurements = last.measurements ∧
      last.results.Covers last'.results := by
  rcases tracks_checkExperiment_of_trails
      (trails_of_checkExperiment hUnknown hFirst) y last hSecond with
    ⟨mid, hMid, hTrails⟩
  have hKeeps := keeps_checkExperiment hMid
  have hLater : Trails tolerance v mid :=
    ⟨hKeeps.environment, hKeeps.measurements, fun name hNoted =>
      .inl ((contains_checkExperiment_iff hMid).2 (.inl hNoted))⟩
  rcases tracks_checkExperiment_of_trails hLater x next hFirst with
    ⟨last', hLast', _⟩
  have hNext := keeps_checkExperiment hFirst
  have hLast := keeps_checkExperiment hLast'
  refine ⟨mid, last', hMid, hLast', ?_, ?_, fun name hNoted => ?_⟩
  · rw [hLast.environment, hTrails.environment]
  · rw [hLast.measurements, hTrails.measurements]
  · rw [contains_checkExperiment_iff hSecond,
      contains_checkExperiment_iff hFirst, hNext.environment,
      hNext.measurements] at hNoted
    rw [contains_checkExperiment_iff hLast',
      contains_checkExperiment_iff hMid, hKeeps.environment,
      hKeeps.measurements]
    tauto

end Validator

end QuantumLab
