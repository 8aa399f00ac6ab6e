import QuantumLab.Proofs.Validation.Steps

/-
  This file says what the validation of an experiment makes
  sure of about the operators that the experiment refers to.

  Key definitions include:
    * `Environment.KnowsOperator`
    * `Experiment.observed`
    * `Validator.ObservesAll`
    * `Validator.Admits`

  Main statements:
    * `Validator.admits_of_checkExperiment` says what a
      validated experiment has passed.
    * `Validator.Admits.knowsOperators` says that its names
      are operators or only symbols.
-/

------------------------------------------------------------
-- Operators of experiments
------------------------------------------------------------

namespace QuantumLab

variable {R : Type}

/- A name stands for an operator, or it is only a symbol. -/
def Environment.KnowsOperator
    (names : Environment R)
    (name : String) : Prop :=
  names.isSymbolic name = true ∨
    ∃ a, names.lookup name = some (.matrix a)

namespace Experiment

/- The names of the observables of a schedule. -/
def observables
    (measured : String → Bool)
    (schedule : List (Event R)) : List String :=
  (schedule.map Event.measurement).filter fun name => !measured name

/-
  The names of the operators that have to be Hermitian, in
  the order in which they are checked.
-/
def observed
    (x : Experiment R)
    (measured : String → Bool) : List String :=
  (x.evolution.map Evolution.hamiltonian).toList ++
    observables measured x.schedule

/- The names of the jump operators of an experiment. -/
def jumpOperators (x : Experiment R) : List String :=
  match x.evolution with
  | some evolution => evolution.terms.map LindbladTerm.operator
  | none => []

theorem hamiltonian_mem_observed
    {x : Experiment R}
    {evolution : Evolution R}
    (hEvolution : x.evolution = some evolution)
    (measured : String → Bool) :
    evolution.hamiltonian ∈ x.observed measured := by
  simp [observed, hEvolution]

theorem event_mem_observed
    {x : Experiment R}
    {event : Event R}
    {measured : String → Bool}
    (hEvent : event ∈ x.schedule)
    (hOther : measured event.measurement = false) :
    event.measurement ∈ x.observed measured := by
  refine List.mem_append_right _ (List.mem_filter.2 ⟨?_, ?_⟩)
  · exact List.mem_map_of_mem hEvent
  · simp [hOther]

theorem operator_mem_jumpOperators
    {x : Experiment R}
    {evolution : Evolution R}
    {term : LindbladTerm R}
    (hEvolution : x.evolution = some evolution)
    (hTerm : term ∈ evolution.terms) :
    term.operator ∈ x.jumpOperators := by
  unfold jumpOperators
  rw [hEvolution]
  exact List.mem_map_of_mem hTerm

end Experiment

end QuantumLab

------------------------------------------------------------
-- Validated experiments
------------------------------------------------------------

namespace QuantumLab

variable {R : Type} [Arithmetic R]

namespace Validator

theorem Observes.knowsOperator
    {tolerance : R}
    {v next : Validator R}
    {name : String}
    (hObserves : Observes tolerance v name next) :
    v.environment.KnowsOperator name := by
  cases hObserves with
  | symbolic hSymbolic => exact .inl hSymbolic
  | noted hKnown hMatrix hNoted => exact .inr ⟨_, hMatrix⟩
  | checked hKnown hMatrix hHermitian => exact .inr ⟨_, hMatrix⟩

/- What references to several operators lead to, one after another. -/
inductive ObservesAll
    (tolerance : R) :
    Validator R → List String → Validator R → Prop where
  | nil
      {v : Validator R} :
      ObservesAll tolerance v [] v
  | cons
      {v mid next : Validator R}
      {name : String}
      {names : List String}
      (hFirst : Observes tolerance v name mid)
      (hRest : ObservesAll tolerance mid names next) :
      ObservesAll tolerance v (name :: names) next

theorem ObservesAll.knowsOperators
    {tolerance : R}
    {v next : Validator R}
    {names : List String}
    (hObserves : ObservesAll tolerance v names next) :
    ∀ name ∈ names, v.environment.KnowsOperator name := by
  induction hObserves with
  | nil =>
      intro _ hMember
      exact absurd hMember List.not_mem_nil
  | cons hFirst _ ih =>
      intro name hMember
      rcases List.mem_cons.1 hMember with rfl | hLater
      · exact hFirst.knowsOperator
      · rw [← hFirst.keeps.environment]
        exact ih name hLater

theorem observesAll_of_checkSchedule
    {tolerance : R}
    {v next : Validator R}
    {schedule : List (Event R)}
    (hCheck : schedule.foldlM (checkEvent tolerance) v = .ok next) :
    ObservesAll tolerance v
      (Experiment.observables v.measurements.contains schedule)
      next := by
  induction schedule generalizing v with
  | nil =>
      rw [← pure_eq_ok_iff.1 hCheck]
      exact .nil
  | cons event rest ih =>
      rw [List.foldlM_cons] at hCheck
      rcases bind_eq_ok_iff.1 hCheck with ⟨mid, hEvent, hRest⟩
      have hLater := ih hRest
      rw [(keeps_checkEvent hEvent).measurements] at hLater
      unfold checkEvent at hEvent
      rw [Experiment.observables, List.map_cons]
      by_cases hMeasured :
          v.measurements.contains event.measurement = true
      · rw [if_pos hMeasured] at hEvent
        rw [List.filter_cons_of_neg (by simp [hMeasured]),
          Except.ok.inj hEvent]
        rw [Except.ok.inj hEvent] at hLater
        exact hLater
      · rw [if_neg hMeasured] at hEvent
        rw [List.filter_cons_of_pos (by simp [hMeasured])]
        exact .cons (observes_of_checkObservable hEvent) hLater

/- A term that is not refused has an operator. -/
theorem knowsOperator_of_requireTerm
    {v : Validator R}
    {experiment : String}
    {term : LindbladTerm R}
    (hTerm : v.requireTerm experiment term = .ok ()) :
    v.environment.KnowsOperator term.operator := by
  rcases bind_eq_ok_iff.1 hTerm with ⟨a?, hReferenced, _⟩
  unfold referencedMatrix at hReferenced
  by_cases hSymbolic :
      v.environment.isSymbolic term.operator = true
  · exact .inl hSymbolic
  · rw [if_neg hSymbolic] at hReferenced
    cases hMatrix : v.environment.lookup term.operator with
    | none => simp [hMatrix] at hReferenced
    | some value =>
        cases value with
        | scalar z => simp [hMatrix] at hReferenced
        | vector w => simp [hMatrix] at hReferenced
        | matrix a => exact .inr ⟨a, hMatrix⟩

/- What a validated experiment has passed. -/
structure Admits
    (tolerance : R)
    (v mid : Validator R)
    (x : Experiment R)
    (next : Validator R) : Prop where
  state : checkInitialState tolerance v x = .ok mid
  observes : ObservesAll tolerance mid
    (x.observed v.measurements.contains) next
  grid : ∀ evolution, x.evolution = some evolution →
    requireAscendingGrid x.name evolution.grid = .ok ()
  jumps : ∀ name ∈ x.jumpOperators, v.environment.KnowsOperator name

theorem admits_of_checkExperiment
    {tolerance : R}
    {v next : Validator R}
    {x : Experiment R}
    (hCheck : checkExperiment tolerance v x = .ok next) :
    ∃ mid, Admits tolerance v mid x next := by
  rcases bind_eq_ok_iff.1 hCheck with ⟨mid, hState, hRest⟩
  rcases bind_eq_ok_iff.1 hRest with ⟨last, hEvolution, hSchedule⟩
  have hKeeps := keeps_checkInitialState hState
  have hLater := observesAll_of_checkSchedule hSchedule
  rw [(keeps_checkEvolution hEvolution).measurements,
    hKeeps.measurements] at hLater
  cases hSome : x.evolution with
  | none =>
      rw [hSome] at hEvolution
      rw [← Except.ok.inj hEvolution] at hLater
      refine ⟨mid, hState, ?_, ?_, ?_⟩
      · rw [Experiment.observed, hSome]
        exact hLater
      · intro evolution hOther
        rw [hSome] at hOther
        cases hOther
      · simp [Experiment.jumpOperators, hSome]
  | some evolution =>
      rw [hSome] at hEvolution
      rcases unit_bind_eq_ok_iff.1 hEvolution with ⟨hGrid, hRest⟩
      rcases bind_eq_ok_iff.1 hRest with ⟨seen, hObservable, hTerms⟩
      rcases unit_bind_eq_ok_iff.1 hTerms with ⟨hEach, hDone⟩
      have hObserves := observes_of_checkObservable hObservable
      rw [← pure_eq_ok_iff.1 hDone] at hLater
      refine ⟨mid, hState, ?_, ?_, ?_⟩
      · rw [Experiment.observed, hSome]
        exact .cons hObserves hLater
      · intro other hOther
        rw [hSome] at hOther
        cases hOther
        exact hGrid
      · rw [Experiment.jumpOperators, hSome]
        intro name hMember
        rcases List.mem_map.1 hMember with ⟨term, hTerm, rfl⟩
        rw [← hKeeps.environment, ← hObserves.keeps.environment]
        exact knowsOperator_of_requireTerm
          (forM_eq_ok_iff.1 hEach term hTerm)

/- The names of a validated experiment are operators or only symbols. -/
theorem Admits.knowsOperators
    {tolerance : R}
    {v mid next : Validator R}
    {x : Experiment R}
    (hAdmits : Admits tolerance v mid x next) :
    ∀ name ∈ x.observed v.measurements.contains,
      v.environment.KnowsOperator name := by
  rw [← (keeps_checkInitialState hAdmits.state).environment]
  exact hAdmits.observes.knowsOperators

end Validator

end QuantumLab
