import QuantumLab.Proofs.Irrelevance.Names
import QuantumLab.Proofs.Validation.Steps

/-
  This file says that validation does not depend on a name
  that is not used.  An operator that is noted as Hermitian
  is not checked again, so a validation that has noted more
  operators only accepts more.

  Key definitions include:
    * `ValidationResults.Covers`
    * `Validator.AgreesOff`

  Main statements:
    * `Validator.tracks_check` says what the check of a
      statement leads to in two validations that agree about
      all names but one.
    * `Validator.agreesOff_of_check` says that a declaration
      only changes what its own name stands for, and what is
      noted of it.
-/

------------------------------------------------------------
-- What is noted
------------------------------------------------------------

namespace QuantumLab

variable {R : Type}

namespace ValidationResults

/- Every operator that is noted as Hermitian is also noted by others. -/
def Covers (results results' : ValidationResults R) : Prop :=
  ∀ name, results.hermitian.contains name = true →
    results'.hermitian.contains name = true

variable {results results' : ValidationResults R}

theorem Covers.noteHermitian
    (hCovers : results.Covers results')
    (name : String) :
    (results.noteHermitian name).Covers
      (results'.noteHermitian name) := by
  intro other hNoted
  rw [contains_noteHermitian, Bool.or_eq_true] at hNoted ⊢
  exact hNoted.imp_right (hCovers other)

theorem Covers.noteHermitian_right
    (hCovers : results.Covers results')
    (name : String) :
    results.Covers (results'.noteHermitian name) := by
  intro other hNoted
  rw [contains_noteHermitian, Bool.or_eq_true]
  exact .inr (hCovers other hNoted)

/- What is noted already need not be noted again. -/
theorem Covers.noteHermitian_left
    {name : String}
    (hCovers : results.Covers results')
    (hNoted : results'.hermitian.contains name = true) :
    (results.noteHermitian name).Covers results' := by
  intro other hOther
  rw [contains_noteHermitian, Bool.or_eq_true,
    decide_eq_true_eq] at hOther
  rcases hOther with rfl | hOther
  · exact hNoted
  · exact hCovers other hOther

end ValidationResults

namespace Validator

open ValidationResults

/- The operators of a measurement are noted as Hermitian by any kind. -/
theorem covers_noteOperators
    {results results' : ValidationResults R}
    (hCovers : results.Covers results')
    (kind : MeasurementKind)
    (name : String)
    (count : Nat) :
    (noteOperators kind.note results name count).Covers
      (noteOperators kind.note results' name count) := by
  unfold noteOperators
  generalize List.range count = ks
  induction ks generalizing results results' with
  | nil => exact hCovers
  | cons k ks ih =>
      apply ih
      cases kind with
      | projective => exact hCovers.noteHermitian _
      | povm => exact hCovers.noteHermitian _

theorem covers_noteOperators_right
    {results results' : ValidationResults R}
    (hCovers : results.Covers results')
    (kind : MeasurementKind)
    (name : String)
    (count : Nat) :
    results.Covers (noteOperators kind.note results' name count) := by
  unfold noteOperators
  generalize List.range count = ks
  induction ks generalizing results' with
  | nil => exact hCovers
  | cons k ks ih =>
      apply ih
      cases kind with
      | projective => exact hCovers.noteHermitian_right _
      | povm => exact hCovers.noteHermitian_right _

------------------------------------------------------------
-- Validations that agree
------------------------------------------------------------

/-
  Two validations agree about every name but one, and the
  second has noted all that the first has.
-/
structure AgreesOff
    (name : String)
    (v v' : Validator R) : Prop where
  environment : Environment.AgreesOff name v.environment v'.environment
  measurements : Table.AgreesOff name v.measurements v'.measurements
  results : v.results.Covers v'.results

variable
  {name other : String}
  {v v' : Validator R}

theorem AgreesOff.refl
    (name : String)
    (v : Validator R) :
    AgreesOff name v v :=
  ⟨.refl _ _, .refl _, fun _ hNoted => hNoted⟩

theorem AgreesOff.define
    (hAgrees : AgreesOff name v v')
    (other : String)
    (value : Value R) :
    AgreesOff name (v.define other value) (v'.define other value) :=
  { hAgrees with environment := hAgrees.environment.define other value }

theorem AgreesOff.declareSymbolic
    (hAgrees : AgreesOff name v v')
    (other : String) :
    AgreesOff name (v.declareSymbolic other)
      (v'.declareSymbolic other) :=
  { hAgrees with
    environment := hAgrees.environment.declareSymbolic other }

theorem AgreesOff.noteHermitian
    (hAgrees : AgreesOff name v v')
    (other : String) :
    AgreesOff name
      { v with results := v.results.noteHermitian other }
      { v' with results := v'.results.noteHermitian other } :=
  { hAgrees with results := hAgrees.results.noteHermitian other }

end Validator

end QuantumLab

------------------------------------------------------------
-- Definitions
------------------------------------------------------------

namespace QuantumLab

variable {R : Type} [Arithmetic R]

namespace Validator

variable
  {name : String}
  {v v' : Validator R}
  {e : Expr R}

theorem tracks_checkQuantity
    (hAgrees : AgreesOff name v v')
    (hAvoids : e.Avoids name)
    (other : String) :
    Tracks (AgreesOff name) (v.checkQuantity other e)
      (v'.checkQuantity other e) := by
  refine Tracks.bind_same
    (Environment.evaluate?_agreesOff hAgrees.environment hAvoids)
    fun value? _ => ?_
  cases value? with
  | none => exact .of_ok (hAgrees.declareSymbolic other)
  | some value => exact .of_ok (hAgrees.define other value)

theorem tracks_checkHamiltonian
    {tolerance : R}
    (hAgrees : AgreesOff name v v')
    (hAvoids : e.Avoids name)
    (other : String)
    (parameters : List String) :
    Tracks (AgreesOff name)
      (checkHamiltonian tolerance v other parameters e)
      (checkHamiltonian tolerance v' other parameters e) := by
  have hSymbolic := hAgrees.declareSymbolic other
  cases parameters with
  | cons parameter rest => exact .of_ok hSymbolic
  | nil =>
      refine Tracks.bind_same
        (Environment.evaluate?_agreesOff hAgrees.environment hAvoids)
        fun value? _ => ?_
      cases value? with
      | none => exact .of_ok hSymbolic
      | some value =>
          cases value with
          | scalar z => exact .of_error
          | vector w => exact .of_error
          | matrix h =>
              refine Tracks.bind_same rfl fun _ _ => .of_ok ?_
              exact (hAgrees.noteHermitian other).define other (.matrix h)

theorem operatorMatrices_agreesOff
    {env env' : Environment R}
    {operators : List (Expr R)}
    (hAgrees : Environment.AgreesOff name env env')
    (hAvoids : ∀ e ∈ operators, e.Avoids name)
    (measurement : String)
    (k : Nat) :
    operatorMatrices env' measurement k operators =
      operatorMatrices env measurement k operators := by
  induction operators generalizing k with
  | nil => rfl
  | cons operator rest ih =>
      rcases List.forall_mem_cons.1 hAvoids with ⟨hHead, hTail⟩
      simp only [operatorMatrices,
        Environment.evaluate_agreesOff hAgrees hHead, ih hTail]

theorem tracks_checkMeasurement
    {tolerance : R}
    {operators : List (Expr R)}
    (hAgrees : AgreesOff name v v')
    (hAvoids : ∀ e ∈ operators, e.Avoids name)
    (other : String)
    (kind : MeasurementKind) :
    Tracks (AgreesOff name)
      (checkMeasurement tolerance v other kind operators)
      (checkMeasurement tolerance v' other kind operators) := by
  refine Tracks.bind_same
    (operatorMatrices_agreesOff hAgrees.environment hAvoids other 0)
    fun matrices _ => ?_
  have hMeasured : AgreesOff name
      { v with
        results := noteOperators kind.note v.results other matrices.length
        measurements := v.measurements.add other }
      { v' with
        results := noteOperators kind.note v'.results other matrices.length
        measurements := v'.measurements.add other } :=
    { environment := hAgrees.environment
      measurements := hAgrees.measurements.insert other ()
      results := covers_noteOperators hAgrees.results kind other _ }
  cases kind with
  | projective => exact Tracks.bind_same rfl fun _ _ => .of_ok hMeasured
  | povm => exact Tracks.bind_same rfl fun _ _ => .of_ok hMeasured

------------------------------------------------------------
-- Experiments
------------------------------------------------------------

theorem tracks_checkInitialState
    {tolerance : R}
    {x : Experiment R}
    (hAgrees : AgreesOff name v v')
    (hAvoids : x.Avoids name) :
    Tracks (AgreesOff name) (checkInitialState tolerance v x)
      (checkInitialState tolerance v' x) := by
  unfold checkInitialState
  cases hState : x.initialState with
  | none => exact .of_error
  | some state =>
      refine Tracks.bind_same
        (Environment.evaluate_agreesOff hAgrees.environment
          (hAvoids.state state hState)) fun value _ => ?_
      cases state.kind with
      | ket =>
          cases value with
          | vector ket =>
              exact Tracks.bind_same rfl fun _ _ => .of_ok hAgrees
          | scalar z => exact .of_error
          | matrix a => exact .of_error
      | rho =>
          cases value with
          | matrix rho =>
              refine Tracks.bind_same rfl fun _ _ => ?_
              refine Tracks.bind_same rfl fun trace _ => .of_ok ?_
              exact { hAgrees with
                results := hAgrees.results.noteHermitian _ }
          | scalar z => exact .of_error
          | vector w => exact .of_error

omit [Arithmetic R] in
theorem referencedMatrix_agreesOff
    {operator : String}
    (hAgrees : AgreesOff name v v')
    (hOther : operator ≠ name)
    (usage : String) :
    v'.referencedMatrix usage operator =
      v.referencedMatrix usage operator := by
  unfold referencedMatrix
  rw [hAgrees.environment.isSymbolic hOther,
    hAgrees.environment.lookup hOther]

/- An operator that is noted by the second validation is not checked. -/
theorem tracks_checkObservable
    {tolerance : R}
    {operator : String}
    (hAgrees : AgreesOff name v v')
    (hOther : operator ≠ name)
    (usage : String) :
    Tracks (AgreesOff name) (checkObservable tolerance v usage operator)
      (checkObservable tolerance v' usage operator) := by
  refine Tracks.bind_same
    (referencedMatrix_agreesOff hAgrees hOther usage) fun a? _ => ?_
  cases a? with
  | none => exact .of_ok hAgrees
  | some a =>
      simp only
      by_cases hNoted : v.results.hermitian.contains operator = true
      · rw [if_pos hNoted, if_pos (hAgrees.results operator hNoted)]
        exact .of_ok hAgrees
      · rw [if_neg hNoted]
        by_cases hNoted' :
            v'.results.hermitian.contains operator = true
        · rw [if_pos hNoted']
          intro next hChecked
          rcases unit_bind_eq_ok_iff.1 hChecked with ⟨_, hDone⟩
          rw [← pure_eq_ok_iff.1 hDone]
          exact ⟨v', rfl, { hAgrees with
            results := hAgrees.results.noteHermitian_left hNoted' }⟩
        · rw [if_neg hNoted']
          exact Tracks.bind_same rfl fun _ _ =>
            .of_ok (hAgrees.noteHermitian operator)

theorem requireTerm_agreesOff
    {term : LindbladTerm R}
    (hAgrees : AgreesOff name v v')
    (hOperator : term.operator ≠ name)
    (hRate : term.rate.Avoids name)
    (experiment : String) :
    v'.requireTerm experiment term = v.requireTerm experiment term := by
  rw [requireTerm, referencedMatrix_agreesOff hAgrees hOperator,
    Environment.evaluateReal_agreesOff hAgrees.environment hRate,
    requireTerm]

theorem tracks_checkEvolution
    {tolerance : R}
    {evolution : Option (Evolution R)}
    (hAgrees : AgreesOff name v v')
    (hAvoids : ∀ given, evolution = some given → given.Avoids name)
    (experiment : String) :
    Tracks (AgreesOff name)
      (checkEvolution tolerance v experiment evolution)
      (checkEvolution tolerance v' experiment evolution) := by
  cases evolution with
  | none => exact .of_ok hAgrees
  | some evolution =>
      have hFree := hAvoids evolution rfl
      refine Tracks.bind_same rfl fun _ _ => ?_
      refine (tracks_checkObservable hAgrees hFree.hamiltonian _).bind
        fun next next' hNext => ?_
      have hTerms : evolution.terms.forM (next'.requireTerm experiment) =
          evolution.terms.forM (next.requireTerm experiment) :=
        forM_congr fun term hMember =>
          requireTerm_agreesOff hNext (hFree.operators term hMember)
            (hFree.rates term hMember) experiment
      exact Tracks.bind_same hTerms fun _ _ => .of_ok hNext

theorem tracks_checkEvent
    {tolerance : R}
    {event : Event R}
    (hAgrees : AgreesOff name v v')
    (hOther : event.measurement ≠ name) :
    Tracks (AgreesOff name) (checkEvent tolerance v event)
      (checkEvent tolerance v' event) := by
  unfold checkEvent
  rw [hAgrees.measurements.contains hOther]
  split
  · exact .of_ok hAgrees
  · exact tracks_checkObservable hAgrees hOther _

theorem tracks_checkSchedule
    {tolerance : R}
    {schedule : List (Event R)}
    (hAgrees : AgreesOff name v v')
    (hOther : ∀ event ∈ schedule, event.measurement ≠ name) :
    Tracks (AgreesOff name) (schedule.foldlM (checkEvent tolerance) v)
      (schedule.foldlM (checkEvent tolerance) v') :=
  .foldlM hAgrees fun event hEvent _ _ hNext =>
    tracks_checkEvent hNext (hOther event hEvent)

theorem tracks_checkExperiment
    {tolerance : R}
    {x : Experiment R}
    (hAgrees : AgreesOff name v v')
    (hAvoids : x.Avoids name) :
    Tracks (AgreesOff name) (checkExperiment tolerance v x)
      (checkExperiment tolerance v' x) := by
  refine (tracks_checkInitialState hAgrees hAvoids).bind
    fun first first' hFirst => ?_
  refine (tracks_checkEvolution hFirst hAvoids.evolution x.name).bind
    fun second second' hSecond => ?_
  exact tracks_checkSchedule hSecond hAvoids.schedule

end Validator

end QuantumLab

------------------------------------------------------------
-- Statements
------------------------------------------------------------

namespace QuantumLab

variable {R : Type} [Arithmetic R]

namespace Validator

variable
  {name : String}
  {v v' : Validator R}
  {d : Statement R}

/- A statement that avoids a name is checked in both validations. -/
theorem tracks_check
    {tolerance : R}
    (hAgrees : AgreesOff name v v')
    (hAvoids : d.Avoids name) :
    Tracks (AgreesOff name) (check tolerance v d)
      (check tolerance v' d) := by
  cases d with
  | empty => exact .of_error
  | const other e => exact tracks_checkQuantity hAgrees hAvoids other
  | symbol other => exact .of_ok (hAgrees.declareSymbolic other)
  | matrix other e => exact tracks_checkQuantity hAgrees hAvoids other
  | function other parameters body =>
      exact .of_ok (hAgrees.declareSymbolic other)
  | hamiltonian other parameters e =>
      exact tracks_checkHamiltonian hAgrees hAvoids other parameters
  | measurement other kind operators =>
      exact tracks_checkMeasurement hAgrees hAvoids other kind
  | experiment x => exact tracks_checkExperiment hAgrees hAvoids

/- A declaration only changes what its name stands for. -/
theorem agreesOff_of_check
    {tolerance : R}
    {next : Validator R}
    (hOther : d.experiment? = none)
    (hCheck : check tolerance v d = .ok next) :
    AgreesOff d.name v next := by
  have hSame := AgreesOff.refl d.name v
  cases checks_of_check hCheck with
  | symbol hSymbol =>
      exact { hSame with
        environment := hSame.environment.declareSymbolic_right }
  | undefined hDefinition hNone =>
      exact { hSame with
        environment := hSame.environment.declareSymbolic_right }
  | quantity hDefinition hKind hValue =>
      exact { hSame with
        environment := hSame.environment.define_right _ }
  | hamiltonian hDefinition hKind hValue hHermitian =>
      exact { hSame with
        environment := hSame.environment.define_right _
        results := hSame.results.noteHermitian_right _ }
  | @measurement name kind operators matrices hMatrices hRequired =>
      exact { hSame with
        measurements := hSame.measurements.insert_right ()
        results := covers_noteOperators_right hSame.results kind _ _ }
  | experiment hChecked => cases hOther

end Validator

end QuantumLab
