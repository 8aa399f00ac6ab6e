import QuantumLab.Proofs.Evaluation.Substitution
import QuantumLab.Proofs.Irrelevance.Names
import QuantumLab.Proofs.Program.Assignments
import QuantumLab.Proofs.Validation.References

/-
  This file puts expressions in the place of names in the
  statements of a program, and says that a statement is
  checked as it was before, if the expressions come to what
  the names stand for.

  Key definitions include:
    * `Statement.substitute`
    * `Statement.RefersTo`
    * `Validator.Inlines`

  Main statements:
    * `Validator.alike_check` says what the check of a
      statement leads to when names in it are replaced.
-/

------------------------------------------------------------
-- Statements in which names are replaced
------------------------------------------------------------

namespace QuantumLab

variable {R : Type}

/-
  The expressions that stand for names inside of a
  definition, where a parameter hides a name.
-/
def Expr.sparing
    (σ : String → Expr R)
    (parameters : List String)
    (name : String) : Expr R :=
  if name ∈ parameters then .identifier name else σ name

/- An evolution with the names in its rates replaced. -/
def Evolution.substitute
    (σ : String → Expr R)
    (evolution : Evolution R) : Evolution R :=
  { evolution with
    terms := evolution.terms.map fun term =>
      { term with rate := term.rate.substitute σ } }

/-
  An experiment with the names in its expressions replaced.
  The operators that it refers to by name stay.
-/
def Experiment.substitute
    (σ : String → Expr R)
    (x : Experiment R) : Experiment R :=
  { x with
    initialState := x.initialState.map fun state =>
      { state with value := state.value.substitute σ }
    evolution := x.evolution.map (Evolution.substitute σ) }

namespace Statement

/- A statement with the names in its expressions replaced. -/
def substitute (σ : String → Expr R) : Statement R → Statement R
  | .empty => .empty
  | .const name value => .const name (value.substitute σ)
  | .symbol name => .symbol name
  | .matrix name value => .matrix name (value.substitute σ)
  | .function name parameters body =>
      .function name parameters
        (body.substitute (Expr.sparing σ parameters))
  | .hamiltonian name parameters expression =>
      .hamiltonian name parameters
        (expression.substitute (Expr.sparing σ parameters))
  | .measurement name kind operators =>
      .measurement name kind (operators.map (Expr.substitute σ))
  | .experiment x => .experiment (x.substitute σ)

theorem name_substitute
    (σ : String → Expr R)
    (statement : Statement R) :
    (statement.substitute σ).name = statement.name := by
  cases statement <;> rfl

/- An experiment refers to an operator by its name. -/
def RefersTo (statement : Statement R) (name : String) : Prop :=
  ∃ x, statement = .experiment x ∧
    (name ∈ x.observed (fun _ => false) ∨ name ∈ x.jumpOperators)

end Statement

/- No expression that stands for another name says anything of a name. -/
structure Expr.Spares
    (σ : String → Expr R)
    (name : String) : Prop where
  same : σ name = .identifier name
  others : ∀ other, other ≠ name → ¬ (σ other).Mentions name

end QuantumLab

------------------------------------------------------------
-- Environments
------------------------------------------------------------

namespace QuantumLab

variable {R : Type}

variable [Arithmetic R]

namespace Environment

/-
  What stands for a name comes in the second environment to
  what the name stands for in the first, and the two agree
  about the names that are not hidden.
-/
structure Inlines
    (hidden : String → Prop)
    (σ : String → Expr R)
    (env env' : Environment R) : Prop where
  names : ∀ name, env'.evaluate (σ name) = env.resolve name
  values : Table.AgreesOutside hidden env.values env'.values
  symbolic : Table.AgreesOutside hidden env.symbolic env'.symbolic

variable
  {hidden : String → Prop}
  {σ : String → Expr R}
  {env env' : Environment R}
  {name : String}

theorem Inlines.evaluate
    (hInlines : Inlines hidden σ env env')
    (e : Expr R) :
    env'.evaluate (e.substitute σ) = env.evaluate e :=
  evaluate_substitute fun name _ => hInlines.names name

theorem Inlines.evaluate?
    (hInlines : Inlines hidden σ env env')
    (e : Expr R) :
    env'.evaluate? (e.substitute σ) = env.evaluate? e := by
  rw [Environment.evaluate?, hInlines.evaluate, Environment.evaluate?]

theorem Inlines.evaluateReal
    (hInlines : Inlines hidden σ env env')
    (usage : String)
    (e : Expr R) :
    env'.evaluateReal usage (e.substitute σ) =
      env.evaluateReal usage e := by
  rw [Environment.evaluateReal, hInlines.evaluate,
    Environment.evaluateReal]

/- A name that the substitution spares may be given a new meaning. -/
theorem Inlines.define
    (hInlines : Inlines hidden σ env env')
    (hSpares : Expr.Spares σ name)
    (value : Value R) :
    Inlines hidden σ (env.define name value)
      (env'.define name value) where
  names other := by
    by_cases hSame : other = name
    · rw [hSame, hSpares.same, Environment.evaluate,
        resolve_define_self, resolve_define_self]
    · have hOthers : (env'.define name value).evaluate (σ other) =
          env'.evaluate (σ other) := by
        refine evaluate_congr fun mentioned hMentions => ?_
        refine resolve_define_of_ne ?_ value
        rintro rfl
        exact hSpares.others other hSame hMentions
      rw [hOthers, hInlines.names, resolve_define_of_ne (Ne.symm hSame)]
  values := hInlines.values.insert name value
  symbolic := hInlines.symbolic.erase name

theorem Inlines.declareSymbolic
    (hInlines : Inlines hidden σ env env')
    (hSpares : Expr.Spares σ name) :
    Inlines hidden σ (env.declareSymbolic name)
      (env'.declareSymbolic name) where
  names other := by
    by_cases hSame : other = name
    · rw [hSame, hSpares.same, Environment.evaluate,
        resolve_declareSymbolic_self, resolve_declareSymbolic_self]
    · have hOthers : (env'.declareSymbolic name).evaluate (σ other) =
          env'.evaluate (σ other) := by
        refine evaluate_congr fun mentioned hMentions => ?_
        refine resolve_declareSymbolic_of_ne ?_
        rintro rfl
        exact hSpares.others other hSame hMentions
      rw [hOthers, hInlines.names,
        resolve_declareSymbolic_of_ne (Ne.symm hSame)]
  values := hInlines.values.erase name
  symbolic := hInlines.symbolic.insert name ()

end Environment

end QuantumLab

------------------------------------------------------------
-- Validations
------------------------------------------------------------

namespace QuantumLab

variable {R : Type}

namespace ValidationResults

/- The same is established about the operators that are not hidden. -/
structure AgreesOutside
    (hidden : String → Prop)
    (results results' : ValidationResults R) : Prop where
  hermitian : Table.AgreesOutside hidden results.hermitian
    results'.hermitian
  psd : Table.AgreesOutside hidden results.psd results'.psd
  traces : Table.AgreesOutside hidden results.traces results'.traces

variable
  {hidden : String → Prop}
  {results results' : ValidationResults R}

theorem AgreesOutside.refl
    (hidden : String → Prop)
    (results : ValidationResults R) :
    AgreesOutside hidden results results :=
  ⟨fun _ _ => rfl, fun _ _ => rfl, fun _ _ => rfl⟩

theorem AgreesOutside.noteHermitian
    (hAgrees : AgreesOutside hidden results results')
    (name : String) :
    AgreesOutside hidden (results.noteHermitian name)
      (results'.noteHermitian name) :=
  { hAgrees with hermitian := hAgrees.hermitian.insert name true }

theorem AgreesOutside.notePositive
    (hAgrees : AgreesOutside hidden results results')
    (name : String) :
    AgreesOutside hidden (results.notePositive name)
      (results'.notePositive name) :=
  { hAgrees.noteHermitian name with
    psd := hAgrees.psd.insert name true }

theorem AgreesOutside.noteState
    (hAgrees : AgreesOutside hidden results results')
    (name : String)
    (trace : Scalar R) :
    AgreesOutside hidden (results.noteState name trace)
      (results'.noteState name trace) :=
  { hAgrees.notePositive name with
    traces := hAgrees.traces.insert name trace }

theorem AgreesOutside.noteOperators
    (hAgrees : AgreesOutside hidden results results')
    (kind : MeasurementKind)
    (name : String)
    (count : Nat) :
    AgreesOutside hidden
      (Validator.noteOperators kind.note results name count)
      (Validator.noteOperators kind.note results' name count) := by
  unfold Validator.noteOperators
  generalize List.range count = ks
  induction ks generalizing results results' with
  | nil => exact hAgrees
  | cons k ks ih =>
      apply ih
      cases kind with
      | projective => exact hAgrees.noteHermitian _
      | povm => exact hAgrees.notePositive _

theorem AgreesOutside.eq
    (hAgrees : AgreesOutside (fun _ => False) results results') :
    results' = results := by
  rcases results with ⟨hermitian, psd, traces⟩
  rcases results' with ⟨hermitian', psd', traces'⟩
  have hHermitian : hermitian' = hermitian := hAgrees.hermitian.eq
  have hPsd : psd' = psd := hAgrees.psd.eq
  have hTraces : traces' = traces := hAgrees.traces.eq
  rw [hHermitian, hPsd, hTraces]

end ValidationResults

variable [Arithmetic R]

namespace Validator

/-
  A validation in which names are replaced, next to one in
  which they stand for what replaces them.
-/
structure Inlines
    (hidden : String → Prop)
    (σ : String → Expr R)
    (v v' : Validator R) : Prop where
  environment : v.environment.Inlines hidden σ v'.environment
  results : v.results.AgreesOutside hidden v'.results
  measurements : v'.measurements = v.measurements

variable
  {hidden : String → Prop}
  {σ : String → Expr R}
  {v v' : Validator R}
  {name : String}

theorem Inlines.define
    (hInlines : Inlines hidden σ v v')
    (hSpares : Expr.Spares σ name)
    (value : Value R) :
    Inlines hidden σ (v.define name value) (v'.define name value) :=
  { hInlines with
    environment := hInlines.environment.define hSpares value }

theorem Inlines.declareSymbolic
    (hInlines : Inlines hidden σ v v')
    (hSpares : Expr.Spares σ name) :
    Inlines hidden σ (v.declareSymbolic name)
      (v'.declareSymbolic name) :=
  { hInlines with
    environment := hInlines.environment.declareSymbolic hSpares }

theorem Inlines.noteHermitian
    (hInlines : Inlines hidden σ v v')
    (name : String) :
    Inlines hidden σ { v with results := v.results.noteHermitian name }
      { v' with results := v'.results.noteHermitian name } :=
  { hInlines with results := hInlines.results.noteHermitian name }

/- Where nothing is hidden, the two validations are the same. -/
theorem Inlines.eq
    (hInlines : Inlines (fun _ => False) σ v v') :
    v' = v := by
  rcases v with ⟨⟨values, symbolic⟩, results, measurements⟩
  rcases v' with ⟨⟨values', symbolic'⟩, results', measurements'⟩
  have hValues : values' = values := hInlines.environment.values.eq
  have hSymbolic : symbolic' = symbolic :=
    hInlines.environment.symbolic.eq
  have hResults : results' = results := hInlines.results.eq
  have hMeasurements : measurements' = measurements :=
    hInlines.measurements
  rw [hValues, hSymbolic, hResults, hMeasurements]

------------------------------------------------------------
-- Definitions
------------------------------------------------------------

theorem alike_checkQuantity
    (hInlines : Inlines hidden σ v v')
    (hSpares : Expr.Spares σ name)
    (e : Expr R) :
    Alike (Inlines hidden σ) (v.checkQuantity name e)
      (v'.checkQuantity name (e.substitute σ)) := by
  refine Alike.bind_same (hInlines.environment.evaluate? e)
    fun value? _ => ?_
  cases value? with
  | none => exact .ok (hInlines.declareSymbolic hSpares)
  | some value => exact .ok (hInlines.define hSpares value)

omit [Arithmetic R] in
theorem sparing_nil
    (σ : String → Expr R) :
    Expr.sparing σ [] = σ := by
  funext name
  exact if_neg List.not_mem_nil

theorem alike_checkHamiltonian
    {tolerance : R}
    (hInlines : Inlines hidden σ v v')
    (hSpares : Expr.Spares σ name)
    (parameters : List String)
    (e : Expr R) :
    Alike (Inlines hidden σ)
      (checkHamiltonian tolerance v name parameters e)
      (checkHamiltonian tolerance v' name parameters
        (e.substitute (Expr.sparing σ parameters))) := by
  cases parameters with
  | cons parameter rest =>
      exact .ok (hInlines.declareSymbolic hSpares)
  | nil =>
      rw [sparing_nil]
      refine Alike.bind_same (hInlines.environment.evaluate? e)
        fun value? _ => ?_
      cases value? with
      | none => exact .ok (hInlines.declareSymbolic hSpares)
      | some value =>
          cases value with
          | scalar z => exact .error _
          | vector w => exact .error _
          | matrix h =>
              refine Alike.bind_same rfl fun _ _ => .ok ?_
              exact (hInlines.noteHermitian name).define hSpares _

theorem operatorMatrices_substitute
    {env env' : Environment R}
    (hInlines : env.Inlines hidden σ env')
    (measurement : String)
    (k : Nat)
    (operators : List (Expr R)) :
    operatorMatrices env' measurement k
        (operators.map (Expr.substitute σ)) =
      operatorMatrices env measurement k operators := by
  induction operators generalizing k with
  | nil => rfl
  | cons operator rest ih =>
      simp only [List.map_cons, operatorMatrices, hInlines.evaluate, ih]

theorem alike_checkMeasurement
    {tolerance : R}
    (hInlines : Inlines hidden σ v v')
    (name : String)
    (kind : MeasurementKind)
    (operators : List (Expr R)) :
    Alike (Inlines hidden σ)
      (checkMeasurement tolerance v name kind operators)
      (checkMeasurement tolerance v' name kind
        (operators.map (Expr.substitute σ))) := by
  refine Alike.bind_same
    (operatorMatrices_substitute hInlines.environment name 0 operators)
    fun matrices _ => ?_
  have hMeasured : Inlines hidden σ
      { v with
        results := noteOperators kind.note v.results name matrices.length
        measurements := v.measurements.add name }
      { v' with
        results := noteOperators kind.note v'.results name matrices.length
        measurements := v'.measurements.add name } :=
    { environment := hInlines.environment
      results := hInlines.results.noteOperators kind name _
      measurements := by rw [hInlines.measurements] }
  cases kind with
  | projective => exact Alike.bind_same rfl fun _ _ => .ok hMeasured
  | povm => exact Alike.bind_same rfl fun _ _ => .ok hMeasured

------------------------------------------------------------
-- Experiments
------------------------------------------------------------

theorem alike_checkInitialState
    {tolerance : R}
    (hInlines : Inlines hidden σ v v')
    (x : Experiment R) :
    Alike (Inlines hidden σ) (checkInitialState tolerance v x)
      (checkInitialState tolerance v' (x.substitute σ)) := by
  rcases x with ⟨experiment, state?, evolution, schedule⟩
  cases state? with
  | none => exact .error _
  | some state =>
      refine Alike.bind_same (hInlines.environment.evaluate state.value)
        fun value _ => ?_
      rcases state with ⟨kind, e⟩
      cases kind with
      | ket =>
          cases value with
          | vector ket =>
              exact Alike.bind_same rfl fun _ _ => .ok hInlines
          | scalar z => exact .error _
          | matrix a => exact .error _
      | rho =>
          cases value with
          | matrix rho =>
              refine Alike.bind_same rfl fun _ _ => ?_
              refine Alike.bind_same rfl fun trace _ => .ok ?_
              exact { hInlines with
                results := hInlines.results.noteState _ trace }
          | scalar z => exact .error _
          | vector w => exact .error _

theorem Inlines.referencedMatrix
    (hInlines : Inlines hidden σ v v')
    (hSeen : ¬ hidden name)
    (usage : String) :
    v'.referencedMatrix usage name = v.referencedMatrix usage name := by
  unfold Validator.referencedMatrix Environment.isSymbolic
    Environment.lookup
  rw [hInlines.environment.symbolic.contains hSeen,
    hInlines.environment.values name hSeen]

theorem alike_checkObservable
    {tolerance : R}
    (hInlines : Inlines hidden σ v v')
    (hSeen : ¬ hidden name)
    (usage : String) :
    Alike (Inlines hidden σ) (checkObservable tolerance v usage name)
      (checkObservable tolerance v' usage name) := by
  refine Alike.bind_same (hInlines.referencedMatrix hSeen usage)
    fun a? _ => ?_
  cases a? with
  | none => exact .ok hInlines
  | some a =>
      simp only
      rw [hInlines.results.hermitian.contains hSeen]
      split
      · exact .ok hInlines
      · exact Alike.bind_same rfl fun _ _ =>
          .ok (hInlines.noteHermitian name)

theorem requireTerm_substitute
    {term : LindbladTerm R}
    (hInlines : Inlines hidden σ v v')
    (hSeen : ¬ hidden term.operator)
    (experiment : String) :
    v'.requireTerm experiment
        { term with rate := term.rate.substitute σ } =
      v.requireTerm experiment term := by
  unfold requireTerm
  rw [hInlines.referencedMatrix hSeen, hInlines.environment.evaluateReal]

theorem forM_requireTerm_substitute
    {terms : List (LindbladTerm R)}
    (hInlines : Inlines hidden σ v v')
    (hSeen : ∀ term ∈ terms, ¬ hidden term.operator)
    (experiment : String) :
    (terms.map fun term =>
        { term with rate := term.rate.substitute σ }).forM
          (v'.requireTerm experiment) =
      terms.forM (v.requireTerm experiment) := by
  induction terms with
  | nil => rfl
  | cons term rest ih =>
      rcases List.forall_mem_cons.1 hSeen with ⟨hHead, hTail⟩
      change (_ >>= fun _ => List.forM _ _) =
        (_ >>= fun _ => List.forM _ _)
      rw [requireTerm_substitute hInlines hHead, ih hTail]

theorem alike_checkEvolution
    {tolerance : R}
    {x : Experiment R}
    (hInlines : Inlines hidden σ v v')
    (hObserved : ∀ name ∈ x.observed (fun _ => false), ¬ hidden name)
    (hOperators : ∀ name ∈ x.jumpOperators, ¬ hidden name) :
    Alike (Inlines hidden σ)
      (checkEvolution tolerance v x.name x.evolution)
      (checkEvolution tolerance v' x.name
        (x.evolution.map (Evolution.substitute σ))) := by
  cases hEvolution : x.evolution with
  | none => exact .ok hInlines
  | some evolution =>
      have hHamiltonian := hObserved evolution.hamiltonian
        (Experiment.hamiltonian_mem_observed hEvolution _)
      refine Alike.bind_same rfl fun _ _ => ?_
      refine (alike_checkObservable hInlines hHamiltonian _).bind
        fun next next' hNext => ?_
      refine Alike.bind_same (forM_requireTerm_substitute hNext ?_ x.name)
        fun _ _ => .ok hNext
      intro term hTerm
      exact hOperators term.operator
        (Experiment.operator_mem_jumpOperators hEvolution hTerm)

theorem alike_checkEvent
    {tolerance : R}
    {event : Event R}
    (hInlines : Inlines hidden σ v v')
    (hSeen : ¬ hidden event.measurement) :
    Alike (Inlines hidden σ) (checkEvent tolerance v event)
      (checkEvent tolerance v' event) := by
  unfold checkEvent
  rw [hInlines.measurements]
  split
  · exact .ok hInlines
  · exact alike_checkObservable hInlines hSeen _

theorem alike_checkExperiment
    {tolerance : R}
    {x : Experiment R}
    (hInlines : Inlines hidden σ v v')
    (hObserved : ∀ name ∈ x.observed (fun _ => false), ¬ hidden name)
    (hOperators : ∀ name ∈ x.jumpOperators, ¬ hidden name) :
    Alike (Inlines hidden σ) (checkExperiment tolerance v x)
      (checkExperiment tolerance v' (x.substitute σ)) := by
  refine (alike_checkInitialState hInlines x).bind
    fun first first' hFirst => ?_
  refine (alike_checkEvolution hFirst hObserved hOperators).bind
    fun second second' hSecond => ?_
  refine .foldlM hSecond fun event hEvent _ _ hNext => ?_
  exact alike_checkEvent hNext
    (hObserved _ (Experiment.event_mem_observed hEvent rfl))

------------------------------------------------------------
-- Statements
------------------------------------------------------------

/-
  A statement is checked as before if its name is not in
  what is replaced, and it refers to no hidden operator.
-/
theorem alike_check
    {tolerance : R}
    {statement : Statement R}
    (hInlines : Inlines hidden σ v v')
    (hSpares : ∀ name, statement.Assigns name → Expr.Spares σ name)
    (hSeen : ∀ name, statement.RefersTo name → ¬ hidden name) :
    Alike (Inlines hidden σ) (check tolerance v statement)
      (check tolerance v' (statement.substitute σ)) := by
  cases statement with
  | empty => exact .error _
  | const name e =>
      exact alike_checkQuantity hInlines (hSpares name ⟨rfl, .inl rfl⟩) e
  | symbol name =>
      exact .ok (hInlines.declareSymbolic (hSpares name ⟨rfl, .inr rfl⟩))
  | matrix name e =>
      exact alike_checkQuantity hInlines (hSpares name ⟨rfl, .inl rfl⟩) e
  | function name parameters body =>
      exact .ok (hInlines.declareSymbolic (hSpares name ⟨rfl, .inr rfl⟩))
  | hamiltonian name parameters e =>
      refine alike_checkHamiltonian hInlines (hSpares name ⟨rfl, ?_⟩)
        parameters e
      cases parameters with
      | nil => exact .inl rfl
      | cons parameter rest => exact .inr rfl
  | measurement name kind operators =>
      exact alike_checkMeasurement hInlines name kind operators
  | experiment x =>
      exact alike_checkExperiment hInlines
        (fun name hName => hSeen name ⟨x, rfl, .inl hName⟩)
        (fun name hName => hSeen name ⟨x, rfl, .inr hName⟩)

end Validator

end QuantumLab
