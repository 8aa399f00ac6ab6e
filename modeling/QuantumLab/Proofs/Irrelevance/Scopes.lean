import QuantumLab.Proofs.Irrelevance.Names

/-
  This file says that the check of shapes does not depend on
  a name that is not used: in two scopes that agree about all
  other names, what passes in the first passes in the second,
  and the scopes still agree.

  Key definitions include:
    * `Scope.AgreesOff`

  Main statements:
    * `Scope.infer_agreesOff` says that the shape of an
      expression does not depend on a name that does not
      occur in it.
    * `Scope.tracks_check` says what the check of a statement
      leads to in both scopes.
    * `Scope.agreesOff_of_check` says that a declaration only
      changes what its own name stands for.
-/

------------------------------------------------------------
-- Scopes that agree
------------------------------------------------------------

namespace QuantumLab

variable {R : Type}

namespace Scope

/- Two scopes agree about every name but one. -/
structure AgreesOff
    (name : String)
    (scope scope' : Scope) : Prop where
  shapes : Table.AgreesOff name scope.shapes scope'.shapes
  functions : Table.AgreesOff name scope.functions scope'.functions
  measurements :
    Table.AgreesOff name scope.measurements scope'.measurements
  shadowable : Table.AgreesOff name scope.shadowable scope'.shadowable
  parameters : scope'.parameters = scope.parameters

variable
  {name other : String}
  {scope scope' : Scope}

theorem AgreesOff.refl
    (name : String)
    (scope : Scope) :
    AgreesOff name scope scope :=
  ⟨.refl _, .refl _, .refl _, .refl _, rfl⟩

/- Scopes also agree inside of a definition. -/
theorem AgreesOff.inside
    (hAgrees : AgreesOff name scope scope')
    (parameters : List String) :
    AgreesOff name { scope with parameters }
      { scope' with parameters } :=
  ⟨hAgrees.shapes, hAgrees.functions, hAgrees.measurements,
    hAgrees.shadowable, rfl⟩

theorem AgreesOff.lookup
    (hAgrees : AgreesOff name scope scope')
    (hOther : other ≠ name) :
    (scope'.lookup other : Except (Fault R) Shape) =
      scope.lookup other := by
  rw [Scope.lookup, hAgrees.parameters, hAgrees.shapes other hOther,
    Scope.lookup]

/- Another name is declared in both scopes. -/
theorem AgreesOff.declare
    (hAgrees : AgreesOff name scope scope')
    (hOther : other ≠ name)
    (shape : Shape) :
    Tracks (AgreesOff name)
      (scope.declare other shape : Except (Fault R) Scope)
      (scope'.declare other shape) := by
  unfold Scope.declare
  rw [hAgrees.shadowable.contains hOther,
    hAgrees.functions.contains hOther, hAgrees.shapes.contains hOther]
  split
  · exact .of_ok
      { hAgrees with
        shapes := hAgrees.shapes.insert other shape
        shadowable := hAgrees.shadowable.erase other }
  · split
    · exact .of_error
    · exact .of_ok
        { hAgrees with shapes := hAgrees.shapes.insert other shape }

/- The name itself may be declared in one of them. -/
theorem AgreesOff.declare_right
    {shape : Shape}
    {next : Scope}
    (hAgrees : AgreesOff name scope scope')
    (hDeclare : (scope'.declare name shape : Except (Fault R) Scope) =
      .ok next) :
    AgreesOff name scope next := by
  unfold Scope.declare at hDeclare
  split at hDeclare
  · cases hDeclare
    exact
      { hAgrees with
        shapes := hAgrees.shapes.insert_right shape
        shadowable := hAgrees.shadowable.erase_right }
  · split at hDeclare
    · exact absurd hDeclare refuse_ne_ok
    · cases hDeclare
      exact { hAgrees with shapes := hAgrees.shapes.insert_right shape }

------------------------------------------------------------
-- Shapes of expressions
------------------------------------------------------------

theorem inferScalars_congr
    {elements : List (Expr R)}
    (subject : String)
    (hEach : ∀ element ∈ elements,
      scope'.infer element = scope.infer element) :
    scope'.inferScalars subject elements =
      scope.inferScalars subject elements := by
  induction elements with
  | nil => simp [inferScalars]
  | cons element rest ih =>
      rcases List.forall_mem_cons.1 hEach with ⟨hHead, hTail⟩
      simp only [inferScalars, hHead, ih hTail]

theorem inferRows_congr
    {rows : List (List (Expr R))}
    (columns k : Nat)
    (hEach : ∀ row ∈ rows, ∀ element ∈ row,
      scope'.infer element = scope.infer element) :
    scope'.inferRows columns k rows = scope.inferRows columns k rows := by
  induction rows generalizing k with
  | nil => simp [inferRows]
  | cons row rest ih =>
      rcases List.forall_mem_cons.1 hEach with ⟨hHead, hTail⟩
      simp only [inferRows, inferScalars_congr _ hHead, ih (k + 1) hTail]

theorem inferAll_congr
    {arguments : List (Expr R)}
    (hEach : ∀ argument ∈ arguments,
      scope'.infer argument = scope.infer argument) :
    scope'.inferAll arguments = scope.inferAll arguments := by
  induction arguments with
  | nil => simp [inferAll]
  | cons argument rest ih =>
      rcases List.forall_mem_cons.1 hEach with ⟨hHead, hTail⟩
      simp only [inferAll, hHead, ih hTail]

/- A name that does not occur in an expression does not matter to it. -/
theorem infer_agreesOff
    {e : Expr R}
    (hAgrees : AgreesOff name scope scope')
    (hAvoids : e.Avoids name) :
    scope'.infer e = scope.infer e := by
  induction e using Expr.induction with
  | missing => simp [infer]
  | number z => simp [infer]
  | identifier other =>
      have hOther : other ≠ name := by
        rintro rfl
        exact hAvoids.mentions .self
      simp only [infer, hAgrees.lookup hOther]
  | matrix rows ih =>
      have hRows := inferRows_congr (Expr.columns rows) 0
        fun row hRow element hElement =>
          ih row hRow element hElement
            (hAvoids.part fun _ => .entry hRow hElement)
      simp only [infer, hRows]
  | vector elements ih =>
      have hElements := inferScalars_congr "element of vector literal"
        fun element hElement =>
          ih element hElement
            (hAvoids.part fun _ => .component hElement)
      simp only [infer, hElements]
  | binary op lhs rhs ihLhs ihRhs =>
      have hLhs := ihLhs (hAvoids.part fun _ => .lhs)
      have hRhs := ihRhs (hAvoids.part fun _ => .rhs)
      simp only [infer, hLhs, hRhs]
  | unary op operand ih =>
      have hOperand := ih (hAvoids.part fun _ => .operand)
      simp only [infer, hOperand]
  | call function arguments ih =>
      have hFunction : function ≠ name := by
        rintro rfl
        exact hAvoids.calls arguments .self
      have hArguments := inferAll_congr fun argument hArgument =>
        ih argument hArgument
          (hAvoids.part fun _ => .argument hArgument)
      simp only [infer, hArguments,
        hAgrees.functions.contains hFunction]

end Scope

end QuantumLab

------------------------------------------------------------
-- Parts of statements
------------------------------------------------------------

namespace QuantumLab

variable {R : Type}

namespace Scope

variable
  {name : String}
  {scope scope' : Scope}

theorem hamiltonianShape_agreesOff
    {e : Expr R}
    (hAgrees : AgreesOff name scope scope')
    (hAvoids : e.Avoids name)
    (hamiltonian : String)
    (parameters : List String) :
    scope'.hamiltonianShape hamiltonian parameters e =
      scope.hamiltonianShape hamiltonian parameters e := by
  rw [hamiltonianShape,
    infer_agreesOff (hAgrees.inside parameters) hAvoids,
    hamiltonianShape]

theorem measurementShape_agreesOff
    {operators : List (Expr R)}
    (hAgrees : AgreesOff name scope scope')
    (hAvoids : ∀ e ∈ operators, e.Avoids name)
    (measurement : String)
    (k : Nat)
    (shared : Option Shape) :
    scope'.measurementShape measurement k shared operators =
      scope.measurementShape measurement k shared operators := by
  induction operators generalizing k shared with
  | nil => rfl
  | cons operator rest ih =>
      rcases List.forall_mem_cons.1 hAvoids with ⟨hHead, hTail⟩
      simp only [measurementShape, infer_agreesOff hAgrees hHead,
        ih hTail]

theorem requireOperator_agreesOff
    {operator : String}
    (hAgrees : AgreesOff name scope scope')
    (hOther : operator ≠ name)
    (experiment : String)
    (dimension : Option Nat)
    (usage : String) :
    (scope'.requireOperator experiment dimension usage operator :
        Except (Fault R) Unit) =
      scope.requireOperator experiment dimension usage operator := by
  rw [requireOperator, hAgrees.lookup hOther, requireOperator]

theorem requireTerm_agreesOff
    {term : LindbladTerm R}
    (hAgrees : AgreesOff name scope scope')
    (hOperator : term.operator ≠ name)
    (hRate : term.rate.Avoids name)
    (experiment : String)
    (dimension : Option Nat) :
    scope'.requireTerm experiment dimension term =
      scope.requireTerm experiment dimension term := by
  rw [requireTerm, requireOperator_agreesOff hAgrees hOperator,
    infer_agreesOff hAgrees hRate, requireTerm]

theorem requireEvolution_agreesOff
    {evolution : Evolution R}
    (hAgrees : AgreesOff name scope scope')
    (hAvoids : evolution.Avoids name)
    (experiment : String)
    (dimension : Option Nat) :
    scope'.requireEvolution experiment dimension evolution =
      scope.requireEvolution experiment dimension evolution := by
  have hTerms :
      evolution.terms.forM (scope'.requireTerm experiment dimension) =
        evolution.terms.forM (scope.requireTerm experiment dimension) :=
    forM_congr fun term hMember =>
      requireTerm_agreesOff hAgrees (hAvoids.operators term hMember)
        (hAvoids.rates term hMember) experiment dimension
  rw [requireEvolution,
    requireOperator_agreesOff hAgrees hAvoids.hamiltonian, hTerms,
    requireEvolution]

theorem requireEvent_agreesOff
    {event : Event R}
    (hAgrees : AgreesOff name scope scope')
    (hOther : event.measurement ≠ name)
    (experiment : String)
    (dimension : Option Nat) :
    scope'.requireEvent experiment dimension event =
      scope.requireEvent experiment dimension event := by
  rw [requireEvent, hAgrees.measurements.contains hOther,
    requireOperator_agreesOff hAgrees hOther, requireEvent]

/- The initial state of an experiment is declared in both scopes. -/
theorem tracks_declareState
    {experiment : String}
    {state : Option (InitialState R)}
    (hAgrees : AgreesOff name scope scope')
    (hOther : initialStateName experiment ≠ name)
    (hAvoids : ∀ s, state = some s → s.value.Avoids name) :
    Tracks (fun next next' => AgreesOff name next.1 next'.1 ∧
        next'.2 = next.2)
      (scope.declareState experiment state)
      (scope'.declareState experiment state) := by
  cases state with
  | none => exact .of_ok ⟨hAgrees, rfl⟩
  | some state =>
      refine Tracks.bind_same
        (infer_agreesOff hAgrees (hAvoids state rfl)) fun shape _ => ?_
      refine Tracks.bind_same rfl fun _ _ => ?_
      refine (hAgrees.declare hOther shape).bind fun next next' hNext => ?_
      exact .of_ok ⟨hNext, rfl⟩

theorem tracks_checkExperiment
    {x : Experiment R}
    (hAgrees : AgreesOff name scope scope')
    (hOther : initialStateName x.name ≠ name)
    (hAvoids : x.Avoids name) :
    Tracks (AgreesOff name) (scope.checkExperiment x)
      (scope'.checkExperiment x) := by
  refine (tracks_declareState hAgrees hOther hAvoids.state).bind ?_
  rintro ⟨next, dimension⟩ ⟨next', dimension'⟩ ⟨hNext, hSame⟩
  cases hSame
  have hSchedule :
      x.schedule.forM (next'.requireEvent x.name dimension) =
        x.schedule.forM (next.requireEvent x.name dimension) :=
    forM_congr fun event hMember =>
      requireEvent_agreesOff hNext (hAvoids.schedule event hMember)
        x.name dimension
  have hDone : Tracks (AgreesOff name)
      (do
        x.schedule.forM (next.requireEvent x.name dimension)
        return next)
      (do
        x.schedule.forM (next'.requireEvent x.name dimension)
        return next') :=
    Tracks.bind_same hSchedule fun _ _ => .of_ok hNext
  cases hEvolution : x.evolution with
  | none => exact hDone
  | some evolution =>
      exact Tracks.bind_same
        (requireEvolution_agreesOff hNext
          (hAvoids.evolution evolution hEvolution) x.name dimension)
        fun _ _ => hDone

theorem tracks_checkFunction
    {function : String}
    {body : Expr R}
    (hAgrees : AgreesOff name scope scope')
    (hOther : function ≠ name)
    (hAvoids : body.Avoids name)
    (parameters : List String) :
    Tracks (AgreesOff name)
      (scope.checkFunction function parameters body)
      (scope'.checkFunction function parameters body) := by
  have hInside : AgreesOff name
      { scope with functions := scope.functions.add function }
      { scope' with functions := scope'.functions.add function } :=
    { hAgrees with functions := hAgrees.functions.insert function () }
  unfold checkFunction
  rw [hAgrees.functions.contains hOther,
    hAgrees.shapes.contains hOther,
    hAgrees.shadowable.contains hOther]
  split
  · exact .of_error
  · exact Tracks.bind_same
      (infer_agreesOff (hInside.inside parameters) hAvoids)
      fun _ _ => .of_ok hInside

end Scope

end QuantumLab

------------------------------------------------------------
-- Statements
------------------------------------------------------------

namespace QuantumLab

variable {R : Type}

namespace Scope

variable
  {name : String}
  {scope scope' : Scope}
  {d : Statement R}

/- A statement that ignores a name is checked in both scopes. -/
theorem tracks_check
    (hAgrees : AgreesOff name scope scope')
    (hDeclared : d.declared ≠ name)
    (hAvoids : d.Avoids name) :
    Tracks (AgreesOff name) (scope.check d) (scope'.check d) := by
  cases d with
  | empty => exact .of_error
  | const other e =>
      refine Tracks.bind_same (infer_agreesOff hAgrees hAvoids)
        fun shape _ => ?_
      split
      · exact hAgrees.declare hDeclared shape
      · exact .of_error
  | symbol other => exact hAgrees.declare hDeclared .scalar
  | matrix other e =>
      exact Tracks.bind_same (infer_agreesOff hAgrees hAvoids)
        fun shape _ => hAgrees.declare hDeclared shape
  | function other parameters body =>
      exact tracks_checkFunction hAgrees hDeclared hAvoids parameters
  | hamiltonian other parameters e =>
      exact Tracks.bind_same
        (hamiltonianShape_agreesOff hAgrees hAvoids other parameters)
        fun shape _ => hAgrees.declare hDeclared shape
  | measurement other kind operators =>
      refine Tracks.bind_same
        (measurementShape_agreesOff hAgrees hAvoids other 0 none)
        fun shape _ => ?_
      have hNoted : AgreesOff name
          { scope with measurements := scope.measurements.add other }
          { scope' with measurements := scope'.measurements.add other } :=
        { hAgrees with
          measurements := hAgrees.measurements.insert other () }
      exact hNoted.declare hDeclared shape
  | experiment x =>
      exact tracks_checkExperiment hAgrees hDeclared hAvoids

/- A declaration only changes what its name stands for. -/
theorem agreesOff_of_check
    {next : Scope}
    (hOther : d.experiment? = none)
    (hCheck : scope.check d = .ok next) :
    AgreesOff d.name scope next := by
  have hSame := AgreesOff.refl d.name scope
  cases d with
  | empty => exact absurd hCheck refuse_ne_ok
  | const name e =>
      rcases bind_eq_ok_iff.1 hCheck with ⟨shape, _, hRest⟩
      split at hRest
      · exact hSame.declare_right hRest
      · exact absurd hRest refuse_ne_ok
  | symbol name => exact hSame.declare_right hCheck
  | matrix name e =>
      rcases bind_eq_ok_iff.1 hCheck with ⟨shape, _, hDeclare⟩
      exact hSame.declare_right hDeclare
  | function name parameters body =>
      change scope.checkFunction name parameters body = .ok next at hCheck
      unfold checkFunction at hCheck
      split at hCheck
      · exact absurd hCheck refuse_ne_ok
      · rcases bind_eq_ok_iff.1 hCheck with ⟨shape, _, hDone⟩
        cases pure_eq_ok_iff.1 hDone
        exact
          { hSame with functions := hSame.functions.insert_right () }
  | hamiltonian name parameters e =>
      rcases bind_eq_ok_iff.1 hCheck with ⟨shape, _, hDeclare⟩
      exact hSame.declare_right hDeclare
  | measurement name kind operators =>
      rcases bind_eq_ok_iff.1 hCheck with ⟨shape, _, hDeclare⟩
      have hNoted : AgreesOff name scope
          { scope with measurements := scope.measurements.add name } :=
        { hSame with
          measurements := hSame.measurements.insert_right () }
      exact hNoted.declare_right hDeclare
  | experiment x => cases hOther

end Scope

end QuantumLab
