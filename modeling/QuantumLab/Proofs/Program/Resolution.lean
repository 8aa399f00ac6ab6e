import QuantumLab.Proofs.Program.Soundness

/-
  This file says that the stages of a run resolve the names
  of operators alike: the shape that is found for a name is
  that of the matrix that is validated and of the node that
  is planned.  The stages part ways over names that are taken
  from predefined operators by measurements, and over what is
  defined by such names.

  Key definitions include:
    * `Program.Overlaid`
    * `Scope.AgreesOn`, `Scope.Retains`
    * `Lowering.Resolves`
    * `Program.ResolvesOperator`
    * `Program.ResolvesMeasurement`

  Main statements:
    * `Scope.AgreesOn.after` and `Scope.Retains.after` say
      what a statement leaves of the shapes of names.
    * `Program.resolvesMeasurement_of_walks` says where the
      measurements of a lowering come from.
    * `Program.plan_resolves` says how the stages resolve the
      names in an experiment.
-/

------------------------------------------------------------
-- Overlaid names
------------------------------------------------------------

namespace QuantumLab

variable {R : Type}

/-
  The names that are overlaid after a statement.  A
  measurement takes the name of a predefined operator, or a
  name is defined by one that is overlaid.
-/
inductive Statement.Overlays
    (d : Statement R)
    (overlaid : String → Prop) : String → Prop where
  | measured
      {name : String}
      (hPredefined : name ∈ Predefined.names)
      (hMeasures : d.measures name = true) :
      Overlays d overlaid name
  | defined
      {e : Expr R}
      {other : String}
      (hDefinition : d.definition? = some e)
      (hMentions : e.Mentions other)
      (hOther : overlaid other) :
      Overlays d overlaid d.name
  | kept
      {name : String}
      (hBefore : overlaid name) :
      Overlays d overlaid name

namespace Program

/- The names that are overlaid after a program. -/
def Overlaid (program : Program R) : String → Prop :=
  program.foldl (fun overlaid d => d.Overlays overlaid)
    fun _ => False

theorem overlaid_append
    (pre : Program R)
    (d : Statement R) :
    Overlaid (pre ++ [d]) = d.Overlays pre.Overlaid := by
  simp [Overlaid]

/- No name is overlaid unless a measurement takes a predefined one. -/
theorem exists_measures_of_overlaid
    {program : Program R}
    {name : String}
    (hOverlaid : program.Overlaid name) :
    ∃ other ∈ Predefined.names, program.measures other = true := by
  induction program using List.reverseRecOn generalizing name with
  | nil => exact absurd hOverlaid id
  | append_singleton pre d ih =>
      have hBefore : ∀ {other : String}, Overlaid pre other →
          ∃ other ∈ Predefined.names,
            Program.measures (pre ++ [d]) other = true := by
        intro other hOther
        rcases ih hOther with ⟨measured, hMember, hMeasures⟩
        refine ⟨measured, hMember, ?_⟩
        rw [measures_append, hMeasures, Bool.or_true]
      rw [overlaid_append] at hOverlaid
      cases hOverlaid with
      | measured hPredefined hMeasures =>
          refine ⟨name, hPredefined, ?_⟩
          rw [measures_append, hMeasures, Bool.true_or]
      | defined _ _ hOther => exact hBefore hOther
      | kept hKept => exact hBefore hKept

end Program

end QuantumLab

------------------------------------------------------------
-- Shapes of names that are not overlaid
------------------------------------------------------------

namespace QuantumLab

variable {R : Type} [Arithmetic R]

namespace Scope

/-
  Names with a value have a shape, and the clear ones among
  them have the shape of the value.  No parameters hide them,
  and only predefined names can be declared over.
-/
structure AgreesOn
    (scope : Scope)
    (names : Environment R)
    (clear : String → Prop) : Prop where
  top : scope.parameters = []
  shadowable : ∀ name, scope.shadowable.contains name = true →
    name ∈ Predefined.names
  known : ∀ name v, names.lookup name = some v →
    scope.shapes.contains name = true
  shapes : ∀ name v, clear name → names.lookup name = some v →
    scope.shapes.find? name = some v.shape

/-
  Names of measurements are settled.  Neither they nor the
  names that can still be declared over have a value, except
  for that of a predefined operator.
-/
structure Retains
    (scope : Scope)
    (names : Environment R)
    (measured : String → Bool) : Prop where
  settled : ∀ name, measured name = true → scope.Settled name
  predefined : ∀ name v,
    scope.shadowable.contains name = true ∨ measured name = true →
      names.lookup name = some v →
        (Environment.initial : Environment R).lookup name = some v

theorem agreesOn_initial
    (clear : String → Prop) :
    Scope.initial.AgreesOn (Environment.initial : Environment R)
      clear where
  top := rfl
  shadowable _ hShadowable := predefined_of_shadowable hShadowable
  known name v hName := by
    rw [Table.contains, shape_initial hName]
    rfl
  shapes _ _ _ hName := shape_initial hName

theorem retains_initial :
    Scope.initial.Retains (Environment.initial : Environment R)
      fun _ => false where
  settled _ hMeasured := nomatch hMeasured
  predefined _ _ _ hName := hName

variable
  {scope next : Scope}
  {names : Environment R}
  {clear clear' : String → Prop}
  {d : Statement R}

/-
  After a statement the clear names have the shapes of their
  values, if they were clear before, no measurement takes
  them from predefined operators, and what defines them only
  mentions clear names.
-/
theorem AgreesOn.after
    (hAgrees : scope.AgreesOn names clear)
    (hChecks : scope.Checks d next)
    (hKept : ∀ name, clear' name → clear name)
    (hMeasures : ∀ name, clear' name → name ∈ Predefined.names →
      d.measures name = false)
    (hDefined : ∀ e, d.definition? = some e → clear' d.name →
      names.TensorsFit e ∧ ∀ other, e.Mentions other → clear other) :
    next.AgreesOn (names.after d) clear' where
  top := by
    rw [hChecks.parameters, hAgrees.top]
  shadowable name hShadowable :=
    hAgrees.shadowable name (hChecks.shadowable hShadowable)
  known name v hName := by
    rcases Environment.lookup_after hName with
      ⟨rfl, e, hDefinition, _⟩ | ⟨hBefore, _⟩
    · rcases hChecks.declares hDefinition with ⟨shape, _, hDeclares⟩
      exact hDeclares.settles.declared
    · exact hChecks.declared (hAgrees.known name v hBefore)
  shapes name v hClear hName := by
    rcases Environment.lookup_after hName with
      ⟨rfl, e, hDefinition, hValue⟩ | ⟨hBefore, hOther⟩
    · rcases hChecks.declares hDefinition with
        ⟨shape, hInfer, hDeclares⟩
      rcases hDefined e hDefinition hClear with ⟨hFits, hMentioned⟩
      have hShape : v.shape = shape :=
        shape_of_infer hAgrees.top
          (fun other w hMentions =>
            hAgrees.shapes other w (hMentioned other hMentions))
          hInfer hValue hFits
      rw [hDeclares.shapes, if_pos rfl, hShape]
    · rw [hChecks.find?_of_kept hAgrees.shadowable
        (hAgrees.known name v hBefore) (hMeasures name hClear) hOther]
      exact hAgrees.shapes name v (hKept name hClear) hBefore

/- An experiment gives no name another shape. -/
theorem AgreesOn.experiment
    {x : Experiment R}
    (hAgrees : scope.AgreesOn names clear)
    (hCheck : scope.checkExperiment x = .ok next) :
    next.AgreesOn names clear :=
  hAgrees.after (.experiment hCheck) (fun _ => id)
    (fun _ _ _ => rfl) nofun

omit [Arithmetic R] in
/- A measurement settles its name, which was not settled before. -/
theorem Checks.settles_of_measures
    {name : String}
    (hChecks : scope.Checks d next)
    (hMeasures : d.measures name = true) :
    next.Settled name ∧
      (scope.shadowable.contains name = true ∨
        scope.shapes.contains name = false) := by
  cases hChecks with
  | @measurement declared kind operators _ _ _ hDeclares =>
      have hSame : declared = name := by
        simpa [Statement.measures] using hMeasures
      rw [← hSame]
      exact ⟨hDeclares.settles, hDeclares.fresh⟩
  | quantity hDefinition _ _ =>
      rw [Statement.measures_of_definition hDefinition] at hMeasures
      cases hMeasures
  | symbol hSymbol _ =>
      rw [Statement.measures_of_declaresSymbol hSymbol] at hMeasures
      cases hMeasures
  | function => cases hMeasures
  | experiment _ => cases hMeasures

/- After a statement names of measurements are retained. -/
theorem Retains.after
    {measured : String → Bool}
    (hRetains : scope.Retains names measured)
    (hKnown : ∀ name v, names.lookup name = some v →
      scope.shapes.contains name = true)
    (hChecks : scope.Checks d next) :
    next.Retains (names.after d)
      fun name => d.measures name || measured name where
  settled name hMeasured := by
    rcases Bool.or_eq_true_iff.1 hMeasured with hNew | hOld
    · exact (hChecks.settles_of_measures hNew).1
    · exact hChecks.settled (hRetains.settled name hOld)
  predefined name v hTaken hName := by
    rcases Environment.lookup_after hName with
      ⟨rfl, e, hDefinition, _⟩ | ⟨hBefore, _⟩
    · -- A name that is defined is neither open nor measured.
      rcases hChecks.declares hDefinition with ⟨shape, _, hDeclares⟩
      rw [Statement.measures_of_definition hDefinition,
        Bool.false_or, hDeclares.settles.closed] at hTaken
      rcases hTaken with hOpen | hMeasured
      · cases hOpen
      · exact absurd (hRetains.settled _ hMeasured)
          hDeclares.not_settled
    · refine hRetains.predefined name v ?_ hBefore
      rcases hTaken with hOpen | hMeasured
      · exact .inl (hChecks.shadowable hOpen)
      · rcases Bool.or_eq_true_iff.1 hMeasured with hNew | hOld
        · rcases (hChecks.settles_of_measures hNew).2 with
            hOpen | hUnknown
          · exact .inl hOpen
          · rw [hKnown name v hBefore] at hUnknown
            cases hUnknown
        · exact .inr hOld

end Scope

namespace Program

/- The shapes of names after the statements of a program. -/
theorem agreesOn_of_walk
    {pre : Program R}
    {scope : Scope}
    (hWalk : pre.walk Scope.check .initial = .ok scope) :
    scope.AgreesOn pre.environment
        (fun name => pre.TensorsFit .initial ∧ ¬ pre.Overlaid name) ∧
      scope.Retains pre.environment pre.measures := by
  refine walk_induction
    (I := fun pre scope =>
      scope.AgreesOn (Program.environment pre)
          (fun name => Program.TensorsFit .initial pre ∧
            ¬ Overlaid pre name) ∧
        scope.Retains (Program.environment pre) (Program.measures pre))
    ⟨Scope.agreesOn_initial _, Scope.retains_initial⟩ ?_ hWalk
  rintro pre scope d next ⟨hAgrees, hRetains⟩ hCheck
  have hChecks := Scope.checks_of_check hAgrees.top hCheck
  have hMeasured : Program.measures (pre ++ [d]) =
      fun name => d.measures name || Program.measures pre name :=
    funext (measures_append pre d)
  rw [environment_append, overlaid_append, hMeasured]
  refine ⟨hAgrees.after hChecks ?_ ?_ ?_,
    hRetains.after hAgrees.known hChecks⟩
  · rintro name ⟨hFits, hClear⟩
    exact ⟨(tensorsFit_append.1 hFits).1, fun h => hClear (.kept h)⟩
  · rintro name ⟨_, hClear⟩ hPredefined
    rw [← Bool.not_eq_true]
    exact fun h => hClear (.measured hPredefined h)
  · rintro e hDefinition ⟨hFits, hClear⟩
    rcases tensorsFit_append.1 hFits with ⟨hBefore, hLast⟩
    refine ⟨?_, fun other hMentions => ⟨hBefore, fun h => ?_⟩⟩
    · exact hLast e (Statement.mem_evaluated_of_definition hDefinition)
    · exact hClear (.defined hDefinition hMentions h)

end Program

end QuantumLab

------------------------------------------------------------
-- Operators of measurements
------------------------------------------------------------

namespace QuantumLab

variable {R : Type} [Arithmetic R]

namespace Lowering

/-
  A node goes with the matrix of an operator: it computes
  nothing of another shape.  The shape is the one recorded
  for the node, if the records are exact, and the one found
  for the name of the operator, if that is clear in addition.
-/
structure Resolves
    (s : Lowering R)
    (scope : Scope)
    (name : String)
    (exact clear : Prop)
    (a : Mat R)
    (id : NodeId) : Prop where
  inside : id < s.plan.size
  computed : ∀ w, s.plan.EvaluatesTo id w → w.shape = a.shape
  recorded : exact → s.shapeOf id = a.shape
  checked : exact → clear → scope.shapes.find? name = some a.shape

variable
  {s next : Lowering R}
  {scope scope' : Scope}
  {name : String}
  {exact exact' clear : Prop}
  {a : Mat R}
  {id : NodeId}

theorem Yields.resolves
    {value? : Option (Value R)}
    (hYields : s.Yields exact id (Value.matrix a).shape value?)
    (hChecked : exact → clear →
      scope.shapes.find? name = some a.shape) :
    s.Resolves scope name exact clear a id where
  inside := hYields.inside
  computed w hComputes := by
    rw [Plan.evaluatesTo_iff_value?, hYields.value] at hComputes
    exact hYields.fits w hComputes
  recorded := hYields.recorded.same
  checked := hChecked

/- Later nodes and the shapes of other names do not matter. -/
theorem Resolves.later
    (hResolves : s.Resolves scope name exact clear a id)
    (hAligned : s.Aligned)
    (hGrows : s.Grows next)
    (hShape : scope'.shapes.find? name = scope.shapes.find? name) :
    next.Resolves scope' name exact clear a id where
  inside := Nat.lt_of_lt_of_le hResolves.inside hGrows.size_le
  computed w hComputes := by
    apply hResolves.computed w
    rw [Plan.evaluatesTo_iff_value?, Plan.value?] at hComputes ⊢
    rw [← hGrows.denote_eq hResolves.inside]
    exact hComputes
  recorded h := by
    have hInside : id < s.shapes.size := hAligned ▸ hResolves.inside
    rw [hGrows.shapeOf_eq hInside]
    exact hResolves.recorded h
  checked h hClear := by
    rw [hShape]
    exact hResolves.checked h hClear

theorem Resolves.imp
    (hResolves : s.Resolves scope name exact clear a id)
    (hExact : exact' → exact) :
    s.Resolves scope name exact' clear a id where
  inside := hResolves.inside
  computed := hResolves.computed
  recorded h := hResolves.recorded (hExact h)
  checked h := hResolves.checked (hExact h)

end Lowering

namespace Program

/-
  The nodes of a measurement go with the operators of its
  definition, as they are validated where it stands.  The
  name has the shape of an operator that mentions no name
  overlaid at that place.
-/
def ResolvesMeasurement
    (tolerance : R)
    (program : Program R)
    (scope : Scope)
    (s : Lowering R)
    (name : String)
    (kind : OutcomeKind)
    (ids : List NodeId) : Prop :=
  ∃ (before : Program R) (definition : MeasurementKind)
      (operators : List (Expr R)) (after : Program R)
      (v : Validator R),
    program = before ++ .measurement name definition operators :: after ∧
    kind = .ofDefinition definition ∧
    before.walk (Validator.check tolerance) .initial = .ok v ∧
    List.Forall₂
      (fun operator id => ∃ a,
        v.environment.evaluate operator = .ok (.matrix a) ∧
        s.Resolves scope name (program.TensorsFit .initial)
          (∀ other, operator.Mentions other → ¬ before.Overlaid other)
          a id)
      operators ids

section Measurements

variable
  {tolerance : R}
  {pre : Program R}
  {d : Statement R}
  {scope scope' : Scope}
  {s next : Lowering R}

variable
  {name : String}
  {kind : OutcomeKind}
  {ids : List NodeId}

/- A measurement stays resolved when other names are declared. -/
theorem ResolvesMeasurement.later
    (hResolves :
      pre.ResolvesMeasurement tolerance scope s name kind ids)
    (hAligned : s.Aligned)
    (hGrows : s.Grows next)
    (hShape : scope'.shapes.find? name = scope.shapes.find? name) :
    pre.ResolvesMeasurement tolerance scope' next name kind ids := by
  rcases hResolves with ⟨before, definition, operators, after, v,
    hSite, hKind, hValidated, hOperators⟩
  refine ⟨before, definition, operators, after, v, hSite, hKind,
    hValidated, hOperators.imp ?_⟩
  rintro operator id ⟨a, hValue, hNode⟩
  exact ⟨a, hValue, hNode.later hAligned hGrows hShape⟩

theorem ResolvesMeasurement.append
    (hResolves :
      pre.ResolvesMeasurement tolerance scope s name kind ids)
    (d : Statement R) :
    ResolvesMeasurement tolerance (pre ++ [d]) scope s name kind
      ids := by
  rcases hResolves with ⟨before, definition, operators, after, v,
    hSite, hKind, hValidated, hOperators⟩
  refine ⟨before, definition, operators, after ++ [d], v, ?_, hKind,
    hValidated, hOperators.imp ?_⟩
  · rw [hSite, List.append_assoc, List.cons_append]
  · rintro operator id ⟨a, hValue, hNode⟩
    exact ⟨a, hValue,
      hNode.imp fun h => (tensorsFit_append.1 h).1⟩

/- A measurement that is defined is resolved. -/
theorem resolvesMeasurement_new
    {v : Validator R}
    {definition : MeasurementKind}
    {operators : List (Expr R)}
    {shape : Shape}
    {matrices : List (Mat R)}
    (hValidated :
      pre.walk (Validator.check tolerance) .initial = .ok v)
    (hMatrices :
      Validator.operatorMatrices v.environment name 0 operators =
        .ok matrices)
    (hAgrees : scope.AgreesOn pre.environment
      fun name => pre.TensorsFit .initial ∧ ¬ pre.Overlaid name)
    (hShape : scope.measurementShape name 0 none operators = .ok shape)
    (hFound : scope'.shapes.find? name = some shape)
    (hOperators : List.Forall₂
      (fun operator id => ∃ value,
        pre.environment.evaluate operator = .ok value ∧
          next.Yields
            (TensorsFit .initial
              (pre ++ [.measurement name definition operators]))
            id value.shape (some value))
      operators ids) :
    ResolvesMeasurement tolerance
      (pre ++ [.measurement name definition operators]) scope' next name
      (.ofDefinition definition) ids := by
  have hNames := environment_of_validation hValidated
  have hMatrix := exists_of_forall₂_left
    (Validator.evaluates_of_operatorMatrices hMatrices)
  rcases Scope.infer_of_measurementShape hShape with ⟨_, _, hInfer⟩
  have hBoth := (List.forall₂_and_left _ _).2
    ⟨fun operator hMember => And.intro hMember
      (hMatrix operator hMember), hOperators⟩
  refine ⟨pre, definition, operators, [], v, rfl, rfl, hValidated,
    hBoth.imp ?_⟩
  rintro operator id
    ⟨⟨hMember, a, _, hValue⟩, value, hSameValue, hYields⟩
  rw [← hNames, hValue] at hSameValue
  cases Except.ok.inj hSameValue
  refine ⟨a, hValue, hYields.resolves fun hFits hClear => ?_⟩
  rcases tensorsFit_append.1 hFits with ⟨hBefore, hLast⟩
  rw [hNames] at hValue
  have hSame : (Value.matrix a).shape = shape :=
    Scope.shape_of_infer hAgrees.top
      (fun other w hMentions =>
        hAgrees.shapes other w ⟨hBefore, hClear other hMentions⟩)
      (hInfer operator hMember).1 hValue (hLast operator hMember)
  rw [hFound, ← hSame]
  rfl

/- The measurements of a lowering are those of the program. -/
theorem resolvesMeasurement_of_walks
    {v : Validator R}
    (hChecked : pre.walk Scope.check .initial = .ok scope)
    (hValidated :
      pre.walk (Validator.check tolerance) .initial = .ok v)
    (hLowered : pre.walk Lowering.addStatement .initial = .ok s) :
    ∀ name kind ids, s.measurements.find? name = some (kind, ids) →
      pre.ResolvesMeasurement tolerance scope s name kind ids := by
  induction pre using List.reverseRecOn generalizing scope v s with
  | nil =>
      intro name kind ids hFound
      rw [← Except.ok.inj hLowered, Lowering.initial,
        Table.find?_empty] at hFound
      cases hFound
  | append_singleton pre d ih =>
      rcases walk_append.1 hChecked with ⟨scope', hScope, hCheck⟩
      rcases walk_append.1 hValidated with ⟨v', hPre, hValid⟩
      rcases walk_append.1 hLowered with ⟨s', hBefore, hAdd⟩
      rw [walk_single] at hCheck hValid hAdd
      rcases agreesOn_of_walk hScope with ⟨hAgrees, hRetains⟩
      have hChecks := Scope.checks_of_check hAgrees.top hCheck
      have hFollows : s'.Follows (TensorsFit .initial (pre ++ [d]))
          (Program.meaning pre) :=
        (Lowering.follows_of_walk Lowering.follows_initial
          (fun h => (tensorsFit_append.1 h).1) hBefore).2
      have hAdvances := Lowering.advances_addStatement hFollows
        (fun h => by
          rw [names_meaning]
          exact (tensorsFit_append.1 h).2) hAdd
      have hOld : ∀ name kind ids,
          s'.measurements.find? name = some (kind, ids) →
            ResolvesMeasurement tolerance (pre ++ [d]) scope s name
              kind ids := by
        intro name kind ids hFound
        have hMeasured : Program.measures pre name = true := by
          rw [← measures_of_lowering hBefore, Table.contains, hFound]
          rfl
        have hLater :=
          (ih hScope hPre hBefore name kind ids hFound).later
            hFollows.binds.aligned hAdvances.grows
            (hChecks.find?_of_settled (hRetains.settled name hMeasured))
        exact hLater.append d
      cases d with
      | measurement declared kind operators =>
          rcases Lowering.measurements_addMeasurement hFollows hAdd with
            ⟨_, _, _, ids, hTable, hOperators⟩
          rw [names_meaning] at hOperators
          rcases bind_eq_ok_iff.1 hCheck with ⟨shape, hShape, hDeclare⟩
          rcases bind_eq_ok_iff.1 hValid with ⟨matrices, hMatrices, _⟩
          have hFoundShape :=
            (Scope.declares_of_declare hDeclare).shapes declared
          rw [if_pos rfl] at hFoundShape
          have hNew := resolvesMeasurement_new hPre hMatrices hAgrees
            hShape hFoundShape hOperators
          intro name kind' ids' hFound
          rw [hTable, Table.find?_insert] at hFound
          by_cases hName : declared = name
          · rw [if_pos hName] at hFound
            cases Option.some.inj hFound
            rw [← hName]
            exact hNew
          · rw [if_neg hName] at hFound
            exact hOld name kind' ids' hFound
      | _ =>
          intro name kind ids hFound
          rw [hAdvances.measurements fun _ => rfl] at hFound
          exact hOld name kind ids hFound

end Measurements

end Program

end QuantumLab

------------------------------------------------------------
-- Operators of experiments
------------------------------------------------------------

namespace QuantumLab

variable {R : Type} [Arithmetic R]

namespace Program

/-
  A node goes with the operator of a name, as it is validated
  after a program.  The name has the shape of the operator
  unless it is overlaid, and if a measurement has taken the
  name, the operator is still the predefined one.
-/
def ResolvesOperator
    (program : Program R)
    (scope : Scope)
    (v : Validator R)
    (s : Lowering R)
    (name : String)
    (id : NodeId) : Prop :=
  ∃ a, v.environment.lookup name = some (.matrix a) ∧
    s.Resolves scope name (program.TensorsFit .initial)
      (¬ program.Overlaid name) a id ∧
    (program.measures name = true → Predefined.find? name = some a)

/- The node of a validated name is resolved. -/
theorem resolvesOperator_of_refers
    {tolerance : R}
    {pre : Program R}
    {scope scope' : Scope}
    {v : Validator R}
    {s : Lowering R}
    {name : String}
    {id : NodeId}
    (hValidated :
      pre.walk (Validator.check tolerance) .initial = .ok v)
    (hAgrees : scope'.AgreesOn pre.environment
      fun name => pre.TensorsFit .initial ∧ ¬ pre.Overlaid name)
    (hRetains : scope.Retains pre.environment pre.measures)
    (hRefers : s.Refers (pre.TensorsFit .initial) pre.meaning name id)
    (hKnown : pre.meaning.names.KnowsOperator name) :
    pre.ResolvesOperator scope' v s name id := by
  rcases hKnown with hSymbolic | ⟨a, hName⟩
  · rw [hRefers.known] at hSymbolic
    cases hSymbolic
  · have hYields := hRefers.stands _ hName
    rw [names_meaning] at hName
    refine ⟨a, ?_, hYields.resolves fun hFits hClear => ?_,
      fun hMeasures => ?_⟩
    · rw [environment_of_validation hValidated]
      exact hName
    · exact hAgrees.shapes name _ ⟨hFits, hClear⟩ hName
    · have hOld := hRetains.predefined name _ (.inr hMeasures) hName
      rw [Environment.lookup_initial] at hOld
      simpa using hOld

/-
  The stages resolve the names in an experiment alike.  A
  Hamiltonian, a jump operator or an observable is validated
  as a matrix, and its node computes nothing of another
  shape.  So do the nodes of a scheduled measurement for the
  operators of its definition.  As long as the extents of
  Kronecker products fit into machine words, these shapes are
  recorded for the nodes and found for the names when the
  experiment is checked, except for names that are overlaid.
-/
theorem plan_resolves
    {options : Options R}
    {pre post : Program R}
    {x : Experiment R}
    {plan : Plan R}
    (hPlan : Program.plan options (pre ++ .experiment x :: post) =
      .ok plan) :
    ∃ scope v s planned,
      Program.walk Scope.check .initial (pre ++ [.experiment x]) =
        .ok scope ∧
      pre.walk (Validator.check options.validationTolerance) .initial =
        .ok v ∧
      Program.walk Lowering.addStatement .initial
        (pre ++ .experiment x :: post) = .ok s ∧
      s.plan = plan ∧
      plan.experiments[pre.experiments.length]? = some planned ∧
      planned.Realizes (pre.ResolvesOperator scope v s) pre.measures
        x ∧
      List.Forall₂
        (fun event entry => pre.measures event.measurement = true →
          pre.ResolvesMeasurement options.validationTolerance scope s
            event.measurement entry.kind entry.operators)
        x.schedule planned.measurements := by
  rcases stages_of_plan hPlan with ⟨_, _, t, hPasses⟩
  rcases walk_append.1 hPasses.checked with ⟨scope, hScope, hRest⟩
  rcases walk_cons.1 hRest with ⟨scope', hCheck, _⟩
  rcases walk_append.1 hPasses.validated with ⟨v, hValidated, hRest⟩
  rcases walk_cons.1 hRest with ⟨_, hValid, _⟩
  rcases walk_append.1 hPasses.lowered with ⟨s, hBefore, hRest⟩
  rcases walk_cons.1 hRest with ⟨next, hAdd, hPost⟩
  rcases agreesOn_of_walk hScope with ⟨hAgrees, hRetains⟩
  have hChecks : scope.Checks (.experiment x) scope' :=
    .experiment hCheck
  have hMeasured : s.measurements.contains = pre.measures :=
    funext (measures_of_lowering hBefore)
  have hFollows : s.Follows (pre.TensorsFit .initial) pre.meaning :=
    (Lowering.follows_of_walk Lowering.follows_initial id hBefore).2
  have hAdvances := Lowering.advances_addStatement
    (Lowering.follows_of_prefix hBefore) (fun h => h.elim) hAdd
  have hGrows : next.Grows t :=
    (Lowering.follows_of_walk hAdvances.follows (fun h => h.elim)
      hPost).1
  have hAligned := hAdvances.follows.binds.aligned
  rcases realizes_of_walk hValidated hValid hBefore hFollows hAdd with
    ⟨planned, hPlanned, hPlans, hObserved, hJumps⟩
  have hFinal := hPlans.later hAligned hGrows
  have hRealizes := hFinal.realizes hObserved hJumps
    fun name id => resolvesOperator_of_refers hValidated
      (hAgrees.experiment hCheck) hRetains
  rw [hMeasured] at hRealizes
  refine ⟨scope', v, t, planned,
    walk_append.2 ⟨scope, hScope, walk_single.2 hCheck⟩, hValidated,
    hPasses.lowered, hPasses.plan_eq, ?_, hRealizes, ?_⟩
  · rw [← hPasses.plan_eq]
    exact Lowering.getElem?_experiments hBefore hPlanned
      hAdvances.follows hPost
  · refine hFinal.schedule.imp fun event entry hEvent hMeasures => ?_
    cases hEvent with
    | measurement hFound =>
        have hResolves := resolvesMeasurement_of_walks hScope
          hValidated hBefore _ _ _ hFound
        exact hResolves.later hFollows.binds.aligned
          (hAdvances.grows.trans hGrows)
          (hChecks.find?_of_settled (hRetains.settled _ hMeasures))
    | observable hNone _ =>
        rw [← hMeasured, Table.contains, hNone] at hMeasures
        cases hMeasures

/- A measurement of two qubits that has only one outcome. -/
def trivialMeasurement (name : String) : Statement Float :=
  .measurement name .projective
    [realMatrix
      [[1, 0, 0, 0], [0, 1, 0, 0], [0, 0, 1, 0], [0, 0, 0, 1]]]

/- Two qubits that are measured before they evolve. -/
def measuredPair (hamiltonian measurement : String) : Experiment Float :=
  ⟨"pair",
    some ⟨.ket,
      .vector ([1, 0, 0, 0].map fun x => .number ⟨x, 0⟩)⟩,
    some ⟨"pair", hamiltonian, .points [0], []⟩,
    [⟨0, measurement⟩]⟩

/- The Hamiltonian of two qubits that are measured by another name. -/
def coupledPair : Program Float :=
  [.hamiltonian "coupling" []
      (.binary .tensor (.identifier "sigma_x")
        (.identifier "sigma_x")),
    trivialMeasurement "readout",
    .experiment (measuredPair "coupling" "readout")]

/- The stages find the Hamiltonian of two qubits to be of one shape. -/
theorem plan_resolves_coupledPair :
    ∃ plan scope v s planned evolution a,
      coupledPair.plan Options.default = .ok plan ∧
      coupledPair.walk Scope.check .initial = .ok scope ∧
      Program.walk (Validator.check defaultValidationTolerance) .initial
        (coupledPair.take 2) = .ok v ∧
      coupledPair.walk Lowering.addStatement .initial = .ok s ∧
      plan.experiments[0]? = some planned ∧
      planned.evolution = some evolution ∧
      v.environment.lookup "coupling" = some (.matrix a) ∧
      scope.shapes.find? "coupling" = some a.shape ∧
      s.shapeOf evolution.hamiltonian = a.shape ∧
      ∀ w, plan.EvaluatesTo evolution.hamiltonian w →
        w.shape = a.shape := by
  have hPlanned : (coupledPair.plan Options.default).isOk = true := by
    decide +kernel
  have hMeasures : ∀ name ∈ Predefined.names,
      Program.measures (coupledPair.take 2) name = false := by
    decide
  have hClear : ¬ Program.Overlaid (coupledPair.take 2) "coupling" := by
    intro hOverlaid
    rcases exists_measures_of_overlaid hOverlaid with
      ⟨name, hMember, hTaken⟩
    rw [hMeasures name hMember] at hTaken
    cases hTaken
  have hFits : Program.TensorsFit .initial (coupledPair.take 2) := by
    refine ⟨tensorsFit_coupledSpins.1, fun e hMember => ?_, trivial⟩
    cases List.mem_singleton.1 hMember
    exact trivial
  cases hPlan : coupledPair.plan Options.default with
  | error halt =>
      rw [hPlan] at hPlanned
      cases hPlanned
  | ok plan =>
      have hSplit : Program.plan Options.default
          (coupledPair.take 2 ++
            .experiment (measuredPair "coupling" "readout") :: []) =
          .ok plan :=
        hPlan
      rcases plan_resolves hSplit with
        ⟨scope, v, s, planned, hChecked, hValidated, hLowered, rfl,
          hPlace, hRealizes, _⟩
      have hEvolution := hRealizes.evolution
      cases hSome : planned.evolution with
      | none =>
          rw [hSome] at hEvolution
          cases hEvolution
      | some evolution =>
          rw [hSome] at hEvolution
          rcases hEvolution with ⟨⟨a, hName, hResolves, _⟩, _⟩
          exact ⟨s.plan, scope, v, s, planned, evolution, a, rfl,
            hChecked, hValidated, hLowered, hPlace, hSome, hName,
            hResolves.checked hFits hClear, hResolves.recorded hFits,
            hResolves.computed⟩

/- A measurement takes the name of the Hamiltonian. -/
def overlaidPair : Program Float :=
  [trivialMeasurement "sigma_x",
    .experiment (measuredPair "sigma_x" "sigma_x")]

/-
  A measurement of two qubits takes the name of a predefined
  operator.  The Hamiltonian of that name is found to act on
  two qubits, but it is validated and planned as the
  predefined operator on one.
-/
theorem measurement_overlays_operator :
    ∃ plan scope v planned evolution a,
      overlaidPair.plan Options.default = .ok plan ∧
      overlaidPair.walk Scope.check .initial = .ok scope ∧
      Program.walk
        (Validator.check defaultValidationTolerance)
        .initial [trivialMeasurement "sigma_x"] = .ok v ∧
      plan.experiments[0]? = some planned ∧
      planned.evolution = some evolution ∧
      scope.shapes.find? "sigma_x" = some (.matrix 4 4) ∧
      v.environment.lookup "sigma_x" = some (.matrix a) ∧
      plan.EvaluatesTo evolution.hamiltonian (.matrix a) ∧
      a.shape = .matrix 2 2 := by
  have hDiffer : (do
      let plan ← (overlaidPair.plan Options.default).toOption
      let scope ← (overlaidPair.walk Scope.check .initial).toOption
      let v ← (Program.walk
        (Validator.check defaultValidationTolerance)
        .initial [trivialMeasurement "sigma_x"]).toOption
      let planned ← plan.experiments[0]?
      let evolution ← planned.evolution
      let a ← (v.environment.lookup "sigma_x").bind Value.matrix?
      let b ← (plan.value? evolution.hamiltonian).bind Value.matrix?
      guard (scope.shapes.find? "sigma_x" = some (.matrix 4 4) ∧
        a = b ∧ a.shape = .matrix 2 2)) = some () := by
    decide +kernel
  simp only [Option.bind_eq_bind, Option.bind_eq_some_iff,
    toOption_eq_some_iff, Value.matrix?_eq_some_iff,
    Option.guard_eq_some'] at hDiffer
  rcases hDiffer with
    ⟨plan, hPlan, scope, hScope, v, hValidated, planned, hPlanned,
      evolution, hEvolution, a, ⟨_, hName, rfl⟩, b, ⟨_, hNode, rfl⟩,
      hShape, rfl, hSmall⟩
  rw [← Plan.evaluatesTo_iff_value?] at hNode
  exact ⟨plan, scope, v, planned, evolution, a, hPlan, hScope,
    hValidated, hPlanned, hEvolution, hShape, hName, hNode, hSmall⟩

end Program

end QuantumLab
