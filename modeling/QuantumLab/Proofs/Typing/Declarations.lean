import QuantumLab.Proofs.Typing.Scopes

/-
  This file says which names the declarations of a program
  may share.  The scope keeps three records of names, and
  they are told apart by the statements that filled them: a
  function takes a name without closing it, and every other
  declaration closes the name that it takes.

  Key definitions include:
    * `Statement.function?`, `Statement.quantity?`,
      `Statement.state?`
    * `Statement.declared?`
    * `Scope.Takes`
    * `Scope.Records`
    * `Statement.Leaves`

  Main statements:
    * `Scope.takes_of_check` says what a statement does to the
      names of a scope.
    * `Scope.records_of_walk` says what the records of a scope
      hold.
    * `Program.declarations_distinct` says that declarations
      share no name, but for a predefined name that a function
      has taken before.
-/

------------------------------------------------------------
-- Names of statements
------------------------------------------------------------

namespace QuantumLab

variable {R : Type}

namespace Statement

/- The name that a statement gives to a function. -/
def function? : Statement R → Option String
  | .function name _ _ => some name
  | _ => none

/- The name that a statement gives to a value, a symbol or a measurement. -/
def quantity? : Statement R → Option String
  | .const name _ => some name
  | .symbol name => some name
  | .matrix name _ => some name
  | .hamiltonian name _ _ => some name
  | .measurement name _ _ => some name
  | _ => none

/- The name under which a statement records an initial state. -/
def state? : Statement R → Option String
  | .experiment x => x.initialState.map fun _ => initialStateName x.name
  | _ => none

/- The name that a statement declares for the rest of a program. -/
def declared? (d : Statement R) : Option String :=
  d.function?.or d.quantity?

/- The name to which a statement gives a shape. -/
def recorded? (d : Statement R) : Option String :=
  d.quantity?.or d.state?

variable {d : Statement R} {name : String}

theorem declared?_eq_some_iff :
    d.declared? = some name ↔
      d.function? = some name ∨ d.quantity? = some name := by
  cases d <;> simp [declared?, function?, quantity?]

theorem recorded?_eq_some_iff :
    d.recorded? = some name ↔
      d.quantity? = some name ∨ d.state? = some name := by
  cases d <;> simp [recorded?, quantity?, state?]

/- A function is not a quantity as well. -/
theorem quantity?_of_function
    {other : String}
    (hFunction : d.function? = some name) :
    d.quantity? ≠ some other := by
  cases d with
  | function => nofun
  | _ => cases hFunction

end Statement

end QuantumLab

------------------------------------------------------------
-- Names of scopes
------------------------------------------------------------

namespace QuantumLab

variable {R : Type}

namespace Scope

/- A name may be declared if it is shadowable or new. -/
def Free (scope : Scope) (name : String) : Prop :=
  scope.shadowable.contains name = true ∨
    scope.functions.contains name = false ∧
      scope.shapes.contains name = false

/- The names that may be declared are the free ones. -/
theorem exists_declare_iff
    {scope : Scope}
    {name : String}
    (shape : Shape) :
    (∃ next, (scope.declare name shape : Except (Fault R) Scope) =
      .ok next) ↔ scope.Free name := by
  unfold declare Free
  by_cases hShadowable : scope.shadowable.contains name = true
  · simp [hShadowable]
  · by_cases hKnown : (scope.functions.contains name ||
        scope.shapes.contains name) = true
    · rw [if_neg hShadowable, if_pos hKnown]
      rw [Bool.or_eq_true] at hKnown
      constructor
      · rintro ⟨next, hRefused⟩
        exact absurd hRefused refuse_ne_ok
      · rintro (hFree | ⟨hFunctions, hShapes⟩)
        · exact absurd hFree hShadowable
        · simp [hFunctions, hShapes] at hKnown
    · rw [if_neg hShadowable, if_neg hKnown]
      rw [Bool.not_eq_true, Bool.or_eq_false_iff] at hKnown
      exact ⟨fun _ => .inr hKnown, fun _ => ⟨_, rfl⟩⟩

theorem functions_of_declare
    {scope next : Scope}
    {name : String}
    {shape : Shape}
    (hDeclare : (scope.declare name shape : Except (Fault R) Scope) =
      .ok next) :
    next.functions = scope.functions := by
  unfold declare at hDeclare
  split at hDeclare
  · rw [← Except.ok.inj hDeclare]
  · split at hDeclare
    · exact absurd hDeclare refuse_ne_ok
    · rw [← Except.ok.inj hDeclare]

/-
  What a statement does to the names of a scope: a function
  is added to the functions and leaves the other records as
  they are, and any other free name is closed and given a
  shape.
-/
inductive Takes
    (scope : Scope) : Statement R → Scope → Prop where
  | function
      {d : Statement R}
      {name : String}
      {next : Scope}
      (hName : d.function? = some name)
      (hFree : scope.functions.contains name = false ∧ scope.Free name)
      (hNext : next =
        { scope with functions := scope.functions.add name }) :
      Takes scope d next
  | record
      {d : Statement R}
      {name : String}
      {next : Scope}
      (hName : d.recorded? = some name)
      (hFree : scope.Free name)
      (hFunctions : next.functions = scope.functions)
      (hShapes : ∀ other, next.shapes.contains other =
        (decide (name = other) || scope.shapes.contains other))
      (hShadowable : ∀ other, next.shadowable.contains other =
        (!decide (name = other) && scope.shadowable.contains other)) :
      Takes scope d next
  | nothing
      {d : Statement R}
      (hFunction : d.function? = none)
      (hRecorded : d.recorded? = none) :
      Takes scope d scope

/-
  A name that is declared is taken.  A measurement is noted
  as such before its name is declared.
-/
theorem takes_of_declare
    {scope next : Scope}
    {measurements : Names}
    {d : Statement R}
    {name : String}
    {shape : Shape}
    (hName : d.recorded? = some name)
    (hDeclare : ({ scope with measurements }.declare name shape :
      Except (Fault R) Scope) = .ok next) :
    scope.Takes d next := by
  have hFree : Free { scope with measurements } name :=
    (exists_declare_iff shape).1 ⟨next, hDeclare⟩
  have hDeclares := declares_of_declare hDeclare
  have hFunctions := functions_of_declare hDeclare
  refine .record hName hFree hFunctions (fun other => ?_)
    hDeclares.shadowable
  rw [Table.contains, hDeclares.shapes]
  by_cases hSame : name = other
  · simp [hSame]
  · simp [hSame, Table.contains]

theorem takes_of_checkFunction
    {scope next : Scope}
    {name : String}
    {parameters : List String}
    {body : Expr R}
    (hCheck : scope.checkFunction name parameters body = .ok next) :
    scope.Takes (.function name parameters body) next := by
  unfold checkFunction at hCheck
  split at hCheck
  · exact absurd hCheck refuse_ne_ok
  · next hNew =>
    rcases bind_eq_ok_iff.1 hCheck with ⟨shape, _, hDone⟩
    rw [Bool.not_eq_true, Bool.or_eq_false_iff,
      Bool.and_eq_false_iff] at hNew
    rcases hNew with ⟨hFunctions, hShapes⟩
    have hFree : scope.Free name := by
      rcases hShapes with hNone | hShadowable
      · exact .inr ⟨hFunctions, hNone⟩
      · exact .inl (by simpa using hShadowable)
    exact .function rfl ⟨hFunctions, hFree⟩ (pure_eq_ok_iff.1 hDone).symm

/- An experiment takes the name of its state, if it has one. -/
theorem takes_of_checkExperiment
    {scope next : Scope}
    {x : Experiment R}
    (hCheck : scope.checkExperiment x = .ok next) :
    scope.Takes (.experiment x) next := by
  rcases admits_of_checkExperiment hCheck with ⟨dimension, hAdmits⟩
  have hState := hAdmits.state
  cases hSome : x.initialState with
  | none =>
      rw [hSome] at hState
      cases hState
      refine .nothing rfl ?_
      simp [Statement.recorded?, Statement.quantity?, Statement.state?,
        hSome]
  | some state =>
      rw [hSome] at hState
      rcases bind_eq_ok_iff.1 hState with ⟨shape, _, hRest⟩
      rcases unit_bind_eq_ok_iff.1 hRest with ⟨_, hRest⟩
      rcases bind_eq_ok_iff.1 hRest with ⟨last, hDeclare, hDone⟩
      cases pure_eq_ok_iff.1 hDone
      refine takes_of_declare ?_ hDeclare
      simp [Statement.recorded?, Statement.quantity?, Statement.state?,
        hSome]

theorem takes_of_check
    {scope next : Scope}
    {d : Statement R}
    (hCheck : scope.check d = .ok next) :
    scope.Takes d next := by
  cases d with
  | empty => exact absurd hCheck refuse_ne_ok
  | const name e =>
      rcases bind_eq_ok_iff.1 hCheck with ⟨shape, _, hRest⟩
      split at hRest
      · exact takes_of_declare rfl hRest
      · exact absurd hRest refuse_ne_ok
  | symbol name => exact takes_of_declare rfl hCheck
  | matrix name e =>
      rcases bind_eq_ok_iff.1 hCheck with ⟨shape, _, hDeclare⟩
      exact takes_of_declare rfl hDeclare
  | function name parameters body =>
      exact takes_of_checkFunction hCheck
  | hamiltonian name parameters e =>
      rcases bind_eq_ok_iff.1 hCheck with ⟨shape, _, hDeclare⟩
      exact takes_of_declare rfl hDeclare
  | measurement name kind operators =>
      rcases bind_eq_ok_iff.1 hCheck with ⟨shape, _, hDeclare⟩
      exact takes_of_declare rfl hDeclare
  | experiment x => exact takes_of_checkExperiment hCheck

end Scope

end QuantumLab

------------------------------------------------------------
-- Records of a scope
------------------------------------------------------------

namespace QuantumLab

variable {R : Type}

namespace Program

/- A statement of a program gives a name to a function. -/
def NamesFunction (p : Program R) (name : String) : Prop :=
  ∃ d ∈ p, d.function? = some name

/- A statement of a program gives a shape to a name. -/
def GivesShape (p : Program R) (name : String) : Prop :=
  ∃ d ∈ p, d.recorded? = some name

@[simp] theorem namesFunction_append
    (p : Program R)
    (d : Statement R)
    (name : String) :
    NamesFunction (p ++ [d]) name ↔
      NamesFunction p name ∨ d.function? = some name := by
  simp [NamesFunction]

@[simp] theorem givesShape_append
    (p : Program R)
    (d : Statement R)
    (name : String) :
    GivesShape (p ++ [d]) name ↔
      GivesShape p name ∨ d.recorded? = some name := by
  simp [GivesShape]

end Program

/- What the records of a scope hold after a program. -/
structure Scope.Records
    (p : Program R)
    (scope : Scope) : Prop where
  functions : ∀ name, scope.functions.contains name = true ↔
    p.NamesFunction name
  shapes : ∀ name, scope.shapes.contains name = true ↔
    name ∈ Predefined.names ∨ p.GivesShape name
  shadowable : ∀ name, scope.shadowable.contains name = true ↔
    name ∈ Predefined.names ∧ ¬ p.GivesShape name

/- A table holds the names of its rows. -/
theorem Table.contains_ofList_iff
    {α : Type}
    {rows : List (String × α)}
    {name : String} :
    (ofList rows).contains name = true ↔ name ∈ rows.map Prod.fst := by
  rw [contains, find?_ofList, ← List.mem_reverse, ← List.map_reverse]
  induction rows.reverse with
  | nil => simp [Rows.find?]
  | cons row rows ih =>
      obtain ⟨key, value⟩ := row
      by_cases hSame : key = name
      · simp [Rows.find?, hSame]
      · simp [Rows.find?, hSame, Ne.symm hSame, ih]

/- At first the predefined names have shapes and are shadowable. -/
theorem Scope.records_initial :
    Records ([] : Program R) initial := by
  constructor
  · intro name
    simp [initial, Table.contains, Program.NamesFunction]
  · intro name
    simp [initial, Table.contains_ofList_iff, Function.comp_def,
      Program.GivesShape]
  · intro name
    simp [initial, Table.contains_ofList_iff, Function.comp_def,
      Program.GivesShape]

/- Every statement keeps the records true. -/
theorem Scope.Takes.records
    {p : Program R}
    {scope next : Scope}
    {d : Statement R}
    (hTakes : scope.Takes d next)
    (hRecords : Records p scope) :
    Records (p ++ [d]) next := by
  cases hTakes with
  | @function _ name hName hFree hNext =>
      have hNothing : d.recorded? = none := by
        cases d with
        | function => rfl
        | _ => cases hName
      subst hNext
      constructor
      · intro other
        simp [Table.add, Table.contains_insert, hRecords.functions, hName,
          or_comm]
      · intro other
        simp [hRecords.shapes, hNothing]
      · intro other
        simp [hRecords.shadowable, hNothing]
  | @record _ name hName hFree hFunctions hShapes hShadowable =>
      have hNothing : d.function? = none := by
        cases d with
        | function => cases hName
        | _ => rfl
      constructor
      · intro other
        simp [hFunctions, hRecords.functions, hNothing]
      · intro other
        simp [hShapes, hRecords.shapes, hName, or_comm, or_left_comm]
      · intro other
        simp [hShadowable, hRecords.shadowable, hName]
        tauto
  | nothing hFunction hRecorded =>
      constructor
      · intro other
        simp [hRecords.functions, hFunction]
      · intro other
        simp [hRecords.shapes, hRecorded]
      · intro other
        simp [hRecords.shadowable, hRecorded]

/- What the records of a scope hold after a check. -/
theorem Scope.records_of_walk
    {p : Program R}
    {scope : Scope}
    (hWalk : p.walk Scope.check .initial = .ok scope) :
    Records p scope :=
  Program.walk_induction records_initial
    (fun _ _ _ _ hRecords hStep => (takes_of_check hStep).records hRecords)
    hWalk

/-
  A name may be declared after a program if it is predefined
  and has been given no shape, or if it is new.
-/
theorem Scope.Records.free_iff
    {p : Program R}
    {scope : Scope}
    {name : String}
    (hRecords : Records p scope) :
    scope.Free name ↔
      ¬ p.GivesShape name ∧
        (name ∈ Predefined.names ∨ ¬ p.NamesFunction name) := by
  rw [Scope.Free, hRecords.shadowable, ← Bool.not_eq_true,
    ← Bool.not_eq_true, hRecords.functions, hRecords.shapes]
  tauto

/-
  The name of an accepted statement was given to nothing
  before, but for a predefined name that a function has.
-/
theorem Scope.Takes.fresh
    {p : Program R}
    {scope next : Scope}
    {d : Statement R}
    {name : String}
    (hTakes : scope.Takes d next)
    (hRecords : Records p scope)
    (hName : d.declared? = some name) :
    ¬ p.GivesShape name ∧
      (p.NamesFunction name →
        name ∈ Predefined.names ∧ d.quantity? = some name) := by
  rw [Statement.declared?_eq_some_iff] at hName
  cases hTakes with
  | function hFunction hFree _ =>
      rcases hName with hName | hName
      · cases hFunction.symm.trans hName
        refine ⟨(hRecords.free_iff.1 hFree.2).1, fun hKnown => ?_⟩
        rw [← hRecords.functions, hFree.1] at hKnown
        cases hKnown
      · exact absurd hName (Statement.quantity?_of_function hFunction)
  | record hRecorded hFree _ _ _ =>
      rcases hName with hName | hName
      · cases d with
        | function => cases hRecorded
        | _ => cases hName
      · cases hRecorded.symm.trans
          (Statement.recorded?_eq_some_iff.2 (.inl hName))
        rcases hRecords.free_iff.1 hFree with ⟨hNew, hMay⟩
        exact ⟨hNew, fun hKnown => ⟨hMay.resolve_right (not_not.2 hKnown),
          hName⟩⟩
  | nothing hFunction hRecorded =>
      rcases hName with hName | hName
      · rw [hFunction] at hName
        cases hName
      · rw [Statement.recorded?_eq_some_iff.2 (.inl hName)] at hRecorded
        cases hRecorded

end QuantumLab

------------------------------------------------------------
-- Names that declarations share
------------------------------------------------------------

namespace QuantumLab

variable {R : Type}

/-
  Of two declarations, the second may take the name of the
  first if the name is predefined, the first is a function,
  and the second is not.
-/
def Statement.Leaves (d d' : Statement R) : Prop :=
  ∀ name, d.declared? = some name → d'.declared? = some name →
    name ∈ Predefined.names ∧ d.function? = some name ∧
      d'.quantity? = some name

namespace Program

theorem pairwise_leaves_of_walk
    {p : Program R}
    {scope : Scope}
    (hWalk : p.walk Scope.check .initial = .ok scope) :
    p.Pairwise Statement.Leaves := by
  have hBoth : Scope.Records p scope ∧ p.Pairwise Statement.Leaves := by
    refine walk_induction (I := fun p scope =>
      Scope.Records p scope ∧ p.Pairwise Statement.Leaves)
      ⟨Scope.records_initial, .nil⟩ ?_ hWalk
    rintro pre mid d next ⟨hRecords, hPairs⟩ hStep
    have hTakes := Scope.takes_of_check hStep
    refine ⟨hTakes.records hRecords, ?_⟩
    rw [List.pairwise_append]
    refine ⟨hPairs, List.pairwise_singleton _ _, ?_⟩
    intro d' hBefore d'' hLast name hName' hName
    cases List.mem_singleton.1 hLast
    rcases hTakes.fresh hRecords hName with ⟨hNew, hFunction⟩
    rcases Statement.declared?_eq_some_iff.1 hName' with hFirst | hFirst
    · rcases hFunction ⟨d', hBefore, hFirst⟩ with
        ⟨hPredefined, hSecond⟩
      exact ⟨hPredefined, hFirst, hSecond⟩
    · exact absurd
        ⟨d', hBefore, Statement.recorded?_eq_some_iff.2 (.inl hFirst)⟩ hNew
  exact hBoth.2

/- A program is accepted if a walk of the checks is. -/
theorem exists_typed_iff
    {p : Program R} :
    (∃ typed, p.typed = .ok typed) ↔
      ∃ scope, p.walk Scope.check .initial = .ok scope := by
  constructor
  · rintro ⟨typed, hTyped⟩
    exact exists_of_bind_ok hTyped
  · rintro ⟨scope, hWalk⟩
    exact ⟨⟨p, scope.shapes⟩, bind_eq_ok_iff.2 ⟨scope, hWalk, rfl⟩⟩

/-
  The declarations of an accepted program have different
  names, but for a predefined name that is first given to a
  function and then to one other declaration.  A name may be
  declared next exactly if it has no shape from the program,
  and, unless it is predefined, is not that of a function.
-/
theorem declarations_distinct
    {p : Program R}
    {typed : TypedProgram R}
    (hTyped : p.typed = .ok typed) :
    p.Pairwise Statement.Leaves ∧
      ∀ name, (∃ further, Program.typed (p ++ [.symbol name]) =
          .ok further) ↔
        ¬ p.GivesShape name ∧
          (name ∈ Predefined.names ∨ ¬ p.NamesFunction name) := by
  rcases exists_typed_iff.1 ⟨typed, hTyped⟩ with ⟨scope, hWalk⟩
  have hRecords := Scope.records_of_walk hWalk
  refine ⟨pairwise_leaves_of_walk hWalk, fun name => ?_⟩
  rw [exists_typed_iff, ← hRecords.free_iff,
    ← Scope.exists_declare_iff (R := R) .scalar]
  refine exists_congr fun next => ?_
  rw [walk_append]
  constructor
  · rintro ⟨mid, hMid, hLast⟩
    cases hWalk.symm.trans hMid
    exact walk_single.1 hLast
  · intro hDeclare
    exact ⟨scope, hWalk, walk_single.2 hDeclare⟩

/-
  A predefined name is given to a function and then to a
  matrix.
-/
def sharedName : Program Float :=
  [.function "sigma_x" ["x"] (.identifier "x"),
    .matrix "sigma_x" (.matrix
      [[.number ⟨1, 0⟩, .number ⟨0, 0⟩],
        [.number ⟨0, 0⟩, .number ⟨1, 0⟩]])]

/- A third declaration of the name is refused. -/
theorem declarations_distinct_sharedName :
    ∃ typed, sharedName.typed = .ok typed ∧
      sharedName.Pairwise Statement.Leaves ∧
      ¬ ∃ further, Program.typed (sharedName ++ [.symbol "sigma_x"]) =
        .ok further := by
  have hAccepted : (sharedName.typed.toOption).isSome = true := by
    decide +kernel
  rcases Option.isSome_iff_exists.1 hAccepted with ⟨typed, hSome⟩
  have hTyped := toOption_eq_some_iff.1 hSome
  rcases declarations_distinct hTyped with ⟨hPairs, hNext⟩
  refine ⟨typed, hTyped, hPairs, ?_⟩
  rw [hNext]
  rintro ⟨hNew, _⟩
  exact hNew ⟨_, List.mem_cons_of_mem _ List.mem_cons_self, rfl⟩

/- Two declarations of an accepted program introduce the same name. -/
theorem function_name_declared_again :
    ∃ typed, sharedName.typed = .ok typed ∧
      ¬ (sharedName.filterMap Statement.declared?).Nodup := by
  have hAccepted : (sharedName.typed.toOption).isSome = true := by
    decide +kernel
  rcases Option.isSome_iff_exists.1 hAccepted with ⟨typed, hSome⟩
  refine ⟨typed, toOption_eq_some_iff.1 hSome, ?_⟩
  decide

end Program

end QuantumLab
