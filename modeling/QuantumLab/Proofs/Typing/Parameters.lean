import QuantumLab.Proofs.Evaluation.Substitution
import QuantumLab.Proofs.Typing.Declarations

/-
  This file says that the parameters of a definition are
  known inside of its body and nowhere else, and that nothing
  depends on how they are called.

  Key definitions include:
    * `Statement.body?`, `Statement.renameParameters`
    * `Scope.inside`

  Main statements:
    * `Scope.infer_substitute` says that the expression in
      which names are replaced has the shape of the expression
      itself, where each name has the shape of what replaces
      it.
    * `Scope.check_renameParameters` says that a definition is
      checked as before when its parameters are renamed.
    * `Program.parameters_lexically_scoped` puts these
      together for whole programs.
-/

------------------------------------------------------------
-- Shapes of expressions in which names are replaced
------------------------------------------------------------

namespace QuantumLab

variable {R : Type}

namespace Scope

variable
  {σ : String → Expr R}
  {f : Expr R → Expr R}
  {scope scope' : Scope}

theorem inferScalars_map
    {elements : List (Expr R)}
    (subject : String)
    (hEach : ∀ element ∈ elements,
      scope'.infer (f element) = scope.infer element) :
    scope'.inferScalars subject (elements.map f) =
      scope.inferScalars subject elements := by
  induction elements with
  | nil => simp only [List.map_nil, inferScalars]
  | cons element rest ih =>
      rcases List.forall_mem_cons.1 hEach with ⟨hHead, hTail⟩
      simp only [List.map_cons, inferScalars, hHead, ih hTail]

theorem inferRows_map
    {rows : List (List (Expr R))}
    (columns k : Nat)
    (hEach : ∀ row ∈ rows, ∀ element ∈ row,
      scope'.infer (f element) = scope.infer element) :
    scope'.inferRows columns k (rows.map (List.map f)) =
      scope.inferRows columns k rows := by
  induction rows generalizing k with
  | nil => simp only [List.map_nil, inferRows]
  | cons row rest ih =>
      rcases List.forall_mem_cons.1 hEach with ⟨hHead, hTail⟩
      simp only [List.map_cons, inferRows, List.length_map,
        inferScalars_map _ hHead, ih (k + 1) hTail]

theorem inferAll_map
    {arguments : List (Expr R)}
    (hEach : ∀ argument ∈ arguments,
      scope'.infer (f argument) = scope.infer argument) :
    scope'.inferAll (arguments.map f) = scope.inferAll arguments := by
  induction arguments with
  | nil => simp only [List.map_nil, inferAll]
  | cons argument rest ih =>
      rcases List.forall_mem_cons.1 hEach with ⟨hHead, hTail⟩
      simp only [List.map_cons, inferAll, hHead, ih hTail]

/-
  Names may be replaced by expressions of the shapes that the
  names have, if the same functions are known.
-/
theorem infer_substitute
    {e : Expr R}
    (hFunctions : scope'.functions = scope.functions)
    (hNames : ∀ name, e.Mentions name →
      scope'.infer (σ name) = scope.lookup name) :
    scope'.infer (e.substitute σ) = scope.infer e := by
  induction e using Expr.induction with
  | missing => simp only [Expr.substitute, infer]
  | number z => simp only [Expr.substitute, infer]
  | identifier name =>
      rw [Expr.substitute, infer, hNames name .self]
  | matrix rows ih =>
      have hRows := inferRows_map (Expr.columns rows) 0
        fun row hRow element hElement =>
          ih row hRow element hElement fun name hMentions =>
            hNames name (.entry hRow hElement hMentions)
      simp only [Expr.substitute, Expr.substituteRows_eq_map, infer,
        Expr.columns_map, List.length_map, hRows]
  | vector elements ih =>
      have hElements := inferScalars_map "element of vector literal"
        fun element hElement =>
          ih element hElement fun name hMentions =>
            hNames name (.component hElement hMentions)
      simp only [Expr.substitute, Expr.substituteEach_eq_map, infer,
        List.isEmpty_map, List.length_map, hElements]
  | binary op lhs rhs ihLhs ihRhs =>
      have hLhs := ihLhs fun name hMentions =>
        hNames name (.lhs hMentions)
      have hRhs := ihRhs fun name hMentions =>
        hNames name (.rhs hMentions)
      simp only [Expr.substitute, infer, hLhs, hRhs]
  | unary op operand ih =>
      have hOperand := ih fun name hMentions =>
        hNames name (.operand hMentions)
      simp only [Expr.substitute, infer, hOperand]
  | call function arguments ih =>
      have hArguments := inferAll_map fun argument hArgument =>
        ih argument hArgument fun name hMentions =>
          hNames name (.argument hArgument hMentions)
      simp only [Expr.substitute, Expr.substituteEach_eq_map, infer,
        hFunctions, hArguments]

/- Only the names that occur in an expression matter to its shape. -/
theorem infer_congr
    {e : Expr R}
    (hFunctions : scope'.functions = scope.functions)
    (hNames : ∀ name, e.Mentions name →
      (scope'.lookup name : Except (Fault R) Shape) =
        scope.lookup name) :
    scope'.infer e = scope.infer e := by
  have hSame : scope'.infer (e.substitute .identifier) =
      scope.infer e :=
    infer_substitute hFunctions fun name hMentions => by
      rw [infer, hNames name hMentions]
  rwa [Expr.substitute_identifier] at hSame

end Scope

end QuantumLab

------------------------------------------------------------
-- Definitions with parameters
------------------------------------------------------------

namespace QuantumLab

variable {R : Type}

namespace Statement

/- The parameters and the body of a definition. -/
def body? : Statement R → Option (List String × Expr R)
  | .function _ parameters body => some (parameters, body)
  | .hamiltonian _ parameters expression =>
      some (parameters, expression)
  | _ => none

/- A definition with other parameters and another body. -/
def withBody
    (parameters : List String)
    (body : Expr R) : Statement R → Statement R
  | .function name _ _ => .function name parameters body
  | .hamiltonian name _ _ => .hamiltonian name parameters body
  | d => d

end Statement

/- An expression with names of a list renamed. -/
def Expr.rename
    (e : Expr R)
    (names : List String)
    (ρ : String → String) : Expr R :=
  e.substitute fun name =>
    .identifier (if name ∈ names then ρ name else name)

/-
  A definition with its parameters renamed, in the list of
  parameters and in the body.
-/
def Statement.renameParameters
    (d : Statement R)
    (ρ : String → String) : Statement R :=
  match d.body? with
  | some (parameters, body) =>
      d.withBody (parameters.map ρ) (body.rename parameters ρ)
  | none => d

namespace Scope

/-
  The scope in which the body of a definition is checked.  A
  function is known inside of its own body.
-/
def inside (scope : Scope) : Statement R → Scope
  | .function name parameters _ =>
      { scope with functions := scope.functions.add name, parameters }
  | .hamiltonian _ parameters _ => { scope with parameters }
  | _ => scope

variable
  {scope : Scope}
  {d : Statement R}
  {parameters : List String}
  {body : Expr R}

theorem parameters_inside
    (hBody : d.body? = some (parameters, body)) :
    (scope.inside d).parameters = parameters := by
  cases d with
  | function name ps e => cases hBody; rfl
  | hamiltonian name ps e => cases hBody; rfl
  | _ => cases hBody

theorem shapes_inside
    (d : Statement R) :
    (scope.inside d).shapes = scope.shapes := by
  cases d <;> rfl

theorem functions_inside_withBody
    (scope : Scope)
    (parameters : List String)
    (body : Expr R)
    (d : Statement R) :
    (scope.inside (d.withBody parameters body)).functions =
      (scope.inside d).functions := by
  cases d <;> rfl

theorem parameters_inside_withBody
    {parameters' : List String}
    {body' : Expr R}
    (hBody : d.body? = some (parameters, body)) :
    (scope.inside (d.withBody parameters' body')).parameters =
      parameters' := by
  cases d with
  | function name ps e => rfl
  | hamiltonian name ps e => rfl
  | _ => cases hBody

theorem shapes_inside_withBody
    (parameters : List String)
    (body : Expr R)
    (d : Statement R) :
    (scope.inside (d.withBody parameters body)).shapes =
      scope.shapes := by
  cases d <;> rfl

/- The check of a definition asks nothing of its body but its shape. -/
theorem check_withBody
    {parameters' : List String}
    {body' : Expr R}
    (hBody : d.body? = some (parameters, body))
    (hSame : (scope.inside (d.withBody parameters' body')).infer body' =
      (scope.inside d).infer body) :
    scope.check (d.withBody parameters' body') = scope.check d := by
  cases d with
  | function name ps e =>
      cases hBody
      simp only [inside, Statement.withBody] at hSame
      simp only [Statement.withBody, check, checkFunction, hSame]
  | hamiltonian name ps e =>
      cases hBody
      simp only [inside, Statement.withBody] at hSame
      simp only [Statement.withBody, check, hamiltonianShape, hSame]
  | _ => cases hBody

/- The body of a definition that is accepted has a shape. -/
theorem exists_infer_of_check
    {next : Scope}
    (hBody : d.body? = some (parameters, body))
    (hCheck : scope.check d = .ok next) :
    ∃ shape, (scope.inside d).infer body = .ok shape := by
  cases d with
  | function name ps e =>
      cases hBody
      change scope.checkFunction name parameters body = .ok next at hCheck
      unfold checkFunction at hCheck
      split at hCheck
      · exact absurd hCheck refuse_ne_ok
      · rcases bind_eq_ok_iff.1 hCheck with ⟨shape, hShape, _⟩
        exact ⟨shape, hShape⟩
  | hamiltonian name ps e =>
      cases hBody
      rcases bind_eq_ok_iff.1 hCheck with ⟨_, hShape, _⟩
      rcases bind_eq_ok_iff.1 hShape with ⟨shape, hInferred, _⟩
      exact ⟨shape, hInferred⟩
  | _ => cases hBody

------------------------------------------------------------
-- Inside of a body
------------------------------------------------------------

/- A parameter is a scalar, whatever else has its name. -/
theorem lookup_parameter
    {name : String}
    (hBody : d.body? = some (parameters, body))
    (hMember : name ∈ parameters) :
    ((scope.inside d).lookup name : Except (Fault R) Shape) =
      .ok .scalar := by
  rw [lookup, parameters_inside hBody, if_pos hMember]

/-
  The shapes of quantities that have the name of a parameter
  do not matter to a body.
-/
theorem infer_inside_hidden
    {shapes : Table Shape}
    (hBody : d.body? = some (parameters, body))
    (hOthers : ∀ name, name ∉ parameters →
      shapes.find? name = scope.shapes.find? name) :
    { scope.inside d with shapes }.infer body =
      (scope.inside d).infer body := by
  refine infer_congr rfl fun name _ => ?_
  unfold lookup
  simp only [parameters_inside hBody, shapes_inside]
  by_cases hMember : name ∈ parameters
  · rw [if_pos hMember, if_pos hMember]
  · rw [if_neg hMember, if_neg hMember, hOthers name hMember]

/-
  A definition is checked as before when its parameters are
  renamed.  A new name may occur in the body only as another
  parameter, which is renamed as well.
-/
theorem check_renameParameters
    {ρ : String → String}
    (hBody : d.body? = some (parameters, body))
    (hFresh : ∀ name ∈ parameters, body.Mentions (ρ name) →
      ρ name ∈ parameters) :
    scope.check (d.renameParameters ρ) = scope.check d := by
  rw [Statement.renameParameters, hBody]
  refine check_withBody hBody ?_
  refine infer_substitute (functions_inside_withBody scope _ _ d)
    fun name hMentions => ?_
  rw [infer, lookup, lookup, parameters_inside_withBody hBody,
    shapes_inside_withBody, parameters_inside hBody, shapes_inside]
  by_cases hMember : name ∈ parameters
  · rw [if_pos hMember, if_pos hMember,
      if_pos (List.mem_map_of_mem hMember)]
  · -- A parameter that takes this name would have to be one of them.
    have hOther : name ∉ parameters.map ρ := by
      intro hTaken
      rcases List.mem_map.1 hTaken with ⟨parameter, hParameter, rfl⟩
      exact hMember (hFresh parameter hParameter hMentions)
    rw [if_neg hMember, if_neg hMember, if_neg hOther]

------------------------------------------------------------
-- Outside of bodies
------------------------------------------------------------

/- Between statements there are no parameters. -/
theorem parameters_of_walk
    {program : Program R}
    (hWalk : program.walk check .initial = .ok scope) :
    scope.parameters = [] := by
  refine Program.walk_induction
    (I := fun _ scope => scope.parameters = []) rfl ?_ hWalk
  intro pre scope d next hTop hStep
  rw [(checks_of_check hTop hStep).parameters, hTop]

/-
  A name has a shape only if it is a parameter, if it is
  predefined, or if a statement has given it one.
-/
theorem lookup_of_walk
    {program : Program R}
    {name : String}
    {others : List String}
    (hWalk : program.walk check .initial = .ok scope)
    (hOther : name ∉ Predefined.names)
    (hNone : ¬ program.GivesShape name)
    (hParameters : name ∉ others) :
    ({ scope with parameters := others }.lookup name :
        Except (Fault R) Shape) =
      refuse (.undeclaredIdentifier name) := by
  have hUnknown : scope.shapes.find? name = none := by
    have hShapes := (records_of_walk hWalk).shapes name
    rw [Table.contains, Option.isSome_iff_ne_none] at hShapes
    by_contra hKnown
    exact (hShapes.1 hKnown).elim hOther hNone
  rw [lookup, if_neg hParameters, hUnknown]

/- A definition leaves all shapes as they are, but for its own name. -/
theorem lookup_of_check
    {next : Scope}
    {name : String}
    (hTop : scope.parameters = [])
    (hBody : d.body? = some (parameters, body))
    (hCheck : scope.check d = .ok next)
    (hOther : d.quantity? ≠ some name) :
    (next.lookup name : Except (Fault R) Shape) = scope.lookup name := by
  have hChecks := checks_of_check hTop hCheck
  have hShapes : next.shapes.find? name = scope.shapes.find? name := by
    cases d with
    | function function ps e =>
        change scope.checkFunction function ps e = .ok next at hCheck
        unfold checkFunction at hCheck
        split at hCheck
        · exact absurd hCheck refuse_ne_ok
        · rcases bind_eq_ok_iff.1 hCheck with ⟨shape, _, hDone⟩
          rw [← pure_eq_ok_iff.1 hDone]
    | hamiltonian hamiltonian ps e =>
        rcases bind_eq_ok_iff.1 hCheck with ⟨shape, _, hDeclare⟩
        have hName : hamiltonian ≠ name := by
          rintro rfl
          exact hOther rfl
        rw [(declares_of_declare hDeclare).shapes, if_neg hName]
    | _ => cases hBody
  rw [lookup, hChecks.parameters, hShapes, lookup]

end Scope

end QuantumLab

------------------------------------------------------------
-- Programs
------------------------------------------------------------

namespace QuantumLab

variable {R : Type}

namespace Program

/- Walks only differ where their steps do. -/
theorem walk_congr
    {σ : Type}
    {step : σ → Statement R → Except (Fault R) σ}
    {d d' : Statement R}
    {pre post : Program R}
    (hName : d'.name = d.name)
    (hSame : ∀ s, step s d' = step s d)
    (s : σ) :
    walk step s (pre ++ d' :: post) = walk step s (pre ++ d :: post) := by
  have hRest (mid : σ) :
      walk step mid (d' :: post) = walk step mid (d :: post) := by
    rw [walk, walk, hSame, hName]
  rw [walk_append_eq_bind, walk_append_eq_bind]
  simp only [hRest]

/-
  The parameters of a definition in a program are scoped to
  its body.

  Renaming them, to names that the body does not mention,
  changes nothing: the check ends with the same shapes or
  stops with the same fault at the same statement.  Several
  may get one name, and the new name may be one that the
  program declares.

  Inside of the body a parameter is a scalar, and the shapes
  of quantities that have the name of a parameter do not
  matter.

  Outside of it there are no parameters, whatever part of the
  program has been checked: a name is unknown if it is not
  predefined and no statement so far has given it a shape,
  also in a body that has other parameters.  The definition
  itself changes at most what its own name stands for.
-/
theorem parameters_lexically_scoped
    (pre post : Program R)
    {d : Statement R}
    {parameters : List String}
    {body : Expr R}
    (hBody : d.body? = some (parameters, body)) :
    (∀ ρ : String → String,
      (∀ name ∈ parameters, body.Mentions (ρ name) →
        ρ name ∈ parameters) →
      TypedProgram.shapes <$>
          Program.typed (pre ++ d.renameParameters ρ :: post) =
        TypedProgram.shapes <$> Program.typed (pre ++ d :: post)) ∧
    (∀ scope, pre.walk Scope.check .initial = .ok scope →
      (∀ next, scope.check d = .ok next →
        ∃ shape, (scope.inside d).infer body = .ok shape) ∧
      (∀ name ∈ parameters,
        ((scope.inside d).lookup name : Except (Fault R) Shape) =
          .ok .scalar) ∧
      (∀ shapes : Table Shape,
        (∀ name, name ∉ parameters →
          shapes.find? name = scope.shapes.find? name) →
        { scope.inside d with shapes }.infer body =
          (scope.inside d).infer body)) ∧
    (∀ before after scope, pre ++ d :: post = before ++ after →
      before.walk Scope.check .initial = .ok scope →
        scope.parameters = [] ∧
        ∀ name, name ∉ Predefined.names → ¬ before.GivesShape name →
          ∀ others, name ∉ others →
            ({ scope with parameters := others }.lookup name :
                Except (Fault R) Shape) =
              refuse (.undeclaredIdentifier name)) ∧
    (∀ scope next, pre.walk Scope.check .initial = .ok scope →
      scope.check d = .ok next →
        ∀ name, d.quantity? ≠ some name →
          (next.lookup name : Except (Fault R) Shape) =
            scope.lookup name) := by
  refine ⟨?_, ?_, ?_, ?_⟩
  · intro ρ hFresh
    have hName : (d.renameParameters ρ).name = d.name := by
      rw [Statement.renameParameters, hBody]
      cases d <;> rfl
    have hWalk : (pre ++ d.renameParameters ρ :: post).walk
          Scope.check .initial =
        (pre ++ d :: post).walk Scope.check .initial :=
      walk_congr hName
        (fun scope => Scope.check_renameParameters hBody hFresh)
        Scope.initial
    simp only [typed, hWalk, map_bind]
    rfl
  · intro scope _
    exact ⟨fun next => Scope.exists_infer_of_check hBody,
      fun name => Scope.lookup_parameter hBody,
      fun shapes => Scope.infer_inside_hidden hBody⟩
  · intro before after scope _ hWalk
    exact ⟨Scope.parameters_of_walk hWalk, fun name hOther hNone _ =>
      Scope.lookup_of_walk hWalk hOther hNone⟩
  · intro scope next hWalk hCheck name
    exact Scope.lookup_of_check (Scope.parameters_of_walk hWalk) hBody
      hCheck

/- A Hamiltonian of a parameter that hides a predefined operator. -/
def tilted (parameter : String) : Statement Float :=
  .hamiltonian "tilted" [parameter]
    (.binary .multiply (.identifier parameter) (.identifier "sigma_x"))

/- The parameter may as well have a name of its own. -/
theorem parameters_lexically_scoped_tilted :
    ∃ scope : Scope,
      Program.walk Scope.check .initial [tilted "sigma_z"] = .ok scope ∧
      TypedProgram.shapes <$> Program.typed [tilted "angle"] =
        TypedProgram.shapes <$> Program.typed [tilted "sigma_z"] ∧
      ((Scope.initial.inside (tilted "sigma_z")).lookup "sigma_z" :
        Except (Fault Float) Shape) = .ok .scalar ∧
      (scope.lookup "sigma_z" : Except (Fault Float) Shape) =
        Scope.initial.lookup "sigma_z" ∧
      (scope.lookup "angle" : Except (Fault Float) Shape) =
        refuse (.undeclaredIdentifier "angle") := by
  have hAccepted : (Program.walk Scope.check .initial
      [tilted "sigma_z"]).toOption.isSome = true := by
    decide
  rcases Option.isSome_iff_exists.1 hAccepted with ⟨scope, hScope⟩
  rw [toOption_eq_some_iff] at hScope
  have hFresh : ∀ name ∈ ["sigma_z"],
      (Expr.binary .multiply (.identifier "sigma_z")
        (.identifier "sigma_x") : Expr Float).Mentions "angle" →
          "angle" ∈ ["sigma_z"] := by
    intro name _ hMentions
    rw [Expr.mentions_binary_iff, Expr.mentions_identifier_iff,
      Expr.mentions_identifier_iff] at hMentions
    revert hMentions
    decide
  have hBody : (tilted "sigma_z").body? = some (["sigma_z"],
      .binary .multiply (.identifier "sigma_z")
        (.identifier "sigma_x")) := rfl
  rcases parameters_lexically_scoped [] [] hBody with
    ⟨hRenamed, hInside, hOutside, hAfter⟩
  have hTop := hOutside [tilted "sigma_z"] [] scope rfl hScope
  refine ⟨scope, hScope, hRenamed (fun _ => "angle") hFresh,
    (hInside .initial rfl).2.1 "sigma_z" (by decide), ?_, ?_⟩
  · exact hAfter .initial scope rfl (walk_single.1 hScope) "sigma_z"
      (by decide)
  · have hUnknown := hTop.2 "angle" (by decide) ?_ [] (by decide)
    · rwa [← hTop.1] at hUnknown
    · rintro ⟨d, hMember, hName⟩
      rw [List.mem_singleton.1 hMember] at hName
      exact absurd hName (by decide)

end Program

end QuantumLab
