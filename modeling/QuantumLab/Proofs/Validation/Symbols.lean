import QuantumLab.Double
import QuantumLab.Proofs.Evaluation.Unsupported
import QuantumLab.Proofs.Program.Assignments
import QuantumLab.Proofs.Validation.Hermiticity

/-
  This file says which declared quantities validation leaves
  without a value, and so without a check: those whose
  definitions lead, through the definitions of the names in
  them, to a symbol, a function, a Hamiltonian with parameters
  or a call, but also those that lead to an operation that is
  not carried out on its operands.

  Key definitions include:
    * `Program.Symbolic`, `Program.Inoperable`
    * `Program.Reaches`, `Program.Undefined`

  Main statements:
    * `Program.blocked_of_undefined` and
      `Program.undefined_of_blocked` compare what an
      expression leads to with what stops its evaluation.
    * `Program.undefined_iff_reaches` says which quantities
      are left without a value.
-/

------------------------------------------------------------
-- Steps
------------------------------------------------------------

namespace QuantumLab

variable {R : Type} [Arithmetic R]

namespace Environment

variable
  {env : Environment R}
  {d : Statement R}
  {e : Expr R}

/- A name whose definition is blocked is known without a value. -/
theorem after_of_blocked
    (hDefinition : d.definition? = some e)
    (hBlocked : env.Blocked e) :
    env.after d = env.declareSymbolic d.name := by
  rw [after_of_definition hDefinition, declare]
  cases hValue : env.evaluate e with
  | ok value => exact absurd hBlocked (not_blocked_of_evaluate hValue)
  | error fault => rfl

end Environment

namespace Validator

variable
  {tolerance : R}
  {v next : Validator R}
  {d : Statement R}
  {e : Expr R}

/- A declaration leaves its name without a value if it is blocked. -/
theorem Checks.isSymbolic_iff
    (hChecks : Checks tolerance v d next)
    (hDefinition : d.definition? = some e) :
    next.environment.isSymbolic d.name = true ↔
      v.environment.Blocked e := by
  rcases hChecks.evaluated hDefinition with ⟨value?, hEvaluated⟩
  rw [← Environment.evaluate?_eq_none_iff hEvaluated, hChecks.environment,
    Environment.after_of_definition hDefinition]
  cases value? with
  | none =>
      rw [Environment.declare_of_none hEvaluated]
      simp
  | some value =>
      rw [Environment.declare_of_ok
        (Environment.evaluate?_eq_some_iff.1 hEvaluated)]
      simp

/-
  A declaration that is not blocked gives a value to its name,
  and the value of a Hamiltonian has been checked.
-/
theorem Checks.exists_value
    (hChecks : Checks tolerance v d next)
    (hDefinition : d.definition? = some e)
    (hValued : ¬ v.environment.Blocked e) :
    ∃ value, v.environment.evaluate e = .ok value ∧
      next.environment.lookup d.name = some value ∧
      (d.isHamiltonian = true → ∃ h, value = .matrix h ∧
        requireHermitian tolerance d.name h = .ok ()) := by
  cases hChecks.defines hDefinition with
  | undefined hNone =>
      exact absurd ((Environment.evaluate?_eq_none_iff hNone).1 rfl)
        hValued
  | quantity hOther hValue =>
      refine ⟨_, hValue, ?_, ?_⟩
      · simp [define]
      · simp [hOther]
  | hamiltonian hHamiltonian hValue hHermitian =>
      refine ⟨_, hValue, ?_, fun _ => ⟨_, rfl, hHermitian⟩⟩
      simp [define]

end Validator

end QuantumLab

------------------------------------------------------------
-- What expressions lead to
------------------------------------------------------------

namespace QuantumLab

variable {R : Type}

namespace Program

/-
  An expression stands for no number: it is the name of a
  symbol, of a function or of a Hamiltonian with parameters,
  or it is a call.
-/
inductive Symbolic (pre : Program R) : Expr R → Prop
  | name
      {before : Program R}
      {d : Statement R}
      {name : String} :
      pre.LastAssigns name before d →
      d.declaresSymbol = true →
      pre.Symbolic (.identifier name)
  | call
      {function : String}
      {arguments : List (Expr R)} :
      pre.Symbolic (.call function arguments)

/- An operation is not carried out on the values of its operands. -/
def Inoperable
    [Arithmetic R]
    (pre : Program R)
    (e : Expr R) : Prop :=
  pre.environment.Inoperable e

/-
  An expression leads to an expression of a kind: the latter
  is part of it, or part of what its names are defined by.
-/
inductive Reaches
    (kind : Program R → Expr R → Prop) :
    Program R → Expr R → Prop
  | here
      {pre : Program R}
      {e part : Expr R} :
      part.Part e →
      kind pre part →
      Reaches kind pre e
  | through
      {pre before : Program R}
      {d : Statement R}
      {name : String}
      {e definition : Expr R} :
      e.Mentions name →
      pre.LastAssigns name before d →
      d.definition? = some definition →
      Reaches kind before definition →
      Reaches kind pre e

theorem Reaches.imp
    {kind kind' : Program R → Expr R → Prop}
    {pre : Program R}
    {e : Expr R}
    (hKinds : ∀ pre part, kind pre part → kind' pre part)
    (hReaches : Reaches kind pre e) :
    Reaches kind' pre e := by
  induction hReaches with
  | here hPart hKind => exact .here hPart (hKinds _ _ hKind)
  | through hMentions hLast hDefinition _ ih =>
      exact .through hMentions hLast hDefinition ih

/- What leads to one of two kinds leads to the one or the other. -/
theorem reaches_or_iff
    {kind kind' : Program R → Expr R → Prop}
    {pre : Program R}
    {e : Expr R} :
    Reaches (fun pre part => kind pre part ∨ kind' pre part) pre e ↔
      Reaches kind pre e ∨ Reaches kind' pre e := by
  constructor
  · intro hReaches
    induction hReaches with
    | here hPart hKind =>
        exact hKind.imp (.here hPart) (.here hPart)
    | through hMentions hLast hDefinition _ ih =>
        exact ih.imp (.through hMentions hLast hDefinition)
          (.through hMentions hLast hDefinition)
  · rintro (hReaches | hReaches)
    · exact hReaches.imp fun _ _ => .inl
    · exact hReaches.imp fun _ _ => .inr

/-
  An expression has no value: it leads to a symbol or the
  like, or to an operation that is not carried out.
-/
def Undefined [Arithmetic R] (pre : Program R) (e : Expr R) : Prop :=
  Reaches (fun pre part => pre.Symbolic part ∨ pre.Inoperable part)
    pre e

variable
  [Arithmetic R]
  {tolerance : R}
  {pre before : Program R}
  {d : Statement R}
  {name : String}
  {e : Expr R}

/- A name whose last declaration gives it no value blocks its uses. -/
theorem LastAssigns.blocks
    (hLast : pre.LastAssigns name before d)
    (hUndefined : before.environment.after d =
      before.environment.declareSymbolic d.name) :
    pre.environment.Blocks (.identifier name) := by
  have hNamed : d.name = name := by
    rcases hLast with ⟨_, _, hAssigns, _⟩
    exact hAssigns.named
  refine .symbol ?_ ?_
  · rw [hLast.lookup, hUndefined, hNamed]
    simp
  · rw [hLast.isSymbolic, hUndefined, hNamed]
    simp

/- An expression that leads to a part without a value is blocked. -/
theorem blocked_of_undefined
    (hUndefined : pre.Undefined e) :
    pre.environment.Blocked e := by
  induction hUndefined with
  | here hPart hKind =>
      refine ⟨_, hPart, ?_⟩
      rcases hKind with hSymbolic | hInoperable
      · cases hSymbolic with
        | name hLast hSymbol =>
            exact hLast.blocks
              (Environment.after_of_declaresSymbol hSymbol _)
        | call => exact .call
      · exact .operation hInoperable
  | through hMentions hLast hDefinition _ ih =>
      exact ⟨_, hMentions,
        hLast.blocks (Environment.after_of_blocked hDefinition ih)⟩

/-
  A name that is known without a value was last declared as a
  symbol or the like, or by a definition that is blocked.
-/
theorem exists_of_isSymbolic
    {v : Validator R}
    (hWalk : pre.walk (Validator.check tolerance) .initial = .ok v)
    (hSymbolic : pre.environment.isSymbolic name = true) :
    ∃ before d, pre.LastAssigns name before d ∧
      (d.declaresSymbol = true ∨
        ∃ definition v', d.definition? = some definition ∧
          before.walk (Validator.check tolerance) .initial = .ok v' ∧
          before.environment.Blocked definition) := by
  rcases lastAssigns_or_unassigned pre name with
    ⟨before, d, hLast⟩ | hNone
  · refine ⟨before, d, hLast, ?_⟩
    rw [hLast.isSymbolic] at hSymbolic
    rcases hLast with ⟨after, rfl, ⟨rfl, hAssigns⟩, _⟩
    refine hAssigns.symm.imp_right fun hDefined => ?_
    rcases Option.isSome_iff_exists.1 hDefined with
      ⟨definition, hDefinition⟩
    rcases walk_append.1 hWalk with ⟨v', hBefore, hRest⟩
    rcases walk_cons.1 hRest with ⟨next, hStep, _⟩
    have hChecks := Validator.checks_of_check hStep
    have hNames := environment_of_validation hBefore
    rw [← hNames, ← hChecks.environment,
      hChecks.isSymbolic_iff hDefinition, hNames] at hSymbolic
    exact ⟨definition, v', hDefinition, hBefore, hSymbolic⟩
  · rw [isSymbolic_of_unassigned hNone] at hSymbolic
    cases hSymbolic

/-
  In a program that is validated nothing else blocks an
  expression.  The declarations of the names in it come before
  it, so following them ends.
-/
theorem undefined_of_blocked
    {v : Validator R}
    (hWalk : pre.walk (Validator.check tolerance) .initial = .ok v)
    (hBlocked : pre.environment.Blocked e) :
    pre.Undefined e := by
  induction hLength : pre.length using Nat.strong_induction_on
      generalizing pre e v with
  | _ n ih =>
      rcases hBlocked with ⟨part, hPart, hBlocks⟩
      cases hBlocks with
      | symbol hLookup hSymbolic =>
          rcases exists_of_isSymbolic hWalk hSymbolic with
            ⟨before, d, hLast, hSymbol | ⟨definition, v', hRest⟩⟩
          · exact .here hPart (.inl (.name hLast hSymbol))
          · rcases hRest with ⟨hDefinition, hBefore, hDeeper⟩
            exact .through hPart hLast hDefinition
              (ih _ (hLength ▸ hLast.length_lt) hBefore hDeeper rfl)
      | call => exact .here hPart (.inl .call)
      | operation hInoperable => exact .here hPart (.inr hInoperable)

end Program

end QuantumLab

------------------------------------------------------------
-- Programs
------------------------------------------------------------

namespace QuantumLab

variable {R : Type} [Arithmetic R]

namespace Program

/-
  Which declared quantities of a validated program are left
  without a value: those whose definitions lead to a symbol, a
  function, a Hamiltonian with parameters or a call, and those
  that lead to an operation that is not carried out on its
  operands.  All others have the values of their definitions,
  and a Hamiltonian has been checked.
-/
theorem undefined_iff_reaches
    {tolerance : R}
    {typed : TypedProgram R}
    {validated : ValidatedProgram R}
    {pre post : Program R}
    {d : Statement R}
    {e : Expr R}
    (hValidated : typed.validated tolerance = .ok validated)
    (hProgram : typed.program = pre ++ d :: post)
    (hDefinition : d.definition? = some e) :
    ∃ v next,
      pre.walk (Validator.check tolerance) .initial = .ok v ∧
      Validator.check tolerance v d = .ok next ∧
      (next.environment.isSymbolic d.name = true ↔
        Reaches Symbolic pre e ∨ Reaches Inoperable pre e) ∧
      (next.environment.isSymbolic d.name = false →
        ∃ value, v.environment.evaluate e = .ok value ∧
          next.environment.lookup d.name = some value ∧
          (d.isHamiltonian = true → ∃ h, value = .matrix h ∧
            h.rows = h.cols ∧
            Arithmetic.less tolerance h.hermiticityGap = false)) := by
  rcases bind_eq_ok_iff.1 hValidated with ⟨last, hWalk, _⟩
  rw [hProgram] at hWalk
  rcases walk_append.1 hWalk with ⟨v, hBefore, hRest⟩
  rcases walk_cons.1 hRest with ⟨next, hStep, _⟩
  have hChecks := Validator.checks_of_check hStep
  have hUndefined := hChecks.isSymbolic_iff hDefinition
  refine ⟨v, next, hBefore, hStep, ?_, ?_⟩
  · rw [hUndefined, environment_of_validation hBefore, ← reaches_or_iff]
    exact ⟨undefined_of_blocked hBefore, blocked_of_undefined⟩
  · intro hValued
    rw [← Bool.not_eq_true, hUndefined] at hValued
    rcases hChecks.exists_value hDefinition hValued with
      ⟨value, hValue, hLookup, hHamiltonian⟩
    refine ⟨value, hValue, hLookup, fun hKind => ?_⟩
    rcases hHamiltonian hKind with ⟨h, rfl, hHermitian⟩
    rw [requireHermitian_eq_ok_iff] at hHermitian
    exact ⟨h, rfl, hHermitian⟩

/- A quantity that depends on a symbol. -/
def halfRate : Statement Float :=
  .const "half"
    (.binary .divide (.identifier "omega") (.number ⟨2, 0⟩))

/- A Hamiltonian that depends on that quantity. -/
def slowDrive : Expr Float :=
  .binary .multiply (.identifier "half") (.identifier "sigma_x")

/- The Hamiltonian has no value, since the symbol has none. -/
theorem undefined_iff_reaches_slowDrive :
    ∃ v next,
      walk (Validator.check defaultValidationTolerance) .initial
        [.symbol "omega", halfRate] = .ok v ∧
      Validator.check defaultValidationTolerance v
        (.hamiltonian "drive" [] slowDrive) = .ok next ∧
      next.environment.isSymbolic "drive" = true := by
  have hAccepted : (do
      let typed ← (Program.typed [.symbol "omega", halfRate,
        .hamiltonian "drive" [] slowDrive]).toOption
      let validated ←
        (typed.validated defaultValidationTolerance).toOption
      return (typed, validated)).isSome = true := by
    decide +kernel
  rcases Option.isSome_iff_exists.1 hAccepted with ⟨_, hStages⟩
  simp only [Option.bind_eq_bind, Option.bind_eq_some_iff,
    toOption_eq_some_iff] at hStages
  rcases hStages with ⟨typed, hTyped, validated, hValidated, _⟩
  rcases bind_eq_ok_iff.1 hTyped with ⟨scope, _, hDone⟩
  cases pure_eq_ok_iff.1 hDone
  have hHalf : LastAssigns [.symbol "omega", halfRate] "half"
      [.symbol "omega"] halfRate :=
    ⟨[], rfl, Statement.assigns_of_definition rfl, nofun⟩
  have hOmega : LastAssigns [.symbol "omega"] "omega" []
      (.symbol "omega" : Statement Float) :=
    ⟨[], rfl, Statement.assigns_of_declaresSymbol rfl, nofun⟩
  have hReaches : Reaches Symbolic [.symbol "omega", halfRate]
      slowDrive :=
    .through (.lhs .self) hHalf rfl
      (.here (.lhs .self) (.name hOmega rfl))
  have hProgram : [.symbol "omega", halfRate,
        .hamiltonian "drive" [] slowDrive] =
      [.symbol "omega", halfRate] ++
        .hamiltonian "drive" [] slowDrive :: [] := rfl
  rcases undefined_iff_reaches hValidated hProgram rfl with
    ⟨v, next, hBefore, hStep, hUndefined, _⟩
  exact ⟨v, next, hBefore, hStep, hUndefined.2 (.inl hReaches)⟩

/- The product of two predefined operators, which is not Hermitian. -/
def turn : Expr Float :=
  .binary .multiply (.identifier "sigma_x") (.identifier "sigma_y")

/- The first power of the product. -/
def firstPower : Expr Float :=
  .binary .power turn (.number ⟨1, 0⟩)

/-
  A Hamiltonian that leads to no symbol is accepted without a
  value, for it is a power of a matrix.  The matrix itself is
  turned down.
-/
theorem power_left_unchecked :
    (∃ typed validated next,
      Program.typed [.hamiltonian "h" [] firstPower] = .ok typed ∧
      typed.validated defaultValidationTolerance = .ok validated ∧
      Validator.check defaultValidationTolerance .initial
        (.hamiltonian "h" [] firstPower) = .ok next ∧
      next.environment.isSymbolic "h" = true) ∧
    ¬ Reaches Symbolic [] firstPower ∧
    (Validator.check defaultValidationTolerance .initial
      (.hamiltonian "h" [] turn)).toOption = none := by
  have hAccepted : (do
      let typed ← (Program.typed
        [.hamiltonian "h" [] firstPower]).toOption
      let _ ← (typed.validated defaultValidationTolerance).toOption
      let next ← (Validator.check defaultValidationTolerance .initial
        (.hamiltonian "h" [] firstPower)).toOption
      return next.environment.isSymbolic "h") = some true := by
    decide +kernel
  simp only [Option.bind_eq_bind, Option.bind_eq_some_iff,
    toOption_eq_some_iff] at hAccepted
  rcases hAccepted with
    ⟨typed, hTyped, validated, hValidated, next, hStep, hSymbolic⟩
  refine ⟨⟨typed, validated, next, hTyped, hValidated, hStep,
    Option.some.inj hSymbolic⟩, ?_, by decide +kernel⟩
  have hUnassigned (name : String) (before : Program Float)
      (d : Statement Float) : ¬ LastAssigns [] name before d := by
    rintro ⟨after, hEmpty, _⟩
    simp at hEmpty
  intro hReaches
  cases hReaches with
  | here hPart hSymbolic =>
      cases hSymbolic with
      | name hLast hSymbol => exact hUnassigned _ _ _ hLast
      | call =>
          rcases hPart with _ | _ | _ | hLhs | hRhs
          · rcases hLhs with _ | _ | _ | hLhs | hRhs
            · cases hLhs
            · cases hRhs
          · cases hRhs
  | through _ hLast _ _ => exact hUnassigned _ _ _ hLast

end Program

end QuantumLab
