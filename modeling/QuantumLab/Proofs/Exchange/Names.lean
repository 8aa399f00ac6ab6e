import Mathlib.Data.Fintype.EquivFin
import Mathlib.Order.Filter.Cofinite
import QuantumLab.Proofs.Irrelevance.Names

/-
  This file says which names a program avoids: all but
  finitely many.  Expressions with a value also avoid every
  name that has none.

  Main statements:
    * `Program.exists_avoided` says that there is a name that
      no statement of a program mentions.
    * `Environment.avoids_of_evaluate` says that an expression
      with a value avoids the names without one.
-/

------------------------------------------------------------
-- Names that parts avoid
------------------------------------------------------------

namespace QuantumLab

variable {R : Type}

namespace Expr.Avoids

variable {name : String}

theorem missing
    (name : String) :
    (Expr.missing : Expr R).Avoids name :=
  ⟨nofun, nofun⟩

theorem matrix
    {rows : List (List (Expr R))}
    (hEach : ∀ row ∈ rows, ∀ e ∈ row, e.Avoids name) :
    (Expr.matrix rows).Avoids name where
  mentions hMentions := by
    cases hMentions with
    | entry hRow hElement hPart =>
        exact (hEach _ hRow _ hElement).mentions hPart
  calls arguments hCall := by
    cases hCall with
    | entry hRow hElement hPart =>
        exact (hEach _ hRow _ hElement).calls _ hPart

theorem binary
    {lhs rhs : Expr R}
    (hLhs : lhs.Avoids name)
    (hRhs : rhs.Avoids name)
    (op : BinaryOp) :
    (Expr.binary op lhs rhs).Avoids name where
  mentions hMentions := by
    cases hMentions with
    | lhs hPart => exact hLhs.mentions hPart
    | rhs hPart => exact hRhs.mentions hPart
  calls arguments hCall := by
    cases hCall with
    | lhs hPart => exact hLhs.calls _ hPart
    | rhs hPart => exact hRhs.calls _ hPart

theorem unary
    {operand : Expr R}
    (hOperand : operand.Avoids name)
    (op : UnaryOp) :
    (Expr.unary op operand).Avoids name where
  mentions hMentions := by
    cases hMentions with
    | operand hPart => exact hOperand.mentions hPart
  calls arguments hCall := by
    cases hCall with
    | operand hPart => exact hOperand.calls _ hPart

theorem call
    {function : String}
    {arguments : List (Expr R)}
    (hOther : function ≠ name)
    (hEach : ∀ e ∈ arguments, e.Avoids name) :
    (Expr.call function arguments).Avoids name where
  mentions hMentions := by
    cases hMentions with
    | argument hMember hPart => exact (hEach _ hMember).mentions hPart
  calls others hCall := by
    cases hCall with
    | self => exact hOther rfl
    | argument hMember hPart => exact (hEach _ hMember).calls _ hPart

end Expr.Avoids

end QuantumLab

------------------------------------------------------------
-- All but finitely many names
------------------------------------------------------------

namespace QuantumLab

open Filter

variable {R : Type}

/- What holds of each member for almost all names holds of all members. -/
theorem eventually_forall_mem
    {α : Type}
    {xs : List α}
    {P : α → String → Prop}
    (hEach : ∀ x ∈ xs, ∀ᶠ name in cofinite, P x name) :
    ∀ᶠ name in cofinite, ∀ x ∈ xs, P x name :=
  (eventually_all_finite xs.finite_toSet).2 hEach

theorem eventually_ne
    (other : String) :
    ∀ᶠ name in cofinite, other ≠ name :=
  (eventually_cofinite_ne other).mono fun _ hOther => hOther.symm

namespace Expr

/- An expression avoids almost all names. -/
theorem eventually_avoids
    (e : Expr R) :
    ∀ᶠ name in cofinite, e.Avoids name := by
  induction e using Expr.induction with
  | missing => exact .of_forall .missing
  | number z => exact .of_forall (.number z)
  | identifier other =>
      exact (eventually_ne other).mono fun _ hOther =>
        .identifier hOther
  | matrix rows ih =>
      have hEach := eventually_forall_mem fun row hRow =>
        eventually_forall_mem (ih row hRow)
      exact hEach.mono fun _ hAvoids => .matrix hAvoids
  | vector elements ih =>
      exact (eventually_forall_mem ih).mono fun _ hAvoids =>
        .vector hAvoids
  | binary op lhs rhs ihLhs ihRhs =>
      exact (ihLhs.and ihRhs).mono fun _ hAvoids =>
        .binary hAvoids.1 hAvoids.2 op
  | unary op operand ih =>
      exact ih.mono fun _ hAvoids => .unary hAvoids op
  | call function arguments ih =>
      have hEach := eventually_forall_mem ih
      exact ((eventually_ne function).and hEach).mono
        fun _ hAvoids => .call hAvoids.1 hAvoids.2

end Expr

theorem Evolution.eventually_avoids
    (evolution : Evolution R) :
    ∀ᶠ name in cofinite, evolution.Avoids name := by
  have hOperators := eventually_forall_mem
    fun (term : LindbladTerm R) (_ : term ∈ evolution.terms) =>
      eventually_ne term.operator
  have hRates := eventually_forall_mem
    fun (term : LindbladTerm R) (_ : term ∈ evolution.terms) =>
      term.rate.eventually_avoids
  exact ((eventually_ne evolution.hamiltonian).and
    (hOperators.and hRates)).mono fun _ hAvoids =>
      ⟨hAvoids.1, hAvoids.2.1, hAvoids.2.2⟩

theorem Experiment.eventually_avoids
    (x : Experiment R) :
    ∀ᶠ name in cofinite, x.Avoids name := by
  have hState : ∀ᶠ name in cofinite, ∀ state,
      x.initialState = some state → state.value.Avoids name := by
    cases x.initialState with
    | none => exact .of_forall nofun
    | some state =>
        refine state.value.eventually_avoids.mono fun _ hAvoids => ?_
        rintro _ ⟨⟩
        exact hAvoids
  have hEvolution : ∀ᶠ name in cofinite, ∀ evolution,
      x.evolution = some evolution → evolution.Avoids name := by
    cases x.evolution with
    | none => exact .of_forall nofun
    | some evolution =>
        refine evolution.eventually_avoids.mono fun _ hAvoids => ?_
        rintro _ ⟨⟩
        exact hAvoids
  have hSchedule := eventually_forall_mem
    fun (event : Event R) (_ : event ∈ x.schedule) =>
      eventually_ne event.measurement
  exact (hState.and (hEvolution.and hSchedule)).mono
    fun _ hAvoids => ⟨hAvoids.1, hAvoids.2.1, hAvoids.2.2⟩

theorem Statement.eventually_avoids
    (d : Statement R) :
    ∀ᶠ name in cofinite, d.Avoids name := by
  cases d with
  | empty => exact .of_forall fun _ => trivial
  | symbol _ => exact .of_forall fun _ => trivial
  | const _ e => exact e.eventually_avoids
  | matrix _ e => exact e.eventually_avoids
  | function _ _ body => exact body.eventually_avoids
  | hamiltonian _ _ e => exact e.eventually_avoids
  | measurement _ _ operators =>
      exact eventually_forall_mem fun (e : Expr R) _ =>
        e.eventually_avoids
  | experiment x => exact x.eventually_avoids

/- There is a name that no statement of a program mentions. -/
theorem Program.exists_avoided
    (program : Program R) :
    ∃ name, ∀ d ∈ program, d.Avoids name :=
  (eventually_forall_mem fun (d : Statement R) (_ : d ∈ program) =>
    d.eventually_avoids).exists

end QuantumLab

------------------------------------------------------------
-- Names without a value
------------------------------------------------------------

namespace QuantumLab

variable {R : Type} [Arithmetic R]

namespace Environment

variable
  {env : Environment R}
  {e : Expr R}
  {value : Value R}
  {name : String}

/- An expression with a value avoids the names without one. -/
theorem avoids_of_evaluate
    (hValue : env.evaluate e = .ok value)
    (hUnknown : env.lookup name = none) :
    e.Avoids name := by
  induction e using Expr.induction generalizing value with
  | missing => exact .missing name
  | number z => exact .number z name
  | identifier other =>
      rw [evaluate, resolve_eq_ok_iff] at hValue
      refine .identifier ?_
      rintro rfl
      cases hUnknown.symm.trans hValue
  | matrix rows ih =>
      unfold evaluate at hValue
      split at hValue
      · exact absurd hValue refuse_ne_ok
      · rcases bind_eq_ok_iff.1 hValue with ⟨entries, hEntries, _⟩
        refine .matrix fun row hRow element hElement => ?_
        rcases (exists_of_evaluateRows hEntries row hRow).2 element
          hElement with ⟨z, hScalar⟩
        exact ih row hRow element hElement hScalar
  | vector elements ih =>
      unfold evaluate at hValue
      split at hValue
      · exact absurd hValue refuse_ne_ok
      · rcases bind_eq_ok_iff.1 hValue with ⟨entries, hEntries, _⟩
        refine .vector fun element hElement => ?_
        rcases exists_of_evaluateElements hEntries element hElement with
          ⟨z, hScalar⟩
        exact ih element hElement hScalar
  | binary op lhs rhs ihLhs ihRhs =>
      unfold evaluate at hValue
      rcases bind_eq_ok_iff.1 hValue with ⟨a, hLhs, hRest⟩
      rcases bind_eq_ok_iff.1 hRest with ⟨b, hRhs, _⟩
      exact .binary (ihLhs hLhs) (ihRhs hRhs) op
  | unary op operand ih =>
      unfold evaluate at hValue
      rcases bind_eq_ok_iff.1 hValue with ⟨a, hOperand, _⟩
      exact .unary (ih hOperand) op
  | call function arguments => exact absurd hValue refuse_ne_ok

theorem avoids_of_evaluateReal
    {usage : String}
    {r : R}
    (hReal : env.evaluateReal usage e = .ok r)
    (hUnknown : env.lookup name = none) :
    e.Avoids name := by
  rcases bind_eq_ok_iff.1 hReal with ⟨value, hValue, _⟩
  exact avoids_of_evaluate hValue hUnknown

end Environment

end QuantumLab
