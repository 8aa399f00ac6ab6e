import QuantumLab.Proofs.Program.Stages

/-
  This file says which statement of a program decides what a
  name stands for: the last one that assigns the name.

  Key definitions include:
    * `Statement.Assigns`
    * `Program.LastAssigns`

  Main statements:
    * `Program.lastAssigns_or_unassigned` says that a name has
      such a statement, or that no statement assigns it.
    * `Program.LastAssigns.lookup` and
      `Program.LastAssigns.isSymbolic` say that what a name
      stands for after a program is what it stands for after
      that statement.
-/

------------------------------------------------------------
-- Statements that assign a name
------------------------------------------------------------

namespace QuantumLab

variable {R : Type}

/- A statement gives a name a value, or makes it known without one. -/
structure Statement.Assigns
    (d : Statement R)
    (name : String) : Prop where
  named : d.name = name
  assigns : d.definition?.isSome = true ∨ d.declaresSymbol = true

theorem Statement.assigns_of_definition
    {d : Statement R}
    {e : Expr R}
    (hDefinition : d.definition? = some e) :
    d.Assigns d.name :=
  ⟨rfl, .inl (by rw [hDefinition, Option.isSome_some])⟩

theorem Statement.assigns_of_declaresSymbol
    {d : Statement R}
    (hSymbol : d.declaresSymbol = true) :
    d.Assigns d.name :=
  ⟨rfl, .inr hSymbol⟩

namespace Environment

variable [Arithmetic R]

variable
  {d : Statement R}
  {name : String}

/-
  After a statement every name stands for what it stood for
  before, unless the statement assigns it.
-/
theorem after_of_not_assigns
    (env : Environment R)
    (hOther : ¬ d.Assigns name) :
    (env.after d).lookup name = env.lookup name ∧
      (env.after d).isSymbolic name = env.isSymbolic name := by
  cases hDefinition : d.definition? with
  | some e =>
      have hName : d.name ≠ name := by
        rintro rfl
        exact hOther (Statement.assigns_of_definition hDefinition)
      rw [after_of_definition hDefinition, declare]
      cases env.evaluate e with
      | ok value => simp [hName]
      | error fault => simp [hName]
  | none =>
      by_cases hSymbol : d.declaresSymbol = true
      · have hName : d.name ≠ name := by
          rintro rfl
          exact hOther (Statement.assigns_of_declaresSymbol hSymbol)
        rw [after_of_declaresSymbol hSymbol]
        simp [hName]
      · rw [after, hDefinition]
        simp [hSymbol]

end Environment

end QuantumLab

------------------------------------------------------------
-- The last statement that assigns a name
------------------------------------------------------------

namespace QuantumLab

variable {R : Type}

namespace Program

/- A statement assigns a name, and no later one does. -/
def LastAssigns
    (program : Program R)
    (name : String)
    (before : Program R)
    (d : Statement R) : Prop :=
  ∃ after, program = before ++ d :: after ∧ d.Assigns name ∧
    ∀ later ∈ after, ¬ later.Assigns name

variable
  {program before : Program R}
  {name : String}
  {d : Statement R}

theorem lastAssigns_or_unassigned
    (program : Program R)
    (name : String) :
    (∃ before d, program.LastAssigns name before d) ∨
      ∀ d ∈ program, ¬ d.Assigns name := by
  induction program using List.reverseRecOn with
  | nil => exact .inr (by simp)
  | append_singleton pre d ih =>
      by_cases hAssigns : d.Assigns name
      · exact .inl ⟨pre, d, [], rfl, hAssigns, by simp⟩
      · rcases ih with ⟨before, first, after, rfl, hFirst, hAfter⟩ | hNone
        · refine .inl ⟨before, first, after ++ [d], by simp, hFirst, ?_⟩
          intro later hLater
          rcases List.mem_append.1 hLater with hEarlier | hLast
          · exact hAfter later hEarlier
          · rwa [List.mem_singleton.1 hLast]
        · refine .inr fun later hLater => ?_
          rcases List.mem_append.1 hLater with hEarlier | hLast
          · exact hNone later hEarlier
          · rwa [List.mem_singleton.1 hLast]

theorem LastAssigns.length_lt
    (hLast : program.LastAssigns name before d) :
    before.length < program.length := by
  rcases hLast with ⟨after, rfl, _, _⟩
  simp only [List.length_append, List.length_cons]
  omega

variable [Arithmetic R]

/- Statements that do not assign a name do not change what it stands for. -/
theorem foldl_after_of_unassigned
    {rest : Program R}
    (env : Environment R)
    (hNone : ∀ d ∈ rest, ¬ d.Assigns name) :
    (rest.foldl Environment.after env).lookup name = env.lookup name ∧
      (rest.foldl Environment.after env).isSymbolic name =
        env.isSymbolic name := by
  induction rest generalizing env with
  | nil => exact ⟨rfl, rfl⟩
  | cons d rest ih =>
      rcases List.forall_mem_cons.1 hNone with ⟨hHead, hTail⟩
      rcases Environment.after_of_not_assigns env hHead with
        ⟨hLookup, hSymbolic⟩
      rw [List.foldl_cons, (ih _ hTail).1, (ih _ hTail).2]
      exact ⟨hLookup, hSymbolic⟩

theorem isSymbolic_of_unassigned
    (hNone : ∀ d ∈ program, ¬ d.Assigns name) :
    program.environment.isSymbolic name = false := by
  rw [environment, (foldl_after_of_unassigned _ hNone).2,
    Environment.isSymbolic_initial]

theorem LastAssigns.lookup
    (hLast : program.LastAssigns name before d) :
    program.environment.lookup name =
      (before.environment.after d).lookup name := by
  rcases hLast with ⟨after, rfl, _, hAfter⟩
  rw [environment, List.foldl_append, List.foldl_cons,
    (foldl_after_of_unassigned _ hAfter).1, environment]

theorem LastAssigns.isSymbolic
    (hLast : program.LastAssigns name before d) :
    program.environment.isSymbolic name =
      (before.environment.after d).isSymbolic name := by
  rcases hLast with ⟨after, rfl, _, hAfter⟩
  rw [environment, List.foldl_append, List.foldl_cons,
    (foldl_after_of_unassigned _ hAfter).2, environment]

end Program

end QuantumLab
