import QuantumLab.Proofs.Program.Stages
import QuantumLab.Proofs.Typing.Expressions

/-
  This file says when a program makes no use of a name, and
  that the values of its expressions then do not depend on
  what the name stands for.

  Key definitions include:
    * `Expr.Avoids`, `Statement.Avoids`
    * `Program.Ignores`
    * `Table.AgreesOutside`, `Table.AgreesOff`
    * `Environment.AgreesOff`

  Main statements:
    * `Environment.evaluate_agreesOff` says that the value of
      an expression does not depend on a name that does not
      occur in it.
-/

------------------------------------------------------------
-- Names that are not used
------------------------------------------------------------

namespace QuantumLab

variable {R : Type}

/- A name does not occur in an expression, nor is it called. -/
structure Expr.Avoids (e : Expr R) (name : String) : Prop where
  mentions : ¬ e.Mentions name
  calls : ∀ arguments, ¬ (Expr.call name arguments).Part e

/- What a whole avoids, its parts do. -/
theorem Expr.Avoids.part
    {e whole : Expr R}
    {name : String}
    (hAvoids : whole.Avoids name)
    (hParts : ∀ part : Expr R, part.Part e → part.Part whole) :
    e.Avoids name where
  mentions hMentions := hAvoids.mentions (hParts _ hMentions)
  calls arguments hCall := hAvoids.calls arguments (hParts _ hCall)

namespace Expr.Avoids

variable {name other : String}

theorem number
    (z : Scalar R)
    (name : String) :
    (Expr.number z).Avoids name :=
  ⟨nofun, nofun⟩

theorem identifier
    (hOther : other ≠ name) :
    (Expr.identifier other : Expr R).Avoids name where
  mentions hMentions := by
    cases hMentions
    exact hOther rfl
  calls := nofun

theorem vector
    {elements : List (Expr R)}
    (hEach : ∀ e ∈ elements, e.Avoids name) :
    (Expr.vector elements).Avoids name where
  mentions hMentions := by
    cases hMentions with
    | component hMember hPart => exact (hEach _ hMember).mentions hPart
  calls arguments hCall := by
    cases hCall with
    | component hMember hPart => exact (hEach _ hMember).calls _ hPart

end Expr.Avoids

/- A name does not occur in an evolution. -/
structure Evolution.Avoids
    (evolution : Evolution R)
    (name : String) : Prop where
  hamiltonian : evolution.hamiltonian ≠ name
  operators : ∀ term ∈ evolution.terms, term.operator ≠ name
  rates : ∀ term ∈ evolution.terms, term.rate.Avoids name

/- A name does not occur in an experiment. -/
structure Experiment.Avoids
    (x : Experiment R)
    (name : String) : Prop where
  state : ∀ state, x.initialState = some state →
    state.value.Avoids name
  evolution : ∀ evolution, x.evolution = some evolution →
    evolution.Avoids name
  schedule : ∀ event ∈ x.schedule, event.measurement ≠ name

namespace Statement

/- A name does not occur in what a statement declares. -/
def Avoids (d : Statement R) (name : String) : Prop :=
  match d with
  | .empty => True
  | .symbol _ => True
  | .const _ e => e.Avoids name
  | .matrix _ e => e.Avoids name
  | .function _ _ body => body.Avoids name
  | .hamiltonian _ _ e => e.Avoids name
  | .measurement _ _ operators => ∀ e ∈ operators, e.Avoids name
  | .experiment x => x.Avoids name

/-
  The name that a statement declares; an experiment declares
  that of its initial state.
-/
def declared : Statement R → String
  | .experiment x => initialStateName x.name
  | d => d.name

end Statement

/- A program neither declares a name nor mentions it. -/
def Program.Ignores (program : Program R) (name : String) : Prop :=
  ∀ d ∈ program, d.declared ≠ name ∧ d.Avoids name

end QuantumLab

------------------------------------------------------------
-- Tables
------------------------------------------------------------

namespace QuantumLab

namespace Table

/- Two tables hold the same under every name that is not hidden. -/
def AgreesOutside
    {α : Type}
    (hidden : String → Prop)
    (t t' : Table α) : Prop :=
  ∀ name, ¬ hidden name → t'.find? name = t.find? name

variable
  {α : Type}
  {hidden : String → Prop}
  {name other : String}
  {t t' : Table α}

theorem AgreesOutside.contains
    (hAgrees : AgreesOutside hidden t t')
    (hSeen : ¬ hidden name) :
    t'.contains name = t.contains name := by
  rw [Table.contains, hAgrees name hSeen, Table.contains]

theorem AgreesOutside.insert
    (hAgrees : AgreesOutside hidden t t')
    (name : String)
    (value : α) :
    AgreesOutside hidden (t.insert name value)
      (t'.insert name value) := by
  intro other hSeen
  rw [find?_insert, find?_insert, hAgrees other hSeen]

theorem AgreesOutside.erase
    (hAgrees : AgreesOutside hidden t t')
    (name : String) :
    AgreesOutside hidden (t.erase name) (t'.erase name) := by
  intro other hSeen
  rw [find?_erase, find?_erase, hAgrees other hSeen]

/- What is held under a name does not matter outside of it. -/
theorem agreesOutside_insert
    (t : Table α)
    (name : String)
    (value : α) :
    AgreesOutside (· = name) (t.insert name value) t := by
  intro other hOther
  rw [find?_insert, if_neg (Ne.symm hOther)]

theorem agreesOutside_erase
    (t : Table α)
    (name : String) :
    AgreesOutside (· = name) (t.erase name) t := by
  intro other hOther
  rw [find?_erase, if_neg (Ne.symm hOther)]

/- Tables that agree about all names are the same. -/
theorem AgreesOutside.eq
    (hAgrees : AgreesOutside (fun _ => False) t t') :
    t' = t :=
  ext_find? fun name => hAgrees name not_false

/- Two tables hold the same under every name but one. -/
def AgreesOff {α : Type} (name : String) (t t' : Table α) : Prop :=
  ∀ other, other ≠ name → t'.find? other = t.find? other

theorem AgreesOff.refl (t : Table α) : AgreesOff name t t :=
  fun _ _ => rfl

theorem AgreesOff.agreesOutside
    (hAgrees : AgreesOff name t t') :
    AgreesOutside (· = name) t t' :=
  hAgrees

theorem AgreesOff.contains
    (hAgrees : AgreesOff name t t')
    (hOther : other ≠ name) :
    t'.contains other = t.contains other :=
  hAgrees.agreesOutside.contains hOther

theorem AgreesOff.insert
    (hAgrees : AgreesOff name t t')
    (other : String)
    (value : α) :
    AgreesOff name (t.insert other value) (t'.insert other value) :=
  hAgrees.agreesOutside.insert other value

theorem AgreesOff.erase
    (hAgrees : AgreesOff name t t')
    (other : String) :
    AgreesOff name (t.erase other) (t'.erase other) :=
  hAgrees.agreesOutside.erase other

theorem AgreesOff.insert_right
    (hAgrees : AgreesOff name t t')
    (value : α) :
    AgreesOff name t (t'.insert name value) := by
  intro key hKey
  rw [find?_insert, if_neg hKey.symm, hAgrees key hKey]

theorem AgreesOff.erase_right
    (hAgrees : AgreesOff name t t') :
    AgreesOff name t (t'.erase name) := by
  intro key hKey
  rw [find?_erase, if_neg hKey.symm, hAgrees key hKey]

end Table

end QuantumLab

------------------------------------------------------------
-- Values of names
------------------------------------------------------------

namespace QuantumLab

variable {R : Type}

namespace Environment

/- Two environments agree about every name but one. -/
structure AgreesOff
    (name : String)
    (env env' : Environment R) : Prop where
  values : Table.AgreesOff name env.values env'.values
  symbolic : Table.AgreesOff name env.symbolic env'.symbolic

variable
  {name other : String}
  {env env' : Environment R}

theorem AgreesOff.refl
    (name : String)
    (env : Environment R) :
    AgreesOff name env env :=
  ⟨.refl _, .refl _⟩

theorem AgreesOff.lookup
    (hAgrees : AgreesOff name env env')
    (hOther : other ≠ name) :
    env'.lookup other = env.lookup other :=
  hAgrees.values other hOther

theorem AgreesOff.isSymbolic
    (hAgrees : AgreesOff name env env')
    (hOther : other ≠ name) :
    env'.isSymbolic other = env.isSymbolic other :=
  hAgrees.symbolic.contains hOther

theorem AgreesOff.define
    (hAgrees : AgreesOff name env env')
    (other : String)
    (value : Value R) :
    AgreesOff name (env.define other value) (env'.define other value) :=
  ⟨hAgrees.values.insert other value, hAgrees.symbolic.erase other⟩

theorem AgreesOff.declareSymbolic
    (hAgrees : AgreesOff name env env')
    (other : String) :
    AgreesOff name (env.declareSymbolic other)
      (env'.declareSymbolic other) :=
  ⟨hAgrees.values.erase other, hAgrees.symbolic.insert other ()⟩

theorem AgreesOff.define_right
    (hAgrees : AgreesOff name env env')
    (value : Value R) :
    AgreesOff name env (env'.define name value) :=
  ⟨hAgrees.values.insert_right value, hAgrees.symbolic.erase_right⟩

theorem AgreesOff.declareSymbolic_right
    (hAgrees : AgreesOff name env env') :
    AgreesOff name env (env'.declareSymbolic name) :=
  ⟨hAgrees.values.erase_right, hAgrees.symbolic.insert_right ()⟩

theorem AgreesOff.resolve
    (hAgrees : AgreesOff name env env')
    (hOther : other ≠ name) :
    env'.resolve other = env.resolve other := by
  rw [Environment.resolve, hAgrees.lookup hOther,
    hAgrees.isSymbolic hOther, Environment.resolve]

end Environment

end QuantumLab

------------------------------------------------------------
-- Values of expressions
------------------------------------------------------------

namespace QuantumLab

variable {R : Type} [Arithmetic R]

namespace Environment

variable
  {name : String}
  {env env' : Environment R}

theorem evaluateElements_congr
    {elements : List (Expr R)}
    (hEach : ∀ element ∈ elements,
      env'.evaluate element = env.evaluate element) :
    env'.evaluateElements elements = env.evaluateElements elements := by
  induction elements with
  | nil => simp [evaluateElements]
  | cons element rest ih =>
      rcases List.forall_mem_cons.1 hEach with ⟨hHead, hTail⟩
      simp only [evaluateElements, hHead, ih hTail]

theorem evaluateRows_congr
    {rows : List (List (Expr R))}
    (columns k : Nat)
    (hEach : ∀ row ∈ rows, ∀ element ∈ row,
      env'.evaluate element = env.evaluate element) :
    env'.evaluateRows columns k rows = env.evaluateRows columns k rows := by
  induction rows generalizing k with
  | nil => simp [evaluateRows]
  | cons row rest ih =>
      rcases List.forall_mem_cons.1 hEach with ⟨hHead, hTail⟩
      simp only [evaluateRows, evaluateElements_congr hHead,
        ih (k + 1) hTail]

/- A name that does not occur in an expression does not matter to it. -/
theorem evaluate_agreesOff
    {e : Expr R}
    (hAgrees : AgreesOff name env env')
    (hAvoids : e.Avoids name) :
    env'.evaluate e = env.evaluate e := by
  induction e using Expr.induction with
  | missing => simp [evaluate]
  | number z => simp [evaluate]
  | identifier other =>
      have hOther : other ≠ name := by
        rintro rfl
        exact hAvoids.mentions .self
      simp only [evaluate, hAgrees.resolve hOther]
  | matrix rows ih =>
      have hRows := evaluateRows_congr (Expr.columns rows) 0
        fun row hRow element hElement =>
          ih row hRow element hElement
            (hAvoids.part fun _ => .entry hRow hElement)
      simp only [evaluate, hRows]
  | vector elements ih =>
      have hElements := evaluateElements_congr fun element hElement =>
        ih element hElement
          (hAvoids.part fun _ => .component hElement)
      simp only [evaluate, hElements]
  | binary op lhs rhs ihLhs ihRhs =>
      have hLhs := ihLhs (hAvoids.part fun _ => .lhs)
      have hRhs := ihRhs (hAvoids.part fun _ => .rhs)
      simp only [evaluate, hLhs, hRhs]
  | unary op operand ih =>
      have hOperand := ih (hAvoids.part fun _ => .operand)
      simp only [evaluate, hOperand]
  | call function arguments => simp [evaluate]

theorem evaluate?_agreesOff
    {e : Expr R}
    (hAgrees : AgreesOff name env env')
    (hAvoids : e.Avoids name) :
    env'.evaluate? e = env.evaluate? e := by
  rw [evaluate?, evaluate_agreesOff hAgrees hAvoids, evaluate?]

theorem evaluateReal_agreesOff
    {e : Expr R}
    (hAgrees : AgreesOff name env env')
    (hAvoids : e.Avoids name)
    (usage : String) :
    env'.evaluateReal usage e = env.evaluateReal usage e := by
  rw [evaluateReal, evaluate_agreesOff hAgrees hAvoids, evaluateReal]

end Environment

end QuantumLab
