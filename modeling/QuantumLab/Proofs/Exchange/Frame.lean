import QuantumLab.Proofs.Exchange.Experiments
import QuantumLab.Proofs.Exchange.Plans

/-
  This file says that a lowering never looks at the
  experiments that have been planned: with others in their
  place, it goes on in the same way.

  Key definitions include:
    * `Lowering.withExperiments`
    * `Lowering.Beside`
    * `Lowering.Exchanged`

  Main statements:
    * `Lowering.tracks_addStatement_of_beside` says that
      statements add the same beside other experiments.
    * `Lowering.tracks_addStatement_of_exchanged` says that
      two experiments that are exchanged stay so.
-/

------------------------------------------------------------
-- Other experiments
------------------------------------------------------------

namespace QuantumLab

variable {R : Type}

namespace Lowering

/- The state with other experiments. -/
def withExperiments
    (s : Lowering R)
    (es : List (PlannedExperiment R)) : Lowering R :=
  { s with plan := { s.plan with experiments := es } }

/-
  Two lowerings are the same, but for the experiments that
  are planned.
-/
structure Beside
    (es es' : List (PlannedExperiment R))
    (s s' : Lowering R) : Prop where
  experiments : s.plan.experiments = es
  same : s' = s.withExperiments es'

/- The same result, and states that are the same. -/
def BesideWith
    {α : Type}
    (es es' : List (PlannedExperiment R))
    (p p' : α × Lowering R) : Prop :=
  p'.1 = p.1 ∧ Beside es es' p.2 p'.2

variable
  {es es' : List (PlannedExperiment R)}
  {s s' : Lowering R}

theorem Beside.emit
    (hBeside : Beside es es' s s')
    (operation : Operation R)
    (shape : Shape) :
    BesideWith es es' (s.emit operation shape)
      (s'.emit operation shape) := by
  rcases hBeside with ⟨hExperiments, rfl⟩
  exact ⟨rfl, hExperiments, rfl⟩

theorem Beside.bind
    (hBeside : Beside es es' s s')
    (name : String)
    (id : NodeId) :
    Beside es es' (s.bind name id) (s'.bind name id) := by
  rcases hBeside with ⟨hExperiments, rfl⟩
  exact ⟨hExperiments, rfl⟩

theorem Beside.declareSymbolic
    (hBeside : Beside es es' s s')
    (name : String) :
    Beside es es' (s.declareSymbolic name) (s'.declareSymbolic name) := by
  rcases hBeside with ⟨hExperiments, rfl⟩
  exact ⟨hExperiments, rfl⟩

theorem Beside.define
    (hBeside : Beside es es' s s')
    (name : String)
    (value : Value R) :
    Beside es es' (s.define name value) (s'.define name value) := by
  rcases hBeside with ⟨hExperiments, rfl⟩
  exact ⟨hExperiments, rfl⟩

theorem Beside.environment
    (hBeside : Beside es es' s s') :
    s'.environment = s.environment := by
  rcases hBeside with ⟨_, rfl⟩
  rfl

theorem Beside.shapeOf
    (hBeside : Beside es es' s s')
    (id : NodeId) :
    s'.shapeOf id = s.shapeOf id := by
  rcases hBeside with ⟨_, rfl⟩
  rfl

/- The new state is beside the other one, bound to the same node. -/
theorem BesideWith.bind
    {p p' : NodeId × Lowering R}
    (hBeside : BesideWith es es' p p')
    (name : String) :
    Beside es es' (p.2.bind name p.1) (p'.2.bind name p'.1) := by
  rcases hBeside with ⟨hSame, hStates⟩
  rw [hSame]
  exact hStates.bind name p.1

variable [Arithmetic R]

/- Experiments do not matter to names. -/
theorem resolve_withExperiments
    {t : Lowering R}
    {name : String}
    {id : NodeId}
    (hResolve : s.resolve name = .ok (id, t))
    (es : List (PlannedExperiment R)) :
    (s.withExperiments es).resolve name =
      .ok (id, t.withExperiments es) := by
  rcases resolve_eq_ok_iff.1 hResolve with
    ⟨hSymbol, rfl⟩ | ⟨hSymbol, hSymbolic, a, hFound, rfl, rfl⟩
  · exact resolve_eq_ok_iff.2 (.inl ⟨hSymbol, rfl⟩)
  · exact resolve_eq_ok_iff.2
      (.inr ⟨hSymbol, hSymbolic, a, hFound, rfl, rfl⟩)

theorem ResolvesAll.withExperiments
    {t : Lowering R}
    {names : List String}
    (hResolves : s.ResolvesAll names t)
    (es : List (PlannedExperiment R)) :
    (s.withExperiments es).ResolvesAll names (t.withExperiments es) := by
  induction hResolves with
  | nil => exact .nil
  | cons hFirst _ ih => exact .cons (resolve_withExperiments hFirst es) ih

omit [Arithmetic R] in
/- Names stay what they are when experiments are planned. -/
theorem includes_withExperiments
    (s : Lowering R)
    (es : List (PlannedExperiment R)) :
    s.Includes (s.withExperiments es) where
  symbols _ _ hSymbol := hSymbol
  measurements := rfl
  environment := rfl

theorem tracks_resolve_of_beside
    (hBeside : Beside es es' s s')
    (name : String) :
    Tracks (BesideWith es es') (s.resolve name) (s'.resolve name) := by
  rcases hBeside with ⟨hExperiments, rfl⟩
  rintro ⟨id, t⟩ hResolve
  have hSame := (appends_resolve hResolve).experiments
  exact ⟨_, resolve_withExperiments hResolve es', rfl,
    hSame.trans hExperiments, rfl⟩

end Lowering

end QuantumLab

------------------------------------------------------------
-- Expressions
------------------------------------------------------------

namespace QuantumLab

variable {R : Type} [Arithmetic R]

namespace Lowering

variable
  {es es' : List (PlannedExperiment R)}
  {s s' : Lowering R}
  {e : Expr R}

omit [Arithmetic R] in
theorem Beside.emitConstant
    (hBeside : Beside es es' s s')
    (name : String)
    (value : Value R) :
    BesideWith es es' (s.emitConstant name value)
      (s'.emitConstant name value) :=
  hBeside.emit _ _

/- Operations on two nodes. -/
theorem Beside.emitBinary
    (hBeside : Beside es es' s s')
    (op : BinaryOp)
    (l r : NodeId) :
    BesideWith es es' (s.emitBinary op l r) (s'.emitBinary op l r) := by
  rcases hBeside with ⟨hExperiments, rfl⟩
  cases op with
  | multiply =>
      change BesideWith es es' (s.emitProduct l r)
        ((s.withExperiments es').emitProduct l r)
      have hShape : (s.withExperiments es').shapeOf = s.shapeOf := rfl
      unfold emitProduct
      simp only [hShape]
      split
      · exact ⟨rfl, hExperiments, rfl⟩
      · split
        · exact ⟨rfl, hExperiments, rfl⟩
        · split
          · exact ⟨rfl, hExperiments, rfl⟩
          · exact ⟨rfl, hExperiments, rfl⟩
  | _ => exact ⟨rfl, hExperiments, rfl⟩

omit [Arithmetic R] in
/- Operations on one node. -/
theorem Beside.emitUnary
    (hBeside : Beside es es' s s')
    (op : UnaryOp)
    (operand : NodeId) :
    BesideWith es es' (s.emitUnary op operand)
      (s'.emitUnary op operand) := by
  rcases hBeside with ⟨hExperiments, rfl⟩
  cases op with
  | _ => exact ⟨rfl, hExperiments, rfl⟩

omit [Arithmetic R] in
theorem Beside.emitQuotient
    (hBeside : Beside es es' s s')
    (factor : Scalar R)
    (dividend : NodeId) :
    BesideWith es es' (s.emitQuotient factor dividend)
      (s'.emitQuotient factor dividend) := by
  rcases hBeside with ⟨hExperiments, rfl⟩
  exact ⟨rfl, hExperiments, rfl⟩

theorem tracks_fold_of_beside
    (hBeside : Beside es es' s s')
    (function : String)
    (e : Expr R) :
    Tracks (BesideWith es es') (s.fold function e)
      (s'.fold function e) := by
  refine Tracks.bind_same (by rw [hBeside.environment]) fun value? _ => ?_
  cases value? with
  | none => exact .of_error
  | some value =>
      cases value with
      | scalar z => exact .of_ok (hBeside.emitConstant "" (.scalar z))
      | vector v => exact .of_error
      | matrix a => exact .of_error

/- A literal is loaded beside other experiments. -/
theorem tracks_literal_of_beside
    (hBeside : Beside es es' s s')
    (e : Expr R) :
    Tracks (BesideWith es es')
      (do
        let value ← s.environment.evaluate e
        return s.emitConstant "" value)
      (do
        let value ← s'.environment.evaluate e
        return s'.emitConstant "" value) :=
  Tracks.bind_same (by rw [hBeside.environment])
    fun value _ => .of_ok (hBeside.emitConstant "" value)

theorem tracks_binary_of_beside
    {lhs rhs : Expr R}
    (hBeside : Beside es es' s s')
    (hLhs : ∀ {s s'}, Beside es es' s s' →
      Tracks (BesideWith es es') (s.lower lhs) (s'.lower lhs))
    (hRhs : ∀ {s s'}, Beside es es' s s' →
      Tracks (BesideWith es es') (s.lower rhs) (s'.lower rhs))
    (op : BinaryOp) :
    Tracks (BesideWith es es')
      (do
        let (l, s) ← s.lower lhs
        let (r, s) ← s.lower rhs
        return s.emitBinary op l r)
      (do
        let (l, s) ← s'.lower lhs
        let (r, s) ← s.lower rhs
        return s.emitBinary op l r) := by
  refine (hLhs hBeside).bind ?_
  rintro ⟨_, s₁⟩ ⟨l, s₁'⟩ ⟨rfl, hBeside₁⟩
  refine (hRhs hBeside₁).bind ?_
  rintro ⟨_, s₂⟩ ⟨r, s₂'⟩ ⟨rfl, hBeside₂⟩
  exact .of_ok (hBeside₂.emitBinary op l r)

/- An expression is lowered to the same node beside other experiments. -/
theorem tracks_lower_of_beside
    (hBeside : Beside es es' s s')
    (e : Expr R) :
    Tracks (BesideWith es es') (s.lower e) (s'.lower e) := by
  induction e using Expr.induction generalizing s s' with
  | missing => exact .of_error
  | number z => exact .of_ok (hBeside.emitConstant "" (.scalar z))
  | identifier name => exact tracks_resolve_of_beside hBeside name
  | matrix rows => exact tracks_literal_of_beside hBeside _
  | vector elements => exact tracks_literal_of_beside hBeside _
  | binary op lhs rhs ihLhs ihRhs =>
      have hBinary := tracks_binary_of_beside hBeside ihLhs ihRhs
      cases op with
      | power => exact tracks_fold_of_beside hBeside "Exponentiation" _
      | divide =>
          have hReciprocal : s'.reciprocal rhs = s.reciprocal rhs := by
            rw [reciprocal, hBeside.environment, reciprocal]
          refine Tracks.bind_same hReciprocal fun factor _ => ?_
          refine (ihLhs hBeside).bind ?_
          rintro ⟨_, s₁⟩ ⟨k, s₁'⟩ ⟨rfl, hBeside₁⟩
          exact .of_ok (hBeside₁.emitQuotient factor k)
      | add => exact hBinary .add
      | subtract => exact hBinary .subtract
      | multiply => exact hBinary .multiply
      | tensor => exact hBinary .tensor
      | commutator => exact hBinary .commutator
      | anticommutator => exact hBinary .anticommutator
  | unary op operand ih =>
      cases op with
      | sqrt => exact tracks_fold_of_beside hBeside "Square root" _
      | sin => exact tracks_fold_of_beside hBeside "Sine" _
      | cos => exact tracks_fold_of_beside hBeside "Cosine" _
      | exp => exact tracks_fold_of_beside hBeside "Exponential" _
      | dagger =>
          refine (ih hBeside).bind ?_
          rintro ⟨_, s₁⟩ ⟨k, s₁'⟩ ⟨rfl, hBeside₁⟩
          exact .of_ok (hBeside₁.emitUnary .dagger k)
      | trace =>
          refine (ih hBeside).bind ?_
          rintro ⟨_, s₁⟩ ⟨k, s₁'⟩ ⟨rfl, hBeside₁⟩
          exact .of_ok (hBeside₁.emitUnary .trace k)
      | expm =>
          refine (ih hBeside).bind ?_
          rintro ⟨_, s₁⟩ ⟨k, s₁'⟩ ⟨rfl, hBeside₁⟩
          simp only [hBeside₁.shapeOf]
          split
          · exact tracks_fold_of_beside hBeside₁ "Exponential" _
          · have hExponential := hBeside₁.emitUnary .expm k
            simp only [Lowering.emitUnary, hBeside₁.shapeOf]
              at hExponential
            exact .of_ok hExponential
  | call function arguments => exact .of_error

end Lowering

end QuantumLab

------------------------------------------------------------
-- Statements
------------------------------------------------------------

namespace QuantumLab

variable {R : Type} [Arithmetic R]

namespace Lowering

variable
  {es es' : List (PlannedExperiment R)}
  {s s' : Lowering R}

theorem tracks_addConst_of_beside
    (hBeside : Beside es es' s s')
    (name : String)
    (e : Expr R) :
    Tracks (Beside es es') (s.addConst name e) (s'.addConst name e) := by
  refine Tracks.bind_same (by rw [hBeside.environment]) fun value? _ => ?_
  cases value? with
  | none => exact .of_ok (hBeside.declareSymbolic name)
  | some value =>
      have hConstant := (hBeside.define name value).emitConstant name value
      exact .of_ok (hConstant.bind name)

/- An expression is lowered and its node gets a name. -/
theorem tracks_lower_bind_of_beside
    (hBeside : Beside es es' s s')
    (name : String)
    (e : Expr R) :
    Tracks (Beside es es')
      (do
        let (id, s) ← s.lower e
        return s.bind name id)
      (do
        let (id, s) ← s'.lower e
        return s.bind name id) := by
  refine (tracks_lower_of_beside hBeside e).bind ?_
  rintro ⟨id, t⟩ ⟨id', t'⟩ hResult
  exact .of_ok (hResult.bind name)

theorem tracks_addQuantity_of_beside
    (hBeside : Beside es es' s s')
    (name : String)
    (e : Expr R) :
    Tracks (Beside es es') (s.addQuantity name e)
      (s'.addQuantity name e) := by
  refine Tracks.bind_same (by rw [hBeside.environment]) fun value? _ => ?_
  cases value? with
  | none => exact .of_ok (hBeside.declareSymbolic name)
  | some value =>
      have hDefined := hBeside.define name value
      simp only
      split
      · exact .of_ok ((hDefined.emitConstant name value).bind name)
      · exact tracks_lower_bind_of_beside hDefined name e

theorem tracks_addHamiltonian_of_beside
    (hBeside : Beside es es' s s')
    (name : String)
    (parameters : List String)
    (e : Expr R) :
    Tracks (Beside es es') (s.addHamiltonian name parameters e)
      (s'.addHamiltonian name parameters e) := by
  cases parameters with
  | cons parameter rest => exact .of_ok (hBeside.declareSymbolic name)
  | nil =>
      refine Tracks.bind_same (by rw [hBeside.environment])
        fun value? _ => ?_
      cases value? with
      | none => exact .of_ok (hBeside.declareSymbolic name)
      | some value =>
          exact tracks_lower_bind_of_beside (hBeside.define name value)
            name e

theorem tracks_emitOperators_of_beside
    (hBeside : Beside es es' s s')
    (name : String)
    (k : Nat)
    (operators : List (Expr R)) :
    Tracks (BesideWith es es') (s.emitOperators name k operators)
      (s'.emitOperators name k operators) := by
  induction operators generalizing s s' k with
  | nil => exact .of_ok ⟨rfl, hBeside⟩
  | cons operator rest ih =>
      refine Tracks.bind_same (by rw [hBeside.environment])
        fun value _ => ?_
      rcases hBeside.emitConstant (operatorName name k) value with
        ⟨hSame, hBeside₁⟩
      refine (ih hBeside₁ (k + 1)).bind ?_
      rintro ⟨_, t⟩ ⟨ids, t'⟩ ⟨rfl, hBeside₂⟩
      exact .of_ok ⟨congrArg (· :: ids) hSame, hBeside₂⟩

theorem tracks_addMeasurement_of_beside
    (hBeside : Beside es es' s s')
    (name : String)
    (kind : MeasurementKind)
    (operators : List (Expr R)) :
    Tracks (Beside es es') (s.addMeasurement name kind operators)
      (s'.addMeasurement name kind operators) := by
  refine (tracks_emitOperators_of_beside hBeside name 0 operators).bind ?_
  rintro ⟨_, t⟩ ⟨ids, t'⟩ ⟨rfl, hExperiments, hSame⟩
  simp only at hExperiments hSame
  subst hSame
  exact .of_ok ⟨hExperiments, rfl⟩

/-
  A statement that is no experiment adds the same beside
  other experiments.
-/
theorem tracks_addStatement_of_beside
    {d : Statement R}
    (hBeside : Beside es es' s s')
    (hOther : d.experiment? = none) :
    Tracks (Beside es es') (s.addStatement d) (s'.addStatement d) := by
  cases d with
  | empty => exact .of_error
  | const name e => exact tracks_addConst_of_beside hBeside name e
  | symbol name => exact .of_ok (hBeside.declareSymbolic name)
  | matrix name e => exact tracks_addQuantity_of_beside hBeside name e
  | function name parameters body =>
      exact .of_ok (hBeside.declareSymbolic name)
  | hamiltonian name parameters e =>
      exact tracks_addHamiltonian_of_beside hBeside name parameters e
  | measurement name kind operators =>
      exact tracks_addMeasurement_of_beside hBeside name kind operators
  | experiment x => cases hOther

/- A statement that is no experiment plans none. -/
theorem experiments_of_addStatement
    {t : Lowering R}
    {d : Statement R}
    (hOther : d.experiment? = none)
    (hAdd : s.addStatement d = .ok t) :
    t.plan.experiments = s.plan.experiments := by
  have hBeside : Beside s.plan.experiments s.plan.experiments s s :=
    ⟨rfl, rfl⟩
  rcases tracks_addStatement_of_beside hBeside hOther t hAdd with
    ⟨_, _, hSame, _⟩
  exact hSame

/-
  An experiment is planned in the same way, whatever other
  experiments there are.
-/
theorem addExperiment_withExperiments
    {t : Lowering R}
    {x : Experiment R}
    (hAdd : s.addExperiment x = .ok t) :
    ∃ planned, t.plan.experiments = s.plan.experiments ++ [planned] ∧
      ∀ es, (s.withExperiments es).addExperiment x =
        .ok (t.withExperiments (es ++ [planned])) := by
  rcases addExperiment_eq_ok_iff.1 hAdd with
    ⟨name, value, mid, planned, hStarts, hAll, hReads, hPlace, rfl⟩
  refine ⟨planned, ?_, fun es => ?_⟩
  · exact congrArg (· ++ [planned]) hAll.appends.experiments
  · exact addExperiment_eq_ok_iff.2
      ⟨name, value, mid.withExperiments es, planned, hStarts,
        hAll.withExperiments es,
        hReads.later (includes_withExperiments mid es), hPlace, rfl⟩

end Lowering

end QuantumLab

------------------------------------------------------------
-- Experiments that are exchanged
------------------------------------------------------------

namespace QuantumLab

variable {R : Type} [Arithmetic R]

namespace Lowering

/- Two lowerings are the same, but for two adjacent experiments. -/
def Exchanged (k : Nat) (s s' : Lowering R) : Prop :=
  ∃ es, QuantumLab.Exchanged k s.plan.experiments es ∧
    s' = s.withExperiments es

variable
  {k : Nat}
  {s s' : Lowering R}

omit [Arithmetic R] in
theorem Exchanged.plans
    (hExchanged : Exchanged k s s') :
    s.plan.Exchanged k s'.plan := by
  rcases hExchanged with ⟨es, hExperiments, rfl⟩
  exact ⟨rfl, hExperiments⟩

/- Experiments that are exchanged stay so. -/
theorem tracks_addStatement_of_exchanged
    (hExchanged : Exchanged k s s')
    (d : Statement R) :
    Tracks (Exchanged k) (s.addStatement d) (s'.addStatement d) := by
  rcases hExchanged with ⟨es, hExperiments, rfl⟩
  intro t hAdd
  cases hExperiment : d.experiment? with
  | none =>
      rcases tracks_addStatement_of_beside ⟨rfl, rfl⟩ hExperiment t hAdd
        with ⟨_, hAdd', hSame, rfl⟩
      refine ⟨_, hAdd', es, ?_, rfl⟩
      rw [hSame]
      exact hExperiments
  | some x =>
      cases Statement.experiment?_eq_some_iff.1 hExperiment
      rcases addExperiment_withExperiments hAdd with
        ⟨planned, hPlanned, hOthers⟩
      refine ⟨_, hOthers es, _, ?_, rfl⟩
      rw [hPlanned]
      exact hExperiments.append [planned]

end Lowering

end QuantumLab
