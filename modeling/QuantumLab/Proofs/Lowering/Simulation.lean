import QuantumLab.Double
import QuantumLab.Proofs.Lowering.Nodes

/-
  This file says that lowering an expression adds nodes that
  compute what is planned for the expression.

  Key definitions include:
    * `Lowering.Binds`
    * `Environment.TensorsFit`
    * `Lowering.Coherent`

  Main statements:
    * `Lowering.Lowers.spec` says what the nodes of a
      lowered expression compute.
    * `Lowering.exists_lower` says that an expression with a
      value is lowered.
    * `Lowering.lower_coherent` says that a coherent state
      stays coherent, and when the node of an expression
      evaluates to the value of the expression.
-/

------------------------------------------------------------
-- Names and their nodes
------------------------------------------------------------

namespace QuantumLab

variable {R : Type} [Arithmetic R]

namespace Lowering

/-
  Every name with a value has a node that stands for it, or
  is a predefined operator that has none yet.  The nodes of
  names compute `nodes`.
-/
structure Binds
    (s : Lowering R)
    (exact : Prop)
    (names : Environment R)
    (nodes : String → Option (Value R)) : Prop where
  aligned : s.Aligned
  bound : ∀ name v, names.lookup name = some v →
    (∃ id, s.symbols.find? name = some id ∧
      s.Yields exact id v.shape (nodes name)) ∨
    (s.symbols.find? name = none ∧
      s.symbolic.contains name = false ∧
        ∃ a, Predefined.find? name = some a ∧ v = .matrix a ∧
          nodes name = some (.matrix a))

/- Names keep their nodes when nodes of no name are added. -/
theorem Binds.emits
    {s : Lowering R}
    {exact : Prop}
    {names : Environment R}
    {nodes : String → Option (Value R)}
    {emitted : NodeId × Lowering R}
    {shape : Shape}
    {value? : Option (Value R)}
    (hBinds : s.Binds exact names nodes)
    (hEmits : s.Emits exact emitted shape value?) :
    emitted.2.Binds exact names nodes where
  aligned := hEmits.aligned
  bound name v hName := by
    rw [hEmits.symbols, hEmits.symbolic]
    rcases hBinds.bound name v hName with
      ⟨id, hSymbol, hYields⟩ | hPredefined
    · exact .inl ⟨id, hSymbol,
        hYields.later hBinds.aligned hEmits.appends.toGrows⟩
    · exact .inr hPredefined

/- A name can be bound to a node that computes what the name stands for. -/
theorem Binds.bind
    {s : Lowering R}
    {exact : Prop}
    {names : Environment R}
    {nodes : String → Option (Value R)}
    {name : String}
    {id : NodeId}
    (hBinds : s.Binds exact names nodes)
    (hNode : ∀ v, names.lookup name = some v →
      s.Yields exact id v.shape (nodes name)) :
    (s.bind name id).Binds exact names nodes where
  aligned := hBinds.aligned
  bound other v hOther := by
    by_cases hSame : name = other
    · subst hSame
      refine .inl ⟨id, Table.find?_insert_self _ _ _, ?_⟩
      exact (hNode v hOther).later hBinds.aligned
        (s.appends_bind name id).toGrows
    · have hSymbol :
          (s.bind name id).symbols.find? other =
            s.symbols.find? other := by
        rw [Lowering.bind, Table.find?_insert, if_neg hSame]
      have hSymbolic :
          (s.bind name id).symbolic.contains other =
            s.symbolic.contains other := by
        rw [Lowering.bind, Table.contains_erase]
        simp [hSame]
      rw [hSymbol, hSymbolic]
      rcases hBinds.bound other v hOther with
        ⟨k, hFound, hYields⟩ | hPredefined
      · exact .inl ⟨k, hFound,
          hYields.later hBinds.aligned
            (s.appends_bind name id).toGrows⟩
      · exact .inr hPredefined

/- A name is resolved to a node that stands for it, if it has a value. -/
theorem Binds.resolve
    {s later : Lowering R}
    {exact : Prop}
    {names : Environment R}
    {nodes : String → Option (Value R)}
    {name : String}
    {id : NodeId}
    (hBinds : s.Binds exact names nodes)
    (hResolve : s.resolve name = .ok (id, later)) :
    s.Appends later ∧ later.Binds exact names nodes ∧
      ∀ v, names.lookup name = some v →
        later.Yields exact id v.shape (nodes name) := by
  rw [Lowering.resolve] at hResolve
  cases hSymbol : s.symbols.find? name with
  | some k =>
      rw [hSymbol] at hResolve
      cases hResolve
      refine ⟨Appends.refl s, hBinds, fun v hName => ?_⟩
      rcases hBinds.bound name v hName with
        ⟨k', hFound, hYields⟩ | ⟨hNone, _⟩
      · rw [hSymbol] at hFound
        cases hFound
        exact hYields
      · rw [hSymbol] at hNone
        cases hNone
  | none =>
      rw [hSymbol] at hResolve
      by_cases hSymbolic : s.symbolic.contains name = true
      · simp [hSymbolic] at hResolve
      · rw [Bool.not_eq_true] at hSymbolic
        simp only [hSymbolic, Bool.false_eq_true, if_false] at hResolve
        cases hFound : Predefined.find? (R := R) name with
        | none => simp [hFound] at hResolve
        | some a =>
            rw [hFound] at hResolve
            cases hResolve
            have hEmits :=
              emits_constant exact hBinds.aligned name (.matrix a)
            have hYields : ∀ v, names.lookup name = some v →
                (s.emitConstant name (.matrix a)).2.Yields exact
                  s.plan.size v.shape (nodes name) := by
              intro v hName
              rcases hBinds.bound name v hName with
                ⟨k, hBound, _⟩ | ⟨_, _, a', hFound', rfl, hNode⟩
              · rw [hSymbol] at hBound
                cases hBound
              · rw [hFound] at hFound'
                cases hFound'
                rw [hNode]
                exact hEmits.yields
            refine ⟨hEmits.appends.trans (appends_bind _ _ _),
              (hBinds.emits hEmits).bind hYields, fun v hName => ?_⟩
            exact (hYields v hName).later hEmits.aligned
              (appends_bind _ _ _).toGrows

/- A name with a value is resolved. -/
theorem Binds.exists_resolve
    {s : Lowering R}
    {exact : Prop}
    {names : Environment R}
    {nodes : String → Option (Value R)}
    {name : String}
    {v : Value R}
    (hBinds : s.Binds exact names nodes)
    (hName : names.lookup name = some v) :
    ∃ id later, s.resolve name = .ok (id, later) := by
  rw [Lowering.resolve]
  rcases hBinds.bound name v hName with
    ⟨k, hSymbol, _⟩ | ⟨hSymbol, hSymbolic, a, hFound, _⟩
  · rw [hSymbol]
    exact ⟨k, s, rfl⟩
  · rw [hSymbol]
    simp only [hSymbolic, Bool.false_eq_true, if_false, hFound]
    exact ⟨_, _, rfl⟩

end Lowering

end QuantumLab

------------------------------------------------------------
-- Expressions and their nodes
------------------------------------------------------------

namespace QuantumLab

variable {R : Type} [Arithmetic R]

/-
  The extents of the Kronecker products in an expression fit
  into machine words.
-/
def Environment.TensorsFit (names : Environment R) : Expr R → Prop
  | .binary .tensor lhs rhs =>
      (∀ v, names.evaluate (.binary .tensor lhs rhs) = .ok v →
        v.shape.rows < UInt64.size ∧ v.shape.cols < UInt64.size) ∧
        names.TensorsFit lhs ∧ names.TensorsFit rhs
  | .binary _ lhs rhs => names.TensorsFit lhs ∧ names.TensorsFit rhs
  | .unary _ operand => names.TensorsFit operand
  | _ => True

namespace Environment

variable {names : Environment R}

theorem TensorsFit.operands
    {op : BinaryOp}
    {lhs rhs : Expr R}
    (hFits : names.TensorsFit (.binary op lhs rhs)) :
    names.TensorsFit lhs ∧ names.TensorsFit rhs := by
  cases op with
  | tensor => exact hFits.2
  | add => exact hFits
  | subtract => exact hFits
  | multiply => exact hFits
  | divide => exact hFits
  | power => exact hFits
  | commutator => exact hFits
  | anticommutator => exact hFits

theorem TensorsFit.extents
    {op : BinaryOp}
    {lhs rhs : Expr R}
    {v : Value R}
    (hFits : names.TensorsFit (.binary op lhs rhs))
    (hValue : names.evaluate (.binary op lhs rhs) = .ok v)
    (hTensor : op = .tensor) :
    v.shape.rows < UInt64.size ∧ v.shape.cols < UInt64.size := by
  subst hTensor
  exact hFits.1 v hValue

end Environment

namespace Lowering

/-
  The nodes of a lowered expression only come after those
  that are there, and compute what is planned for the
  expression.
-/
theorem Lowers.spec
    {s later : Lowering R}
    {exact : Prop}
    {names : Environment R}
    {nodes : String → Option (Value R)}
    {e : Expr R}
    {id : NodeId}
    {v : Value R}
    (hLowers : Lowers s e id later)
    (hBinds : s.Binds exact names nodes)
    (hValue : names.evaluate e = .ok v)
    (hFits : exact → names.TensorsFit e) :
    s.Appends later ∧ later.Binds exact names nodes ∧
      later.Yields exact id v.shape
        (e.planned names s.environment nodes) := by
  induction hLowers generalizing v with
  | @constant s e value hFolded hConstant =>
      have hEmits := emits_constant exact hBinds.aligned "" value
      have hShape : value.shape = v.shape := by
        rw [Expr.shape_of_isFolded hFolded hConstant,
          Expr.shape_of_isFolded hFolded hValue]
      refine ⟨hEmits.appends, hBinds.emits hEmits, ?_⟩
      rw [Expr.planned_of_isFolded hFolded, hConstant, ← hShape]
      exact hEmits.yields
  | name hResolve =>
      rw [Environment.evaluate, Environment.resolve_eq_ok_iff] at hValue
      rcases hBinds.resolve hResolve with ⟨hAppends, hLater, hYields⟩
      exact ⟨hAppends, hLater, hYields v hValue⟩
  | @quotient s later lhs rhs w dividend hDivisor hNonzero _ ih =>
      unfold Environment.evaluate at hValue
      rcases bind_eq_ok_iff.1 hValue with ⟨a, hLhs, hRest⟩
      rcases bind_eq_ok_iff.1 hRest with ⟨b, _, hApplied⟩
      rcases ih hBinds hLhs fun h => (hFits h).operands.1 with
        ⟨hAppends, hBinds', hYields⟩
      have hEmits :=
        emits_quotient hBinds'.aligned hNonzero hYields
      refine ⟨hAppends.trans hEmits.appends, hBinds'.emits hEmits, ?_⟩
      rw [shape_divideValue hApplied, Expr.planned, hDivisor]
      exact hEmits.yields
  | @binary s first second op lhs rhs l r hPower hDivide _ _ ihL ihR =>
      have hWhole := hValue
      unfold Environment.evaluate at hValue
      rcases bind_eq_ok_iff.1 hValue with ⟨a, hLhs, hRest⟩
      rcases bind_eq_ok_iff.1 hRest with ⟨b, hRhs, hApplied⟩
      rcases ihL hBinds hLhs fun h => (hFits h).operands.1 with
        ⟨hFirst, hBindsFirst, hYieldsL⟩
      rcases ihR hBindsFirst hRhs fun h => (hFits h).operands.2 with
        ⟨hSecond, hBindsSecond, hYieldsR⟩
      rw [hFirst.environment] at hYieldsR
      have hEmits := emits_binary hPower hDivide hApplied
        (fun h hTensor => (hFits h).extents hWhole hTensor)
        hBindsSecond.aligned
        (hYieldsL.later hBindsFirst.aligned hSecond.toGrows) hYieldsR
      refine ⟨(hFirst.trans hSecond).trans hEmits.appends,
        hBindsSecond.emits hEmits, ?_⟩
      rw [Expr.planned_binary hPower hDivide]
      exact hEmits.yields
  | @unary s later op operand id hScalarFunction hShape _ ih =>
      unfold Environment.evaluate at hValue
      rcases bind_eq_ok_iff.1 hValue with ⟨a, hOperand, hApplied⟩
      rcases ih hBinds hOperand hFits with
        ⟨hAppends, hBinds', hYields⟩
      have hNotScalar : op = .expm → a.shape ≠ .scalar := by
        intro hExp hScalar
        have hRecorded := hYields.recorded.scalar_iff.2 hScalar
        rw [hShape hExp] at hRecorded
        cases hRecorded
      have hOther : op = .expm → names.isScalar operand = false := by
        intro hExp
        rw [← Bool.not_eq_true, Expr.isScalar_eq_true_iff hOperand]
        exact hNotScalar hExp
      have hEmits := emits_unary hScalarFunction hNotScalar
        hBinds'.aligned hYields
      refine ⟨hAppends.trans hEmits.appends, hBinds'.emits hEmits, ?_⟩
      rw [Expr.planned_unary hScalarFunction hOther,
        UnaryOp.shape_apply hApplied]
      exact hEmits.yields
  | @scalarExponential s later operand id z _ hRecorded hFold ih =>
      unfold Environment.evaluate at hValue
      rcases bind_eq_ok_iff.1 hValue with ⟨a, hOperand, hApplied⟩
      rcases ih hBinds hOperand hFits with
        ⟨hAppends, hBinds', hYields⟩
      have hScalar : a.shape = .scalar :=
        hYields.recorded.scalar_iff.1 hRecorded
      have hEmits :=
        emits_constant exact hBinds'.aligned "" (Value.scalar z)
      refine ⟨hAppends.trans hEmits.appends, hBinds'.emits hEmits, ?_⟩
      rw [hAppends.environment] at hFold
      rw [Expr.planned,
        if_pos ((Expr.isScalar_eq_true_iff hOperand).2 hScalar),
        Expr.scalar?_of_evaluate hFold rfl,
        UnaryOp.shape_apply hApplied, hScalar]
      exact hEmits.yields

theorem lower_binary
    {op : BinaryOp}
    (hPower : op ≠ .power)
    (hDivide : op ≠ .divide)
    (s : Lowering R)
    (lhs rhs : Expr R) :
    s.lower (.binary op lhs rhs) = (do
      let (l, s) ← s.lower lhs
      let (r, s) ← s.lower rhs
      return s.emitBinary op l r) := by
  cases op with
  | power => exact absurd rfl hPower
  | divide => exact absurd rfl hDivide
  | add => rfl
  | subtract => rfl
  | multiply => rfl
  | tensor => rfl
  | commutator => rfl
  | anticommutator => rfl

/- An expression that is folded is lowered if it has a value. -/
theorem exists_lower_of_isFolded
    {s : Lowering R}
    {e : Expr R}
    {v : Value R}
    (hFolded : e.isFolded = true)
    (hValue : s.environment.evaluate e = .ok v) :
    ∃ id later, s.lower e = .ok (id, later) := by
  have hShape := Expr.shape_of_isFolded hFolded hValue
  cases e with
  | missing => cases hFolded
  | number z => exact ⟨_, _, rfl⟩
  | identifier name => cases hFolded
  | matrix rows =>
      rw [lower, hValue]
      exact ⟨_, _, rfl⟩
  | vector elements =>
      rw [lower, hValue]
      exact ⟨_, _, rfl⟩
  | binary op lhs rhs =>
      cases op <;> cases hFolded
      rcases Value.exists_scalar hShape with ⟨z, rfl⟩
      exact ⟨_, _, fold_of_evaluate _ hValue⟩
  | unary op operand =>
      rcases Value.exists_scalar hShape with ⟨z, rfl⟩
      cases op <;> cases hFolded <;>
        exact ⟨_, _, fold_of_evaluate _ hValue⟩
  | call function arguments => cases hFolded

/- An expression with a value is lowered. -/
theorem exists_lower
    {s : Lowering R}
    {exact : Prop}
    {nodes : String → Option (Value R)}
    {e : Expr R}
    {v : Value R}
    (hBinds : s.Binds exact s.environment nodes)
    (hValue : s.environment.evaluate e = .ok v)
    (hFits : exact → s.environment.TensorsFit e) :
    ∃ id later, s.lower e = .ok (id, later) := by
  induction e using Expr.induction generalizing s v with
  | missing => exact absurd hValue refuse_ne_ok
  | number z => exact exists_lower_of_isFolded rfl hValue
  | identifier name =>
      rw [Environment.evaluate, Environment.resolve_eq_ok_iff] at hValue
      exact hBinds.exists_resolve hValue
  | matrix rows _ => exact exists_lower_of_isFolded rfl hValue
  | vector elements _ => exact exists_lower_of_isFolded rfl hValue
  | binary op lhs rhs ihLhs ihRhs =>
      by_cases hPower : op = .power
      · subst hPower
        exact exists_lower_of_isFolded rfl hValue
      · unfold Environment.evaluate at hValue
        rcases bind_eq_ok_iff.1 hValue with ⟨a, hLhs, hRest⟩
        rcases bind_eq_ok_iff.1 hRest with ⟨b, hRhs, hApplied⟩
        rcases ihLhs hBinds hLhs fun h => (hFits h).operands.1 with
          ⟨l, first, hFirst⟩
        by_cases hDivide : op = .divide
        · subst hDivide
          cases b with
          | vector v => exact absurd hApplied refuse_ne_ok
          | matrix a => exact absurd hApplied refuse_ne_ok
          | scalar w =>
              have hNonzero : w.isZero = false := by
                rw [← Bool.not_eq_true]
                intro hZero
                simp [BinaryOp.apply, divideValue, hZero] at hApplied
              rw [lower, reciprocal_of_evaluate hRhs hNonzero, ok_bind,
                hFirst]
              exact ⟨_, _, rfl⟩
        · rcases (lowers_of_lower hFirst).spec hBinds hLhs
              fun h => (hFits h).operands.1 with
            ⟨hAppends, hBindsFirst, _⟩
          rw [← hAppends.environment] at hBindsFirst hRhs hFits
          rcases ihRhs hBindsFirst hRhs
              fun h => (hFits h).operands.2 with
            ⟨r, second, hSecond⟩
          rw [lower_binary hPower hDivide, hFirst, ok_bind]
          simp only [hSecond, ok_bind]
          exact ⟨_, _, rfl⟩
  | unary op operand ih =>
      by_cases hScalarFunction : op.isScalarFunction = true
      · exact exists_lower_of_isFolded hScalarFunction hValue
      · have hWhole := hValue
        unfold Environment.evaluate at hValue
        rcases bind_eq_ok_iff.1 hValue with ⟨a, hOperand, hApplied⟩
        rcases ih hBinds hOperand hFits with ⟨k, last, hLast⟩
        cases op with
        | sqrt => exact absurd rfl hScalarFunction
        | sin => exact absurd rfl hScalarFunction
        | cos => exact absurd rfl hScalarFunction
        | exp => exact absurd rfl hScalarFunction
        | dagger =>
            rw [lower, hLast]
            exact ⟨_, _, rfl⟩
        | trace =>
            rw [lower, hLast]
            exact ⟨_, _, rfl⟩
        | expm =>
            rw [lower, hLast, ok_bind]
            by_cases hRecorded : (last.shapeOf k).isScalar = true
            · simp only [hRecorded, if_true]
              rcases (lowers_of_lower hLast).spec hBinds hOperand
                  hFits with
                ⟨hAppends, _, hYields⟩
              have hScalar : v.shape = .scalar := by
                rw [UnaryOp.shape_apply hApplied,
                  hYields.recorded.scalar_iff.1 hRecorded]
                rfl
              rcases Value.exists_scalar hScalar with ⟨z, rfl⟩
              rw [← hAppends.environment] at hWhole
              exact ⟨_, _, fold_of_evaluate _ hWhole⟩
            · simp only [hRecorded]
              exact ⟨_, _, rfl⟩
  | call function arguments => exact absurd hValue refuse_ne_ok

end Lowering

end QuantumLab

------------------------------------------------------------
-- Coherent states
------------------------------------------------------------

namespace QuantumLab

variable {R : Type} [Arithmetic R]

namespace Lowering

/-
  Each node has a shape, and every name with a value is bound
  to a node that evaluates to it, with the shape of the
  value, or is a predefined operator that keeps its value and
  has no node yet.
-/
structure Coherent (s : Lowering R) : Prop where
  aligned : s.Aligned
  bound : ∀ name v, s.environment.lookup name = some v →
    (∃ id, s.symbols.find? name = some id ∧
      s.plan.EvaluatesTo id v ∧ s.shapeOf id = v.shape) ∨
    (s.symbols.find? name = none ∧
      s.symbolic.contains name = false ∧
        ∃ a, Predefined.find? name = some a ∧ v = .matrix a)

/- In a coherent state the nodes of names compute the values of names. -/
theorem coherent_iff_binds
    {s : Lowering R} :
    s.Coherent ↔ s.Binds True s.environment s.environment.lookup := by
  constructor
  · intro hCoherent
    refine ⟨hCoherent.aligned, fun name v hName => ?_⟩
    rcases hCoherent.bound name v hName with
      ⟨id, hSymbol, hEvaluates, hShape⟩ |
      ⟨hSymbol, hSymbolic, a, hFound, rfl⟩
    · rw [Plan.evaluatesTo_iff_value?] at hEvaluates
      refine .inl ⟨id, hSymbol, ?_, .of_eq hShape, ?_, ?_⟩
      · exact Plan.lt_size_of_denote (toOption_eq_some_iff.1 hEvaluates)
      · rw [hEvaluates, hName]
      · intro w hw
        rw [hName] at hw
        rw [Option.some.inj hw]
    · exact .inr ⟨hSymbol, hSymbolic, a, hFound, rfl, hName⟩
  · intro hBinds
    refine ⟨hBinds.aligned, fun name v hName => ?_⟩
    rcases hBinds.bound name v hName with
      ⟨id, hSymbol, hYields⟩ |
      ⟨hSymbol, hSymbolic, a, hFound, hValue, _⟩
    · refine .inl ⟨id, hSymbol, ?_, hYields.recorded.same trivial⟩
      rw [Plan.evaluatesTo_iff_value?, hYields.value, hName]
    · exact .inr ⟨hSymbol, hSymbolic, a, hFound, hValue⟩

/- A lowering starts in a coherent state. -/
theorem initial_coherent : (initial : Lowering R).Coherent where
  aligned := rfl
  bound name v hName := by
    have hName : (Environment.initial : Environment R).lookup name =
        some v := hName
    rw [Environment.lookup_initial] at hName
    rcases Option.map_eq_some_iff.1 hName with ⟨a, hFound, rfl⟩
    exact .inr ⟨rfl, rfl, a, hFound, rfl⟩

/-
  The value of an expression when the sums outside of its
  folded parts are taken without the unit factor.
-/
def plainValue (names : Environment R) (e : Expr R) : Option (Value R) :=
  e.planned names names names.lookup

/-
  An expression with a value is lowered in a coherent state:
  nodes are only added, the state stays coherent, and the
  node of the expression has the shape of its value.  It
  evaluates to the value with plain sums, which is the value
  itself if sums do not depend on the unit factor.
-/
theorem lower_coherent
    {s : Lowering R}
    {e : Expr R}
    {v : Value R}
    (hCoherent : s.Coherent)
    (hValue : s.environment.evaluate e = .ok v)
    (hFits : s.environment.TensorsFit e) :
    ∃ id later, s.lower e = .ok (id, later) ∧
      s.Appends later ∧
      (∀ k < s.plan.size, ∀ w,
        later.plan.EvaluatesTo k w ↔ s.plan.EvaluatesTo k w) ∧
      later.Coherent ∧
      later.shapeOf id = v.shape ∧
      (∀ w, later.plan.EvaluatesTo id w ↔
        plainValue s.environment e = some w) ∧
      (e.Steady s.environment s.environment →
        later.plan.EvaluatesTo id v) := by
  have hBinds := coherent_iff_binds.1 hCoherent
  rcases exists_lower hBinds hValue fun _ => hFits with
    ⟨id, later, hLower⟩
  rcases (lowers_of_lower hLower).spec hBinds hValue fun _ => hFits with
    ⟨hAppends, hBindsLater, hYields⟩
  have hEvaluates : ∀ w, later.plan.EvaluatesTo id w ↔
      plainValue s.environment e = some w := by
    intro w
    rw [Plan.evaluatesTo_iff_value?, hYields.value]
    rfl
  refine ⟨id, later, hLower, hAppends, ?_, ?_, ?_, hEvaluates, ?_⟩
  · intro k hInside w
    rw [Plan.evaluatesTo_iff, Plan.evaluatesTo_iff,
      hAppends.denote_eq hInside]
  · rw [coherent_iff_binds, hAppends.environment]
    exact hBindsLater
  · exact hYields.recorded.same trivial
  · intro hSteady
    rw [hEvaluates]
    exact Expr.planned_eq_of_steady (fun _ _ hName => hName) hValue
      hSteady

/- The product of two predefined operators, in the first state. -/
theorem lower_coherent_pauli :
    ∃ v id later,
      (initial : Lowering Float).environment.evaluate
          (.binary .multiply (.identifier "sigma_x")
            (.identifier "sigma_y")) = .ok v ∧
        (initial : Lowering Float).lower
            (.binary .multiply (.identifier "sigma_x")
              (.identifier "sigma_y")) = .ok (id, later) ∧
          later.plan.EvaluatesTo id v := by
  have hX : (initial : Lowering Float).environment.resolve "sigma_x" =
      .ok (.matrix Predefined.pauliX) :=
    Environment.resolve_eq_ok_iff.2 (Environment.lookup_initial "sigma_x")
  have hY : (initial : Lowering Float).environment.resolve "sigma_y" =
      .ok (.matrix Predefined.pauliY) :=
    Environment.resolve_eq_ok_iff.2 (Environment.lookup_initial "sigma_y")
  have hProduct :
      Guarded.product Predefined.pauliX Predefined.pauliY =
        .ok (Predefined.pauliX * Predefined.pauliY : Mat Float) :=
    Guarded.product_eq_ok_iff.2 ⟨rfl, rfl⟩
  have hValue :
      (initial : Lowering Float).environment.evaluate
          (.binary .multiply (.identifier "sigma_x")
            (.identifier "sigma_y")) =
        .ok (.matrix (Predefined.pauliX * Predefined.pauliY)) := by
    simp [Environment.evaluate, hX, hY, BinaryOp.apply, multiplyValues,
      hProduct]
  rcases lower_coherent initial_coherent hValue ⟨trivial, trivial⟩ with
    ⟨id, later, hLower, _, _, _, _, _, hSteady⟩
  exact ⟨_, id, later, hValue, hLower,
    hSteady ⟨trivial, trivial, fun _ _ _ _ => rfl⟩⟩

/-
  Zero plus infinity: multiplied by the unit, infinity has an
  undefined imaginary part, but the node adds it as it is.
-/
theorem plain_sum_of_infinity :
    ∃ v id later,
      (initial : Lowering Float).Coherent ∧
        (initial : Lowering Float).environment.evaluate
            (.binary .add (.number ⟨0, 0⟩) (.number ⟨1.0 / 0.0, 0⟩)) =
          .ok v ∧
        (initial : Lowering Float).lower
            (.binary .add (.number ⟨0, 0⟩) (.number ⟨1.0 / 0.0, 0⟩)) =
          .ok (id, later) ∧
        ¬ later.plan.EvaluatesTo id v := by
  refine ⟨_, _, _, initial_coherent, rfl, rfl, ?_⟩
  rw [Plan.evaluatesTo_iff]
  intro hEvaluates
  have hSums :
      (.ok (.scalar (⟨0, 0⟩ + ⟨1.0 / 0.0, 0⟩)) :
          Except (Fault Float) (Value Float)) =
        .ok (.scalar
          (⟨0, 0⟩ + Scalar.one * (⟨1.0 / 0.0, 0⟩ : Scalar Float))) :=
    hEvaluates
  have hParts := congrArg Scalar.im
    (Value.scalar.inj (Except.ok.inj hSums))
  have hUndefined : Arithmetic.isNaN
      ((⟨0, 0⟩ : Scalar Float) +
        Scalar.one * (⟨1.0 / 0.0, 0⟩ : Scalar Float)).im = true := by
    decide +kernel
  have hDefined : Arithmetic.isNaN
      ((⟨0, 0⟩ : Scalar Float) + ⟨1.0 / 0.0, 0⟩).im = false := by
    decide +kernel
  rw [← hParts, hDefined] at hUndefined
  cases hUndefined

end Lowering

end QuantumLab
