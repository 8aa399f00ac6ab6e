import QuantumLab.Proofs.Lowering.Simulation
import QuantumLab.Proofs.Lowering.Statements

/-
  This file says what the nodes compute that declarations
  bind to names.  A name already has its new value when the
  expression of its declaration is lowered, so folded parts
  of the expression that mention the name see the new value.

  Key definitions include:
    * `Meaning`
    * `Meaning.planned`
    * `Meaning.after`
    * `Lowering.Follows`
    * `Lowering.Advances`

  Main statements:
    * `Lowering.Lowers.unresolvable` says that a name without
      a node does not get one from an expression.
    * `Lowering.advances_loaded` and
      `Lowering.advances_lowered` say what the node of a
      declared name computes.
    * `Lowering.measurements_addMeasurement` says what the
      nodes of a measurement compute.
-/

------------------------------------------------------------
-- What names stand for
------------------------------------------------------------

namespace QuantumLab

variable {R : Type}

/-
  What names stand for after some statements: their values,
  and what their nodes compute.
-/
structure Meaning (R : Type) where
  names : Environment R
  nodes : String → Option (Value R)

variable [Arithmetic R]

namespace Meaning

/- The meaning before any statement. -/
def initial : Meaning R :=
  ⟨.initial, Environment.initial.lookup⟩

/- What the node of a defined name computes. -/
def planned
    (m : Meaning R)
    (d : Statement R)
    (e : Expr R)
    (value : Value R) : Option (Value R) :=
  if d.isLoaded then some value
  else e.planned m.names (m.names.define d.name value) m.nodes

/- What the node of the name of a statement computes. -/
def declared (m : Meaning R) (d : Statement R) : Option (Value R) :=
  match d.definition? with
  | some e => (m.names.evaluate e).toOption.bind (m.planned d e)
  | none => if d.declaresSymbol then none else m.nodes d.name

/- The meaning after a statement. -/
def after (m : Meaning R) (d : Statement R) : Meaning R where
  names := m.names.after d
  nodes other := if d.name = other then m.declared d else m.nodes other

end Meaning

/- What names stand for after a program. -/
def Program.meaning (program : Program R) : Meaning R :=
  program.foldl Meaning.after .initial

theorem Program.names_meaning (program : Program R) :
    program.meaning.names = program.environment := by
  have hFold : ∀ m : Meaning R,
      (program.foldl Meaning.after m).names =
        program.foldl Environment.after m.names := by
    induction program with
    | nil =>
        intro m
        rfl
    | cons d rest ih =>
        intro m
        exact ih (m.after d)
  exact hFold .initial

theorem Program.meaning_append
    (pre : Program R)
    (d : Statement R) :
    Program.meaning (pre ++ [d]) = pre.meaning.after d := by
  simp [Program.meaning]

end QuantumLab

------------------------------------------------------------
-- Names without nodes
------------------------------------------------------------

namespace QuantumLab

variable {R : Type}

namespace Lowering

/- A name is known without a node. -/
structure Unresolvable (s : Lowering R) (name : String) : Prop where
  symbols : s.symbols.find? name = none
  symbolic : s.symbolic.contains name = true

theorem Unresolvable.of_eq
    {s later : Lowering R}
    {name : String}
    (hUnresolvable : s.Unresolvable name)
    (hSymbols : later.symbols = s.symbols)
    (hSymbolic : later.symbolic = s.symbolic) :
    later.Unresolvable name where
  symbols := hSymbols ▸ hUnresolvable.symbols
  symbolic := hSymbolic ▸ hUnresolvable.symbolic

/- A name stays without a node when another one is bound. -/
theorem Unresolvable.bind
    {s : Lowering R}
    {name other : String}
    (hUnresolvable : s.Unresolvable other)
    (hOther : name ≠ other)
    (id : NodeId) :
    (s.bind name id).Unresolvable other where
  symbols := by
    rw [Lowering.bind, Table.find?_insert, if_neg hOther]
    exact hUnresolvable.symbols
  symbolic := by
    rw [Lowering.bind, Table.contains_erase, hUnresolvable.symbolic]
    simp [hOther]

variable [Arithmetic R]

theorem Unresolvable.resolve_ne_ok
    {s : Lowering R}
    {name : String}
    (hUnresolvable : s.Unresolvable name)
    (result : NodeId × Lowering R) :
    s.resolve name ≠ .ok result := by
  rw [Lowering.resolve, hUnresolvable.symbols]
  simp [hUnresolvable.symbolic]

theorem Unresolvable.resolve
    {s later : Lowering R}
    {name other : String}
    {id : NodeId}
    (hUnresolvable : s.Unresolvable other)
    (hResolve : s.resolve name = .ok (id, later)) :
    later.Unresolvable other := by
  have hOther : name ≠ other := by
    rintro rfl
    exact hUnresolvable.resolve_ne_ok _ hResolve
  rw [Lowering.resolve] at hResolve
  cases hSymbol : s.symbols.find? name with
  | some k =>
      rw [hSymbol] at hResolve
      cases hResolve
      exact hUnresolvable
  | none =>
      rw [hSymbol] at hResolve
      by_cases hSymbolic : s.symbolic.contains name = true
      · simp [hSymbolic] at hResolve
      · simp only [hSymbolic] at hResolve
        cases hFound : Predefined.find? (R := R) name with
        | none => simp [hFound] at hResolve
        | some a =>
            rw [hFound] at hResolve
            cases hResolve
            have hEmitted :
                (s.emitConstant name (.matrix a)).2.Unresolvable other :=
              hUnresolvable.of_eq rfl rfl
            exact hEmitted.bind hOther _

theorem symbols_emitBinary
    (s : Lowering R)
    (op : BinaryOp)
    (l r : NodeId) :
    (s.emitBinary op l r).2.symbols = s.symbols ∧
      (s.emitBinary op l r).2.symbolic = s.symbolic := by
  cases op with
  | multiply =>
      change (s.emitProduct l r).2.symbols = s.symbols ∧
        (s.emitProduct l r).2.symbolic = s.symbolic
      rw [emitProduct]
      split
      · exact ⟨rfl, rfl⟩
      · split
        · exact ⟨rfl, rfl⟩
        · split
          · exact ⟨rfl, rfl⟩
          · exact ⟨rfl, rfl⟩
  | add => exact ⟨rfl, rfl⟩
  | subtract => exact ⟨rfl, rfl⟩
  | divide => exact ⟨rfl, rfl⟩
  | power => exact ⟨rfl, rfl⟩
  | tensor => exact ⟨rfl, rfl⟩
  | commutator => exact ⟨rfl, rfl⟩
  | anticommutator => exact ⟨rfl, rfl⟩

/- A name stays without a node when an expression is lowered. -/
theorem Lowers.unresolvable
    {s later : Lowering R}
    {e : Expr R}
    {id : NodeId}
    {name : String}
    (hLowers : Lowers s e id later)
    (hUnresolvable : s.Unresolvable name) :
    later.Unresolvable name := by
  induction hLowers with
  | constant _ _ => exact hUnresolvable.of_eq rfl rfl
  | name hResolve => exact hUnresolvable.resolve hResolve
  | quotient _ _ _ ih => exact (ih hUnresolvable).of_eq rfl rfl
  | binary _ _ _ _ ihL ihR =>
      exact (ihR (ihL hUnresolvable)).of_eq
        (symbols_emitBinary _ _ _ _).1 (symbols_emitBinary _ _ _ _).2
  | @unary _ _ op _ _ _ _ _ ih =>
      refine (ih hUnresolvable).of_eq ?_ ?_
      · cases op <;> rfl
      · cases op <;> rfl
  | scalarExponential _ _ _ ih => exact (ih hUnresolvable).of_eq rfl rfl

end Lowering

end QuantumLab

------------------------------------------------------------
-- Lowerings and what is planned
------------------------------------------------------------

namespace QuantumLab

variable {R : Type} [Arithmetic R]

namespace Lowering

/-
  A lowering keeps to a meaning: names have their values,
  their nodes compute what is planned, and names without a
  value have no node.
-/
structure Follows
    (s : Lowering R)
    (exact : Prop)
    (m : Meaning R) : Prop where
  environment : s.environment = m.names
  binds : s.Binds exact m.names m.nodes
  unresolvable : ∀ name, m.names.isSymbolic name = true →
    s.Unresolvable name

theorem follows_initial
    {exact : Prop} :
    (initial : Lowering R).Follows exact .initial where
  environment := rfl
  binds := by
    refine ⟨rfl, fun name v hName => ?_⟩
    rcases initial_coherent.bound name v hName with
      ⟨id, hSymbol, _⟩ | ⟨hSymbol, hSymbolic, a, hFound, rfl⟩
    · cases hSymbol
    · exact .inr ⟨hSymbol, hSymbolic, a, hFound, rfl, hName⟩
  unresolvable name hSymbolic := by
    have hNone : (Environment.initial : Environment R).isSymbolic name =
        false := Environment.isSymbolic_initial name
    rw [Meaning.initial, hNone] at hSymbolic
    cases hSymbolic

/- A name keeps what it stands for when only other names change. -/
theorem Follows.declareSymbolic
    {s : Lowering R}
    {exact : Prop}
    {m : Meaning R}
    {nodes : String → Option (Value R)}
    (hFollows : s.Follows exact m)
    (name : String)
    (hNodes : ∀ other, name ≠ other → nodes other = m.nodes other) :
    (s.declareSymbolic name).Follows exact
      ⟨m.names.declareSymbolic name, nodes⟩ where
  environment :=
    congrArg (Environment.declareSymbolic · name) hFollows.environment
  binds := by
    refine ⟨hFollows.binds.aligned, fun other v hOther => ?_⟩
    rw [Environment.lookup_declareSymbolic] at hOther
    by_cases hSame : name = other
    · rw [if_pos hSame] at hOther
      cases hOther
    · rw [if_neg hSame] at hOther
      have hSymbol :
          (s.declareSymbolic name).symbols.find? other =
            s.symbols.find? other := by
        rw [Lowering.declareSymbolic, Table.find?_erase, if_neg hSame]
      have hSymbolic :
          (s.declareSymbolic name).symbolic.contains other =
            s.symbolic.contains other := by
        rw [Lowering.declareSymbolic, Table.add, Table.contains_insert]
        simp [hSame]
      rw [hSymbol, hSymbolic]
      simp only [hNodes other hSame]
      rcases hFollows.binds.bound other v hOther with
        ⟨id, hFound, hYields⟩ | hPredefined
      · exact .inl ⟨id, hFound,
          hYields.later hFollows.binds.aligned (.of_eq rfl rfl)⟩
      · exact .inr hPredefined
  unresolvable other hOther := by
    rw [Environment.isSymbolic_declareSymbolic, Bool.or_eq_true,
      decide_eq_true_eq] at hOther
    constructor
    · rw [Lowering.declareSymbolic, Table.find?_erase]
      by_cases hSame : name = other
      · rw [if_pos hSame]
      · rw [if_neg hSame]
        exact (hFollows.unresolvable other
          (hOther.resolve_left hSame)).symbols
    · rw [Lowering.declareSymbolic, Table.add, Table.contains_insert]
      by_cases hSame : name = other
      · simp [hSame]
      · rw [(hFollows.unresolvable other
          (hOther.resolve_left hSame)).symbolic, Bool.or_true]

/- A name is bound to the node of its new value. -/
theorem Follows.define
    {s later : Lowering R}
    {exact : Prop}
    {m : Meaning R}
    {name : String}
    {value : Value R}
    {id : NodeId}
    {nodes : String → Option (Value R)}
    (hFollows : s.Follows exact m)
    (hAppends : (s.define name value).Appends later)
    (hBinds : later.Binds exact m.names m.nodes)
    (hUnresolvable : ∀ other, s.Unresolvable other →
      later.Unresolvable other)
    (hYields : later.Yields exact id value.shape (nodes name))
    (hNodes : ∀ other, name ≠ other → nodes other = m.nodes other) :
    (later.bind name id).Follows exact
      ⟨m.names.define name value, nodes⟩ where
  environment := by
    change later.environment = _
    rw [hAppends.environment]
    exact congrArg (Environment.define · name value)
      hFollows.environment
  binds := by
    refine ⟨hBinds.aligned, fun other v hOther => ?_⟩
    rw [Environment.lookup_define] at hOther
    have hGrows := (later.appends_bind name id).toGrows
    by_cases hSame : name = other
    · rw [if_pos hSame] at hOther
      cases hOther
      subst hSame
      exact .inl ⟨id, Table.find?_insert_self _ _ _,
        hYields.later hBinds.aligned hGrows⟩
    · rw [if_neg hSame] at hOther
      have hSymbol :
          (later.bind name id).symbols.find? other =
            later.symbols.find? other := by
        rw [Lowering.bind, Table.find?_insert, if_neg hSame]
      have hSymbolic :
          (later.bind name id).symbolic.contains other =
            later.symbolic.contains other := by
        rw [Lowering.bind, Table.contains_erase]
        simp [hSame]
      rw [hSymbol, hSymbolic]
      simp only [hNodes other hSame]
      rcases hBinds.bound other v hOther with
        ⟨k, hFound, hOtherYields⟩ | hPredefined
      · exact .inl ⟨k, hFound,
          hOtherYields.later hBinds.aligned hGrows⟩
      · exact .inr hPredefined
  unresolvable other hOther := by
    rw [Environment.isSymbolic_define] at hOther
    simp only [Bool.and_eq_true, Bool.not_eq_true',
      decide_eq_false_iff_not] at hOther
    exact (hUnresolvable other
      (hFollows.unresolvable other hOther.2)).bind hOther.1 id

/- A name is resolved to a node that stands for it. -/
theorem Follows.resolve
    {s later : Lowering R}
    {exact : Prop}
    {m : Meaning R}
    {name : String}
    {id : NodeId}
    (hFollows : s.Follows exact m)
    (hResolve : s.resolve name = .ok (id, later)) :
    s.Appends later ∧ later.Follows exact m ∧
      ∀ v, m.names.lookup name = some v →
        later.Yields exact id v.shape (m.nodes name) := by
  rcases hFollows.binds.resolve hResolve with
    ⟨hAppends, hBinds, hYields⟩
  refine ⟨hAppends, ⟨?_, hBinds, fun other hOther => ?_⟩, hYields⟩
  · rw [hAppends.environment, hFollows.environment]
  · exact (hFollows.unresolvable other hOther).resolve hResolve

/- Only the nodes, the names and their values matter. -/
theorem Follows.of_eq
    {s later : Lowering R}
    {exact : Prop}
    {m : Meaning R}
    (hFollows : s.Follows exact m)
    (hNodes : later.plan.nodes = s.plan.nodes)
    (hShapes : later.shapes = s.shapes)
    (hSymbols : later.symbols = s.symbols)
    (hSymbolic : later.symbolic = s.symbolic)
    (hEnvironment : later.environment = s.environment) :
    later.Follows exact m where
  environment := hEnvironment.trans hFollows.environment
  binds := by
    constructor
    · have hAligned : s.shapes.size = s.plan.nodes.size :=
        hFollows.binds.aligned
      rw [Aligned, Plan.size, hShapes, hNodes]
      exact hAligned
    · intro name v hName
      rw [hSymbols, hSymbolic]
      rcases hFollows.binds.bound name v hName with
        ⟨id, hSymbol, hYields⟩ | hPredefined
      · exact .inl ⟨id, hSymbol,
          hYields.later hFollows.binds.aligned (.of_eq hNodes hShapes)⟩
      · exact .inr hPredefined
  unresolvable name hSymbolic' :=
    (hFollows.unresolvable name hSymbolic').of_eq hSymbols hSymbolic

/- A constant of no name changes nothing for names. -/
theorem Follows.emitConstant
    {s : Lowering R}
    {exact : Prop}
    {m : Meaning R}
    (hFollows : s.Follows exact m)
    (name : String)
    (value : Value R) :
    s.Appends (s.emitConstant name value).2 ∧
      (s.emitConstant name value).2.Follows exact m := by
  have hEmits :=
    emits_constant exact hFollows.binds.aligned name value
  refine ⟨hEmits.appends, hFollows.environment,
    hFollows.binds.emits hEmits, fun other hOther => ?_⟩
  exact (hFollows.unresolvable other hOther).of_eq rfl rfl

end Lowering

end QuantumLab

------------------------------------------------------------
-- Declarations
------------------------------------------------------------

namespace QuantumLab

variable {R : Type} [Arithmetic R]

namespace Lowering

variable
  {s later : Lowering R}
  {exact : Prop}
  {m : Meaning R}
  {d : Statement R}
  {e : Expr R}
  {value : Value R}
  {id : NodeId}

/-
  A statement is lowered as planned: nodes are only added,
  and a name that is defined is bound to a node that computes
  what is planned for it.
-/
structure Advances
    (s : Lowering R)
    (exact : Prop)
    (m : Meaning R)
    (d : Statement R)
    (next : Lowering R) : Prop where
  grows : s.Grows next
  follows : next.Follows exact (m.after d)
  defined : ∀ e value, d.definition? = some e →
    m.names.evaluate e = .ok value →
      ∃ id, next.symbols.find? d.name = some id ∧
        next.Yields exact id value.shape (m.planned d e value)
  measurements : (∀ name, d.measures name = false) →
    next.measurements = s.measurements
  experiments : d.experiment? = none →
    next.plan.experiments = s.plan.experiments

theorem nodes_after_of_ne
    {other : String}
    (hOther : d.name ≠ other) :
    (m.after d).nodes other = m.nodes other :=
  if_neg hOther

theorem nodes_after_self
    (hDefinition : d.definition? = some e)
    (hValue : m.names.evaluate e = .ok value) :
    (m.after d).nodes d.name = m.planned d e value := by
  change (if d.name = d.name then m.declared d else _) = _
  rw [if_pos rfl, Meaning.declared, hDefinition]
  change (m.names.evaluate e).toOption.bind (m.planned d e) = _
  rw [hValue]
  rfl

/- A name loses its value. -/
theorem advances_symbolic
    (hFollows : s.Follows exact m)
    (hNames : m.names.after d = m.names.declareSymbolic d.name)
    (hUndefined : ∀ e value, d.definition? = some e →
      m.names.evaluate e ≠ .ok value) :
    s.Advances exact m d (s.declareSymbolic d.name) where
  grows := .of_eq rfl rfl
  follows := by
    have hMeaning : m.after d =
        ⟨m.names.declareSymbolic d.name, (m.after d).nodes⟩ := by
      rw [← hNames]
      rfl
    rw [hMeaning]
    exact hFollows.declareSymbolic d.name fun _ hOther =>
      nodes_after_of_ne hOther
  defined e value hDefinition hValue :=
    absurd hValue (hUndefined e value hDefinition)
  measurements _ := rfl
  experiments _ := rfl

/- A name without a value is known without a node. -/
theorem advances_undefined
    (hFollows : s.Follows exact m)
    (hDefinition : d.definition? = some e)
    (hNone : s.environment.evaluate? e = .ok none) :
    s.Advances exact m d (s.declareSymbolic d.name) := by
  rw [hFollows.environment] at hNone
  refine advances_symbolic hFollows ?_ ?_
  · rw [Environment.after, hDefinition]
    exact Environment.declare_of_none hNone d.name
  · intro e' value hDefinition' hValue
    rw [hDefinition] at hDefinition'
    cases hDefinition'
    rw [Environment.evaluate?_eq_some_iff.2 hValue] at hNone
    cases hNone

/- The nodes of names do not depend on their values. -/
theorem Binds.define
    {names : Environment R}
    {nodes : String → Option (Value R)}
    (hBinds : s.Binds exact names nodes)
    (name : String)
    (value : Value R) :
    (s.define name value).Binds exact names nodes where
  aligned := hBinds.aligned
  bound other v hOther := by
    rcases hBinds.bound other v hOther with
      ⟨id, hFound, hYields⟩ | hPredefined
    · exact .inl ⟨id, hFound,
        hYields.later hBinds.aligned (.of_eq rfl rfl)⟩
    · exact .inr hPredefined

/- A name is bound to the node of its definition. -/
theorem advances_defined
    (hFollows : s.Follows exact m)
    (hDefinition : d.definition? = some e)
    (hValue : m.names.evaluate e = .ok value)
    (hAppends : (s.define d.name value).Appends later)
    (hBinds : later.Binds exact m.names m.nodes)
    (hUnresolvable : ∀ other, s.Unresolvable other →
      later.Unresolvable other)
    (hYields : later.Yields exact id value.shape
      (m.planned d e value)) :
    s.Advances exact m d (later.bind d.name id) := by
  have hGrows := (later.appends_bind d.name id).toGrows
  have hNames : m.names.after d = m.names.define d.name value := by
    rw [Environment.after, hDefinition]
    exact Environment.declare_of_ok hValue d.name
  have hMeaning : m.after d =
      ⟨m.names.define d.name value, (m.after d).nodes⟩ := by
    rw [← hNames]
    rfl
  constructor
  · have hDefine : s.Grows (s.define d.name value) := .of_eq rfl rfl
    exact (hDefine.trans hAppends.toGrows).trans hGrows
  · rw [hMeaning]
    refine hFollows.define hAppends hBinds hUnresolvable ?_ ?_
    · rw [nodes_after_self hDefinition hValue]
      exact hYields
    · intro _ hOther
      exact nodes_after_of_ne hOther
  · intro e' value' hDefinition' hValue'
    rw [hDefinition] at hDefinition'
    cases hDefinition'
    rw [hValue] at hValue'
    cases hValue'
    exact ⟨id, Table.find?_insert_self _ _ _,
      hYields.later hBinds.aligned hGrows⟩
  · intro _
    exact hAppends.measurements
  · intro _
    exact hAppends.experiments

/- A value is loaded as it is. -/
theorem advances_loaded
    (hFollows : s.Follows exact m)
    (hDefinition : d.definition? = some e)
    (hLoaded : d.isLoaded = true)
    (hValue : m.names.evaluate e = .ok value) :
    s.Advances exact m d
      (((s.define d.name value).emitConstant d.name value).2.bind
        d.name
        ((s.define d.name value).emitConstant d.name value).1) := by
  have hDefine := hFollows.binds.define d.name value
  have hEmits :=
    emits_constant exact hDefine.aligned d.name value
  refine advances_defined hFollows hDefinition hValue hEmits.appends
    (hDefine.emits hEmits) ?_ ?_
  · intro other hOther
    exact hOther.of_eq rfl rfl
  · rw [Meaning.planned, if_pos hLoaded]
    exact hEmits.yields

/- An expression is lowered with the new value of the name in place. -/
theorem advances_lowered
    (hFollows : s.Follows exact m)
    (hDefinition : d.definition? = some e)
    (hLoaded : d.isLoaded = false)
    (hValue : m.names.evaluate e = .ok value)
    (hFits : exact → m.names.TensorsFit e)
    (hLower : (s.define d.name value).lower e = .ok (id, later)) :
    s.Advances exact m d (later.bind d.name id) := by
  have hLowers := lowers_of_lower hLower
  rcases hLowers.spec (hFollows.binds.define d.name value) hValue
      hFits with
    ⟨hAppends, hBinds, hYields⟩
  refine advances_defined hFollows hDefinition hValue hAppends hBinds
    ?_ ?_
  · intro other hOther
    have hDefine : (s.define d.name value).Unresolvable other :=
      hOther.of_eq rfl rfl
    exact hLowers.unresolvable hDefine
  · have hFolds : (s.define d.name value).environment =
        m.names.define d.name value :=
      congrArg (Environment.define · d.name value)
        hFollows.environment
    rw [hFolds] at hYields
    rw [Meaning.planned, if_neg (by simp [hLoaded])]
    exact hYields

end Lowering

end QuantumLab

------------------------------------------------------------
-- Measurements and experiments
------------------------------------------------------------

namespace QuantumLab

variable {R : Type} [Arithmetic R]

namespace Lowering

variable
  {s later : Lowering R}
  {exact : Prop}
  {m : Meaning R}

/- A statement that declares no quantity changes no name. -/
theorem advances_other
    {d : Statement R}
    (hDefinition : d.definition? = none)
    (hSymbol : d.declaresSymbol = false)
    (hGrows : s.Grows later)
    (hFollows : later.Follows exact m)
    (hMeasurements : (∀ name, d.measures name = false) →
      later.measurements = s.measurements)
    (hExperiments : d.experiment? = none →
      later.plan.experiments = s.plan.experiments) :
    s.Advances exact m d later where
  grows := hGrows
  follows := by
    have hNames : m.names.after d = m.names := by
      rw [Environment.after, hDefinition]
      simp [hSymbol]
    have hNodes : (m.after d).nodes = m.nodes := by
      funext other
      change (if d.name = other then m.declared d else m.nodes other) = _
      by_cases hSame : d.name = other
      · rw [if_pos hSame, Meaning.declared, hDefinition]
        simp [hSymbol, hSame]
      · rw [if_neg hSame]
    have hMeaning : m.after d = m := by
      calc
        m.after d = ⟨m.names.after d, (m.after d).nodes⟩ := rfl
        _ = ⟨m.names, m.nodes⟩ := by rw [hNames, hNodes]
        _ = m := rfl
    rw [hMeaning]
    exact hFollows
  defined e value hDefinition' := by
    rw [hDefinition] at hDefinition'
    cases hDefinition'
  measurements := hMeasurements
  experiments := hExperiments

/- The operators of a measurement are evaluated and loaded. -/
theorem follows_emitOperators
    {name : String}
    {k : Nat}
    {operators : List (Expr R)}
    {ids : List NodeId}
    (hFollows : s.Follows exact m)
    (hEmit : s.emitOperators name k operators = .ok (ids, later)) :
    s.Appends later ∧ later.Follows exact m ∧
      List.Forall₂ (fun operator id => ∃ value,
        m.names.evaluate operator = .ok value ∧
          later.Yields exact id value.shape (some value))
        operators ids := by
  induction operators generalizing s k ids with
  | nil =>
      cases hEmit
      exact ⟨Appends.refl _, hFollows, .nil⟩
  | cons operator rest ih =>
      rcases bind_eq_ok_iff.1 hEmit with ⟨value, hValue, hRest⟩
      rcases bind_eq_ok_iff.1 hRest with ⟨⟨others, last⟩, hTail, hDone⟩
      cases pure_eq_ok_iff.1 hDone
      rw [hFollows.environment] at hValue
      have hEmits := emits_constant exact hFollows.binds.aligned
        (operatorName name k) value
      have hHead := hFollows.emitConstant (operatorName name k) value
      rcases ih hHead.2 hTail with ⟨hAppends, hLater, hOthers⟩
      refine ⟨hHead.1.trans hAppends, hLater, .cons ?_ hOthers⟩
      exact ⟨value, hValue,
        hEmits.yields.later hEmits.aligned hAppends.toGrows⟩

/- A measurement is noted with the nodes of its operators. -/
theorem measurements_addMeasurement
    {name : String}
    {kind : MeasurementKind}
    {operators : List (Expr R)}
    {next : Lowering R}
    (hFollows : s.Follows exact m)
    (hAdd : s.addMeasurement name kind operators = .ok next) :
    s.Grows next ∧ next.Follows exact m ∧
      next.plan.experiments = s.plan.experiments ∧
      ∃ ids,
        next.measurements = s.measurements.insert name
          (OutcomeKind.ofDefinition kind, ids) ∧
        List.Forall₂ (fun operator id => ∃ value,
          m.names.evaluate operator = .ok value ∧
            next.Yields exact id value.shape (some value))
          operators ids := by
  rcases bind_eq_ok_iff.1 hAdd with ⟨⟨ids, last⟩, hEmit, hDone⟩
  rcases follows_emitOperators hFollows hEmit with
    ⟨hAppends, hLast, hOperators⟩
  rw [← pure_eq_ok_iff.1 hDone]
  refine ⟨hAppends.toGrows.trans (.of_eq rfl rfl),
    hLast.of_eq rfl rfl rfl rfl rfl, hAppends.experiments, ids, ?_, ?_⟩
  · rw [← hAppends.measurements]
  · refine hOperators.imp fun operator id hOperator => ?_
    rcases hOperator with ⟨value, hValue, hYields⟩
    exact ⟨value, hValue,
      hYields.later hLast.binds.aligned (.of_eq rfl rfl)⟩

theorem advances_addMeasurement
    {name : String}
    {kind : MeasurementKind}
    {operators : List (Expr R)}
    {next : Lowering R}
    (hFollows : s.Follows exact m)
    (hAdd : s.addMeasurement name kind operators = .ok next) :
    s.Advances exact m (.measurement name kind operators) next := by
  rcases measurements_addMeasurement hFollows hAdd with
    ⟨hGrows, hNext, hExperiments, _⟩
  refine advances_other rfl rfl hGrows hNext ?_ fun _ => hExperiments
  intro hOther
  exact absurd (hOther name) (by simp [Statement.measures])

end Lowering

end QuantumLab
