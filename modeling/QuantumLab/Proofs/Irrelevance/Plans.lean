import QuantumLab.Proofs.Execution.Verification
import QuantumLab.Proofs.Execution.Workload

/-
  This file compares two plans of which the second contains
  the first: nodes are paired, each with one of the same
  operation on paired operands.  The second plan may have
  other nodes in between.

  Key definitions include:
    * `Operation.Matches`
    * `PlannedExperiment.Matches`
    * `Plan.Corresponds`

  Main statements:
    * `Plan.Corresponds.denote_eq` says that paired nodes
      have the same values.
    * `Plan.Corresponds.ncard_reaches` says that as many nodes
      are reached in both plans.
    * `Plan.Corresponds.wellFormed` and
      `Plan.Corresponds.execute_eq` say that the second plan
      verifies and executes as the first.
-/

------------------------------------------------------------
-- Operations on paired operands
------------------------------------------------------------

namespace QuantumLab

variable {R : Type}

/- Options that are related are empty or full together. -/
theorem cases_of_rel
    {α β : Type}
    {P : α → β → Prop}
    {x? : Option α}
    {y? : Option β}
    (hRelated : Option.Rel P x? y?) :
    (x? = none ∧ y? = none) ∨
      ∃ x y, x? = some x ∧ y? = some y ∧ P x y := by
  cases hRelated with
  | none => exact .inl ⟨rfl, rfl⟩
  | some hPair => exact .inr ⟨_, _, rfl, rfl, hPair⟩

/- Lists that are related one by one are empty together. -/
theorem isEmpty_eq_of_forall₂
    {α β : Type}
    {P : α → β → Prop}
    {xs : List α}
    {ys : List β}
    (hRelated : List.Forall₂ P xs ys) :
    ys.isEmpty = xs.isEmpty := by
  cases hRelated with
  | nil => rfl
  | cons _ _ => rfl

/- Which nodes of two plans belong together. -/
abbrev Pairing :=
  NodeId → NodeId → Prop

namespace Pairing

/- Pairs stay together in another pairing. -/
abbrev Within (ρ ρ' : Pairing) : Prop :=
  ∀ k k', ρ k k' → ρ' k k'

/- The pairing with one more pair. -/
def add (ρ : Pairing) (k k' : NodeId) : Pairing :=
  fun l l' => ρ l l' ∨ (l = k ∧ l' = k')

theorem within_add
    (ρ : Pairing)
    (k k' : NodeId) :
    ρ.Within (ρ.add k k') :=
  fun _ _ hPair => .inl hPair

theorem add_self
    (ρ : Pairing)
    (k k' : NodeId) :
    ρ.add k k' k k' :=
  .inr ⟨rfl, rfl⟩

end Pairing

/-
  The same operation on paired operands, for the operations
  that programs are lowered to.
-/
inductive Operation.Matches
    (ρ : Pairing) : Operation R → Operation R → Prop where
  | leaf
      {operation : Operation R}
      (hLeaf : operation.isLeaf = true) :
      Matches ρ operation operation
  | matrixAdd
      {l l' r r' : NodeId}
      (hLeft : ρ l l')
      (hRight : ρ r r') :
      Matches ρ (.matrixAdd l r) (.matrixAdd l' r')
  | matrixMul
      {l l' r r' : NodeId}
      (hLeft : ρ l l')
      (hRight : ρ r r') :
      Matches ρ (.matrixMul l r) (.matrixMul l' r')
  | scalarMul
      {l l' r r' : NodeId}
      (hLeft : ρ l l')
      (hRight : ρ r r') :
      Matches ρ (.scalarMul l r) (.scalarMul l' r')
  | tensorProduct
      {l l' r r' : NodeId}
      (hLeft : ρ l l')
      (hRight : ρ r r') :
      Matches ρ (.tensorProduct l r) (.tensorProduct l' r')
  | commutator
      {l l' r r' : NodeId}
      (hLeft : ρ l l')
      (hRight : ρ r r') :
      Matches ρ (.commutator l r) (.commutator l' r')
  | dagger
      {k k' : NodeId}
      (hOperand : ρ k k') :
      Matches ρ (.dagger k) (.dagger k')
  | trace
      {k k' : NodeId}
      (hOperand : ρ k k') :
      Matches ρ (.trace k) (.trace k')
  | matrixExp
      {k k' : NodeId}
      (hOperand : ρ k k') :
      Matches ρ (.matrixExp k) (.matrixExp k')

namespace Operation.Matches

variable
  {ρ ρ' : Pairing}
  {operation operation' : Operation R}

theorem constant
    (ρ : Pairing)
    (name : String)
    (value : Value R) :
    Matches ρ (.constant name value) (.constant name value) := by
  cases value with
  | scalar z => exact .leaf rfl
  | vector v => exact .leaf rfl
  | matrix a => exact .leaf rfl

theorem mono
    (hMatches : Matches ρ operation operation')
    (hPairs : ρ.Within ρ') :
    Matches ρ' operation operation' := by
  cases hMatches with
  | leaf hLeaf => exact .leaf hLeaf
  | matrixAdd hLeft hRight =>
      exact .matrixAdd (hPairs _ _ hLeft) (hPairs _ _ hRight)
  | matrixMul hLeft hRight =>
      exact .matrixMul (hPairs _ _ hLeft) (hPairs _ _ hRight)
  | scalarMul hLeft hRight =>
      exact .scalarMul (hPairs _ _ hLeft) (hPairs _ _ hRight)
  | tensorProduct hLeft hRight =>
      exact .tensorProduct (hPairs _ _ hLeft) (hPairs _ _ hRight)
  | commutator hLeft hRight =>
      exact .commutator (hPairs _ _ hLeft) (hPairs _ _ hRight)
  | dagger hOperand => exact .dagger (hPairs _ _ hOperand)
  | trace hOperand => exact .trace (hPairs _ _ hOperand)
  | matrixExp hOperand => exact .matrixExp (hPairs _ _ hOperand)

/- Operands are paired one by one. -/
theorem operands
    (hMatches : Matches ρ operation operation') :
    List.Forall₂ ρ operation.operands operation'.operands := by
  cases hMatches with
  | leaf hLeaf =>
      have hNone : operation.operands = [] := by
        cases operation with
        | loadMatrix name data => rfl
        | loadVector name data => rfl
        | scalar name value => rfl
        | _ => cases hLeaf
      rw [hNone]
      exact .nil
  | matrixAdd hLeft hRight => exact .cons hLeft (.cons hRight .nil)
  | matrixMul hLeft hRight => exact .cons hLeft (.cons hRight .nil)
  | scalarMul hLeft hRight => exact .cons hLeft (.cons hRight .nil)
  | tensorProduct hLeft hRight => exact .cons hLeft (.cons hRight .nil)
  | commutator hLeft hRight => exact .cons hLeft (.cons hRight .nil)
  | dagger hOperand => exact .cons hOperand .nil
  | trace hOperand => exact .cons hOperand .nil
  | matrixExp hOperand => exact .cons hOperand .nil

end Operation.Matches

------------------------------------------------------------
-- Results of operations
------------------------------------------------------------

namespace Operands

variable
  {f f' : Operands R}
  {node node' k k' : NodeId}

theorem tracks_matrix
    (hValue : Tracks (· = ·) (f k) (f' k')) :
    Tracks (· = ·) (f.matrix node k) (f'.matrix node' k') := by
  refine hValue.bind ?_
  rintro value _ rfl
  cases value with
  | matrix a => exact .of_ok rfl
  | scalar z => exact .of_error
  | vector v => exact .of_error

theorem tracks_scalar
    (hValue : Tracks (· = ·) (f k) (f' k')) :
    Tracks (· = ·) (f.scalar node k) (f'.scalar node' k') := by
  refine hValue.bind ?_
  rintro value _ rfl
  cases value with
  | scalar z => exact .of_ok rfl
  | matrix a => exact .of_error
  | vector v => exact .of_error

end Operands

namespace Operation

variable [Arithmetic R]

/- Only the faults of a sum depend on the node. -/
theorem tracks_computeSum
    (node node' : NodeId)
    (lhs rhs : Value R) :
    Tracks (· = ·) (computeSum node lhs rhs)
      (computeSum node' lhs rhs) := by
  cases lhs with
  | matrix a =>
      cases rhs with
      | matrix b => exact .of_eq rfl
      | scalar w => exact .of_error
      | vector w => exact .of_error
  | vector v =>
      cases rhs with
      | vector w => exact .of_eq rfl
      | scalar w => exact .of_error
      | matrix b => exact .of_error
  | scalar z =>
      cases rhs with
      | scalar w => exact .of_eq rfl
      | vector w => exact .of_error
      | matrix b => exact .of_error

theorem tracks_computeProduct
    (node node' operand operand' : NodeId)
    (a : Mat R)
    (rhs : Value R) :
    Tracks (· = ·) (computeProduct node operand a rhs)
      (computeProduct node' operand' a rhs) := by
  cases rhs with
  | matrix b => exact .of_eq rfl
  | vector v => exact .of_eq rfl
  | scalar z => exact .of_error

theorem tracks_computeTensor
    (node node' : NodeId)
    (lhs rhs : Value R) :
    Tracks (· = ·) (computeTensor node lhs rhs)
      (computeTensor node' lhs rhs) := by
  cases lhs with
  | matrix a =>
      cases rhs with
      | matrix b => exact .of_eq rfl
      | scalar w => exact .of_error
      | vector w => exact .of_error
  | vector v =>
      cases rhs with
      | vector w => exact .of_eq rfl
      | scalar w => exact .of_error
      | matrix b => exact .of_error
  | scalar z => exact .of_error

/- Paired operands with the same values give the same value. -/
theorem Matches.tracks_compute
    {ρ : Pairing}
    {operation operation' : Operation R}
    {f f' : Operands R}
    {node node' : NodeId}
    (hMatches : Matches ρ operation operation')
    (hValues : ∀ k ∈ operation.operands, ∀ k', ρ k k' →
      Tracks (· = ·) (f k) (f' k')) :
    Tracks (· = ·) (operation.compute f node)
      (operation'.compute f' node') := by
  cases hMatches with
  | leaf hLeaf =>
      cases operation with
      | loadMatrix name data => exact .of_ok rfl
      | loadVector name data => exact .of_ok rfl
      | scalar name value => exact .of_ok rfl
      | _ => cases hLeaf
  | matrixAdd hLeft hRight =>
      refine (hValues _ (by simp [Operation.operands]) _ hLeft).bind ?_
      rintro a _ rfl
      refine (hValues _ (by simp [Operation.operands]) _ hRight).bind ?_
      rintro b _ rfl
      exact tracks_computeSum node node' a b
  | matrixMul hLeft hRight =>
      refine (Operands.tracks_matrix
        (hValues _ (by simp [Operation.operands]) _ hLeft)).bind ?_
      rintro a _ rfl
      refine (hValues _ (by simp [Operation.operands]) _ hRight).bind ?_
      rintro b _ rfl
      exact tracks_computeProduct node node' _ _ a b
  | scalarMul hLeft hRight =>
      refine (Operands.tracks_scalar
        (hValues _ (by simp [Operation.operands]) _ hLeft)).bind ?_
      rintro z _ rfl
      refine (hValues _ (by simp [Operation.operands]) _ hRight).bind ?_
      rintro b _ rfl
      exact .of_ok rfl
  | tensorProduct hLeft hRight =>
      refine (hValues _ (by simp [Operation.operands]) _ hLeft).bind ?_
      rintro a _ rfl
      refine (hValues _ (by simp [Operation.operands]) _ hRight).bind ?_
      rintro b _ rfl
      exact tracks_computeTensor node node' a b
  | commutator hLeft hRight =>
      refine (Operands.tracks_matrix
        (hValues _ (by simp [Operation.operands]) _ hLeft)).bind ?_
      rintro a _ rfl
      refine (Operands.tracks_matrix
        (hValues _ (by simp [Operation.operands]) _ hRight)).bind ?_
      rintro b _ rfl
      exact .of_eq rfl
  | dagger hOperand =>
      refine (hValues _ (by simp [Operation.operands]) _ hOperand).bind ?_
      rintro a _ rfl
      exact .of_ok rfl
  | trace hOperand =>
      refine (Operands.tracks_matrix
        (hValues _ (by simp [Operation.operands]) _ hOperand)).bind ?_
      rintro a _ rfl
      exact .of_eq rfl
  | matrixExp hOperand =>
      refine (Operands.tracks_matrix
        (hValues _ (by simp [Operation.operands]) _ hOperand)).bind ?_
      rintro a _ rfl
      exact .of_eq rfl

end Operation

end QuantumLab

------------------------------------------------------------
-- Experiments on paired nodes
------------------------------------------------------------

namespace QuantumLab

variable {R : Type}

/- The same measurement with paired operators. -/
structure PlannedMeasurement.Matches
    (ρ : Pairing)
    (m m' : PlannedMeasurement) : Prop where
  name : m'.name = m.name
  timeIndex : m'.timeIndex = m.timeIndex
  kind : m'.kind = m.kind
  operators : List.Forall₂ ρ m.operators m'.operators

/- The same channel with paired operators. -/
structure Jump.Matches
    (ρ : Pairing)
    (jump jump' : Jump R) : Prop where
  operator : ρ jump.operator jump'.operator
  rate : jump'.rate = jump.rate

/- The same evolution with paired operators. -/
structure PlannedEvolution.Matches
    (ρ : Pairing)
    (evolution evolution' : PlannedEvolution R) : Prop where
  method : evolution'.method = evolution.method
  hamiltonian : ρ evolution.hamiltonian evolution'.hamiltonian
  jumps : List.Forall₂ (Jump.Matches ρ) evolution.jumps evolution'.jumps
  times : evolution'.times = evolution.times

/- The same experiment on paired nodes. -/
structure PlannedExperiment.Matches
    (ρ : Pairing)
    (e e' : PlannedExperiment R) : Prop where
  name : e'.name = e.name
  initialState : ρ e.initialState e'.initialState
  evolution :
    Option.Rel (PlannedEvolution.Matches ρ) e.evolution e'.evolution
  measurements :
    List.Forall₂ (PlannedMeasurement.Matches ρ)
      e.measurements e'.measurements

variable {ρ ρ' : Pairing}

theorem PlannedMeasurement.Matches.mono
    {m m' : PlannedMeasurement}
    (hMatches : m.Matches ρ m')
    (hPairs : ρ.Within ρ') :
    m.Matches ρ' m' :=
  { hMatches with operators := hMatches.operators.imp hPairs }

theorem PlannedEvolution.Matches.mono
    {evolution evolution' : PlannedEvolution R}
    (hMatches : evolution.Matches ρ evolution')
    (hPairs : ρ.Within ρ') :
    evolution.Matches ρ' evolution' where
  method := hMatches.method
  hamiltonian := hPairs _ _ hMatches.hamiltonian
  jumps := hMatches.jumps.imp fun _ _ hJump =>
    ⟨hPairs _ _ hJump.operator, hJump.rate⟩
  times := hMatches.times

theorem PlannedExperiment.Matches.mono
    {e e' : PlannedExperiment R}
    (hMatches : e.Matches ρ e')
    (hPairs : ρ.Within ρ') :
    e.Matches ρ' e' where
  name := hMatches.name
  initialState := hPairs _ _ hMatches.initialState
  evolution := by
    rcases cases_of_rel hMatches.evolution with
      ⟨hNone, hNone'⟩ | ⟨_, _, hSome, hSome', hEvolution⟩
    · rw [hNone, hNone']
      exact .none
    · rw [hSome, hSome']
      exact .some (hEvolution.mono hPairs)
  measurements := hMatches.measurements.imp fun _ _ hMeasurement =>
    hMeasurement.mono hPairs

/- The times of an experiment are the same. -/
theorem PlannedExperiment.Matches.timesOf_eq
    [Arithmetic R]
    {e e' : PlannedExperiment R}
    (hMatches : e.Matches ρ e') :
    Plan.timesOf e' = Plan.timesOf e := by
  unfold Plan.timesOf
  rcases cases_of_rel hMatches.evolution with
    ⟨hNone, hNone'⟩ | ⟨_, _, hSome, hSome', hEvolution⟩
  · rw [hNone, hNone']
  · rw [hSome, hSome']
    exact hEvolution.times

theorem PlannedExperiment.Matches.points_eq
    {e e' : PlannedExperiment R}
    (hMatches : e.Matches ρ e') :
    e'.points = e.points := by
  unfold points
  rcases cases_of_rel hMatches.evolution with
    ⟨hNone, hNone'⟩ | ⟨_, _, hSome, hSome', hEvolution⟩
  · rw [hNone, hNone']
  · rw [hSome, hSome']
    exact congrArg List.length hEvolution.times

/- The operators of measurements are paired one by one. -/
theorem forall₂_operators
    {ms ms' : List PlannedMeasurement}
    (hMatches : List.Forall₂ (PlannedMeasurement.Matches ρ) ms ms') :
    List.Forall₂ ρ (ms.flatMap PlannedMeasurement.operators)
      (ms'.flatMap PlannedMeasurement.operators) := by
  induction hMatches with
  | nil => exact .nil
  | cons hHead _ ih =>
      rw [List.flatMap_cons, List.flatMap_cons]
      exact List.rel_append hHead.operators ih

theorem PlannedEvolution.Matches.roots
    {evolution evolution' : PlannedEvolution R}
    (hMatches : evolution.Matches ρ evolution') :
    List.Forall₂ ρ evolution.roots evolution'.roots := by
  refine .cons hMatches.hamiltonian ?_
  rw [hMatches.method]
  cases evolution.method with
  | schrodinger => exact .nil
  | lindblad =>
      exact List.forall₂_map_left_iff.2
        (List.forall₂_map_right_iff.2
          (hMatches.jumps.imp fun _ _ hJump => hJump.operator))

/- The nodes that an experiment uses are paired one by one. -/
theorem PlannedExperiment.Matches.roots
    {e e' : PlannedExperiment R}
    (hMatches : e.Matches ρ e') :
    List.Forall₂ ρ e.roots e'.roots := by
  refine .cons hMatches.initialState
    (List.rel_append ?_ (forall₂_operators hMatches.measurements))
  rcases cases_of_rel hMatches.evolution with
    ⟨hNone, hNone'⟩ | ⟨_, _, hSome, hSome', hEvolution⟩
  · rw [hNone, hNone']
    exact .nil
  · rw [hSome, hSome']
    exact hEvolution.roots

end QuantumLab

------------------------------------------------------------
-- Plans that correspond
------------------------------------------------------------

namespace QuantumLab

variable {R : Type}

namespace Plan

/-
  The nodes of two plans are paired one by one.  Paired nodes
  have the same operation on paired operands, and the
  experiments are the same on paired nodes.
-/
structure Corresponds
    (ρ : Pairing)
    (plan plan' : Plan R) : Prop where
  functional : ∀ k l l', ρ k l → ρ k l' → l = l'
  injective : ∀ k l m, ρ k m → ρ l m → k = l
  nodes : ∀ k k', ρ k k' → ∃ operation operation',
    plan.operation? k = some operation ∧
      plan'.operation? k' = some operation' ∧
        operation.Matches ρ operation'
  experiments : List.Forall₂ (PlannedExperiment.Matches ρ)
    plan.experiments plan'.experiments

variable
  {ρ : Pairing}
  {plan plan' : Plan R}

namespace Corresponds

/- Paired nodes are there. -/
theorem inside
    {k k' : NodeId}
    (hSame : plan.Corresponds ρ plan')
    (hPair : ρ k k') :
    k < plan.size ∧ k' < plan'.size := by
  rcases hSame.nodes k k' hPair with ⟨_, _, hNode, hNode', _⟩
  exact ⟨lt_size_of_operation hNode, lt_size_of_operation hNode'⟩

/- The second plan may have more nodes. -/
theorem grow
    {later : Plan R}
    (hSame : plan.Corresponds ρ plan')
    (hNodes : ∀ k < plan'.size, later.operation? k = plan'.operation? k)
    (hExperiments : later.experiments = plan'.experiments) :
    plan.Corresponds ρ later where
  functional := hSame.functional
  injective := hSame.injective
  nodes k k' hPair := by
    rcases hSame.nodes k k' hPair with
      ⟨operation, operation', hNode, hNode', hMatches⟩
    have hKept := hNodes k' (hSame.inside hPair).2
    exact ⟨operation, operation', hNode, hKept.trans hNode', hMatches⟩
  experiments := by
    rw [hExperiments]
    exact hSame.experiments

/- A new node is paired with one that had no partner. -/
theorem addNode
    {k' : NodeId}
    {operation operation' : Operation R}
    (hSame : plan.Corresponds ρ plan')
    (hAlone : ∀ k, ¬ ρ k k')
    (hNode' : plan'.operation? k' = some operation')
    (hMatches : operation.Matches ρ operation') :
    (plan.addNode operation).Corresponds (ρ.add plan.size k') plan' where
  functional := by
    rintro k l l' (hFirst | ⟨rfl, rfl⟩) (hSecond | ⟨hLast, rfl⟩)
    · exact hSame.functional k l l' hFirst hSecond
    · exact absurd (hSame.inside hFirst).1 (hLast ▸ Nat.lt_irrefl _)
    · exact absurd (hSame.inside hSecond).1 (Nat.lt_irrefl _)
    · rfl
  injective := by
    rintro k l m (hFirst | ⟨rfl, rfl⟩) (hSecond | ⟨rfl, hLast⟩)
    · exact hSame.injective k l m hFirst hSecond
    · exact absurd (hLast ▸ hFirst) (hAlone k)
    · exact absurd hSecond (hAlone l)
    · rfl
  nodes := by
    rintro k l (hPair | ⟨rfl, rfl⟩)
    · rcases hSame.nodes k l hPair with
        ⟨found, found', hFound, hFound', hFoundMatches⟩
      refine ⟨found, found', ?_, hFound',
        hFoundMatches.mono (ρ.within_add _ _)⟩
      have hInside := (hSame.inside hPair).1
      rw [operation?, Plan.addNode, Array.getElem?_push_lt hInside]
      exact (Array.getElem?_eq_getElem hInside).symm.trans hFound
    · refine ⟨operation, operation', ?_, hNode',
        hMatches.mono (ρ.within_add _ _)⟩
      simp [operation?, Plan.addNode, size]
  experiments := hSame.experiments.imp fun _ _ hPair =>
    hPair.mono (ρ.within_add _ _)

/- The nodes behind a node are paired with those behind its partner. -/
theorem exists_uses
    {root root' node : NodeId}
    (hSame : plan.Corresponds ρ plan')
    (hRoot : ρ root root')
    (hUses : plan.Uses root node) :
    ∃ node', ρ node node' ∧ plan'.Uses root' node' := by
  induction hUses with
  | self => exact ⟨root', hRoot, .self⟩
  | @operand user operand operation _ hOperation hOperand ih =>
      rcases ih with ⟨user', hUser, hUses'⟩
      rcases hSame.nodes user user' hUser with
        ⟨found, found', hFound, hFound', hMatches⟩
      cases hOperation.symm.trans hFound
      rcases exists_of_forall₂_left hMatches.operands operand hOperand
        with ⟨operand', hOperand', hPair⟩
      exact ⟨operand', hPair, .operand hUses' hFound' hOperand'⟩

theorem exists_uses_left
    {root root' node' : NodeId}
    (hSame : plan.Corresponds ρ plan')
    (hRoot : ρ root root')
    (hUses : plan'.Uses root' node') :
    ∃ node, ρ node node' ∧ plan.Uses root node := by
  induction hUses with
  | self => exact ⟨root, hRoot, .self⟩
  | @operand user' operand' operation _ hOperation hOperand ih =>
      rcases ih with ⟨user, hUser, hUses⟩
      rcases hSame.nodes user user' hUser with
        ⟨found, found', hFound, hFound', hMatches⟩
      cases hOperation.symm.trans hFound'
      rcases exists_of_forall₂_right hMatches.operands operand' hOperand
        with ⟨operand, hOperand', hPair⟩
      exact ⟨operand, hPair, .operand hUses hFound hOperand'⟩

/- Each node that is reached is paired with one that is reached. -/
theorem exists_reaches
    {node : NodeId}
    (hSame : plan.Corresponds ρ plan')
    (hReaches : plan.Reaches node) :
    ∃ node', ρ node node' ∧ plan'.Reaches node' := by
  rcases hReaches with ⟨e, hMember, root, hRoot, hUses⟩
  rcases exists_of_forall₂_left hSame.experiments e hMember with
    ⟨e', hMember', hMatches⟩
  rcases exists_of_forall₂_left hMatches.roots root hRoot with
    ⟨root', hRoot', hPair⟩
  rcases hSame.exists_uses hPair hUses with ⟨node', hNode, hUses'⟩
  exact ⟨node', hNode, e', hMember', root', hRoot', hUses'⟩

theorem exists_reaches_left
    {node' : NodeId}
    (hSame : plan.Corresponds ρ plan')
    (hReaches : plan'.Reaches node') :
    ∃ node, ρ node node' ∧ plan.Reaches node := by
  rcases hReaches with ⟨e', hMember, root', hRoot, hUses⟩
  rcases exists_of_forall₂_right hSame.experiments e' hMember with
    ⟨e, hMember', hMatches⟩
  rcases exists_of_forall₂_right hMatches.roots root' hRoot with
    ⟨root, hRoot', hPair⟩
  rcases hSame.exists_uses_left hPair hUses with ⟨node, hNode, hUses'⟩
  exact ⟨node, hNode, e, hMember', root, hRoot', hUses'⟩

/- As many nodes are reached in both plans. -/
theorem ncard_reaches
    (hSame : plan.Corresponds ρ plan') :
    {id | plan'.Reaches id}.ncard = {id | plan.Reaches id}.ncard := by
  choose partner hPartner using
    fun (k : NodeId) (hReaches : plan.Reaches k) =>
      hSame.exists_reaches hReaches
  symm
  refine Set.ncard_congr (s := {id | plan.Reaches id})
    (t := {id | plan'.Reaches id}) partner ?_ ?_ ?_
  · exact fun k hReaches => (hPartner k hReaches).2
  · intro k l hFirst hSecond hEqual
    refine hSame.injective k l _ (hPartner k hFirst).1 ?_
    rw [hEqual]
    exact (hPartner l hSecond).1
  · intro k' hReaches'
    rcases hSame.exists_reaches_left hReaches' with
      ⟨k, hPair, hReaches⟩
    exact ⟨k, hReaches,
      hSame.functional k _ _ (hPartner k hReaches).1 hPair⟩

/- The second plan refers to nothing that is not there. -/
theorem wellFormed
    (hSame : plan.Corresponds ρ plan')
    (hPlan : plan.WellFormed)
    (hBackward : plan'.IsBackward) :
    plan'.WellFormed where
  backward := hBackward
  refers e' hMember := by
    rcases exists_of_forall₂_right hSame.experiments e' hMember with
      ⟨e, _, hMatches⟩
    have hEvolution : ∀ evolution', e'.evolution = some evolution' →
        ∃ evolution : PlannedEvolution R,
          evolution.Matches ρ evolution' := by
      intro evolution' hGiven
      rcases cases_of_rel hMatches.evolution with
        ⟨_, hNone'⟩ | ⟨evolution, _, _, hSome', hPair⟩
      · rw [hNone'] at hGiven
        cases hGiven
      · rw [hSome'] at hGiven
        cases hGiven
        exact ⟨evolution, hPair⟩
    constructor
    · exact (hSame.inside hMatches.initialState).2
    · intro evolution' hGiven
      rcases hEvolution evolution' hGiven with ⟨_, hPair⟩
      exact (hSame.inside hPair.hamiltonian).2
    · intro evolution' hGiven jump' hJump
      rcases hEvolution evolution' hGiven with ⟨_, hPair⟩
      rcases exists_of_forall₂_right hPair.jumps jump' hJump with
        ⟨jump, _, hJumps⟩
      exact (hSame.inside hJumps.operator).2
    · intro m' hMeasurement id' hOperator
      rcases exists_of_forall₂_right hMatches.measurements m'
        hMeasurement with ⟨m, _, hPair⟩
      rcases exists_of_forall₂_right hPair.operators id' hOperator with
        ⟨id, _, hIds⟩
      exact (hSame.inside hIds).2
  proper e' hMember m' hMeasurement := by
    rcases exists_of_forall₂_right hSame.experiments e' hMember with
      ⟨e, hExperiment, hMatches⟩
    rcases exists_of_forall₂_right hMatches.measurements m' hMeasurement
      with ⟨m, hMade, hPair⟩
    have hProper := hPlan.proper e hExperiment m hMade
    have hLength := hPair.operators.length_eq
    constructor
    · rw [hPair.timeIndex, hMatches.points_eq]
      exact hProper.inside
    · rw [← List.length_pos_iff, ← hLength, List.length_pos_iff]
      exact hProper.nonempty
    · rw [hPair.kind, ← hLength]
      exact hProper.single

end Corresponds

end Plan

end QuantumLab

------------------------------------------------------------
-- Values of paired nodes
------------------------------------------------------------

namespace QuantumLab

variable {R : Type} [Arithmetic R]

namespace Plan

variable
  {ρ : Pairing}
  {plan plan' : Plan R}

/- Paired nodes have the same values. -/
theorem Corresponds.denote_eq
    {k k' : NodeId}
    {value : Value R}
    (hSame : plan.Corresponds ρ plan')
    (hBackward : plan'.IsBackward)
    (hPair : ρ k k')
    (hValue : plan.denote k = .ok value) :
    plan'.denote k' = .ok value := by
  induction k using Nat.strong_induction_on generalizing k' value with
  | _ k ih =>
      rcases denote_eq_ok_iff.1 hValue with
        ⟨operation, hOperation, hBefore, hComputed⟩
      rcases hSame.nodes k k' hPair with
        ⟨found, found', hFound, hFound', hMatches⟩
      cases hOperation.symm.trans hFound
      have hOperands : ∀ l ∈ operation.operands, ∀ l', ρ l l' →
          Tracks (· = ·) (plan.denote l) (plan'.denote l') := by
        intro l hOperand l' hOperands used hUsed
        exact ⟨used, ih l (hBefore l hOperand) hOperands hUsed, rfl⟩
      have hTracks : Tracks (· = ·)
          (operation.compute plan.denote k)
          (found'.compute plan'.denote k') :=
        hMatches.tracks_compute hOperands
      rcases hTracks value hComputed with ⟨_, hComputed', rfl⟩
      exact denote_eq_ok_iff.2
        ⟨found', hFound', hBackward k' found' hFound', hComputed'⟩

/- Experiments on two plans that keep the values of their nodes. -/
abbrev Follows
    (plan plan' : Plan R)
    {α β : Type}
    (P : α → β → Prop)
    (x : Session R α)
    (y : Session R β) : Prop :=
  Session.Tracks (Memo.Valid plan) (Memo.Valid plan') P x y

namespace Corresponds

theorem follows_evaluate
    {k k' : NodeId}
    (hSame : plan.Corresponds ρ plan')
    (hBackward : plan'.IsBackward)
    (hPair : ρ k k') :
    plan.Follows plan' (· = ·) (plan.evaluate k)
      (plan'.evaluate k') := by
  intro memo memo' value later hValid hValid' hRun
  rcases plan.evaluate_meets k memo hValid with ⟨hLater, hEnds⟩
  rcases plan'.evaluate_meets k' memo' hValid' with ⟨hLater', hEnds'⟩
  rw [hRun] at hLater hEnds
  have hValue := hSame.denote_eq hBackward hPair hEnds
  rcases hRun' : (plan'.evaluate k').run memo' with ⟨result, later'⟩
  rw [hRun'] at hLater' hEnds'
  cases result with
  | error fault => exact (hEnds'.denote_ne_ok hValue).elim
  | ok value' =>
      have hValue' : plan'.denote k' = .ok value' := hEnds'
      cases hValue.symm.trans hValue'
      exact ⟨value, later', rfl, hLater, hLater', rfl⟩

theorem follows_evaluateMatrix
    {k k' : NodeId}
    (hSame : plan.Corresponds ρ plan')
    (hBackward : plan'.IsBackward)
    (hPair : ρ k k') :
    plan.Follows plan' (· = ·) (plan.evaluateMatrix k)
      (plan'.evaluateMatrix k') := by
  refine (hSame.follows_evaluate hBackward hPair).bind ?_
  rintro value _ rfl
  cases value with
  | matrix a => exact .pure rfl
  | scalar z => exact .lift .of_error
  | vector v => exact .lift .of_error

theorem follows_evaluateChannels
    {jumps jumps' : List (Jump R)}
    (hSame : plan.Corresponds ρ plan')
    (hBackward : plan'.IsBackward)
    (hJumps : List.Forall₂ (Jump.Matches ρ) jumps jumps') :
    plan.Follows plan' (· = ·) (plan.evaluateChannels jumps)
      (plan'.evaluateChannels jumps') := by
  refine Session.Tracks.mapM_eq hJumps fun jump jump' hJump => ?_
  refine (hSame.follows_evaluateMatrix hBackward hJump.operator).bind ?_
  rintro a _ rfl
  exact .pure (by rw [hJump.rate])

theorem follows_evolve
    {e e' : PlannedExperiment R}
    {evolution evolution' : PlannedEvolution R}
    (hSame : plan.Corresponds ρ plan')
    (hBackward : plan'.IsBackward)
    (hEvolution : evolution.Matches ρ evolution')
    (initial : Value R)
    (rho : Mat R) :
    plan.Follows plan' (· = ·) (plan.evolve e evolution initial rho)
      (plan'.evolve e' evolution' initial rho) := by
  refine (hSame.follows_evaluateMatrix hBackward
    hEvolution.hamiltonian).bind ?_
  rintro h _ rfl
  rw [hEvolution.method, hEvolution.times]
  cases evolution.method with
  | schrodinger =>
      cases initial with
      | vector ket =>
          refine Session.Tracks.bind (.lift (.of_eq rfl)) ?_
          rintro kets _ rfl
          exact .pure rfl
      | scalar z => exact .fail
      | matrix a => exact .fail
  | lindblad =>
      refine (hSame.follows_evaluateChannels hBackward
        hEvolution.jumps).bind ?_
      rintro channels _ rfl
      refine Session.Tracks.bind (.lift (.of_eq rfl)) ?_
      rintro states _ rfl
      exact .pure rfl

theorem follows_states
    {e e' : PlannedExperiment R}
    (hSame : plan.Corresponds ρ plan')
    (hBackward : plan'.IsBackward)
    (hMatches : e.Matches ρ e') :
    plan.Follows plan' (· = ·) (plan.states e) (plan'.states e') := by
  refine (hSame.follows_evaluate hBackward
    hMatches.initialState).bind ?_
  rintro initial _ rfl
  cases densityOf? initial with
  | none => exact .fail
  | some rho =>
      rcases cases_of_rel hMatches.evolution with
        ⟨hNone, hNone'⟩ | ⟨_, _, hSome, hSome', hEvolution⟩
      · rw [hNone, hNone']
        exact .pure rfl
      · rw [hSome, hSome']
        exact hSame.follows_evolve hBackward hEvolution initial rho

omit [Arithmetic R] in
/- A measurement on paired operators can be made as well. -/
theorem tracks_requireMeasurable
    {m m' : PlannedMeasurement}
    (hMatches : m.Matches ρ m')
    (times : List R)
    (states : List (Mat R)) :
    Tracks (· = ·) (requireMeasurable m times states)
      (requireMeasurable m' times states) := by
  unfold requireMeasurable
  rw [hMatches.timeIndex, hMatches.kind, hMatches.name,
    isEmpty_eq_of_forall₂ hMatches.operators,
    ← hMatches.operators.length_eq]
  exact .of_eq rfl

theorem follows_measure
    {m m' : PlannedMeasurement}
    (hSame : plan.Corresponds ρ plan')
    (hBackward : plan'.IsBackward)
    (hMatches : m.Matches ρ m')
    (tolerance : R)
    (times : List R)
    (states : List (Mat R)) :
    plan.Follows plan' (· = ·) (plan.measure tolerance times states m)
      (plan'.measure tolerance times states m') := by
  refine Session.Tracks.bind
    (.lift (tracks_requireMeasurable hMatches times states)) ?_
  rintro ⟨time, rho⟩ _ rfl
  refine Session.Tracks.bind
    (Session.Tracks.mapM_eq hMatches.operators fun id id' hPair =>
      hSame.follows_evaluateMatrix hBackward hPair) ?_
  rintro operators _ rfl
  rw [hMatches.kind, hMatches.name, hMatches.timeIndex]
  split
  · refine Session.Tracks.bind (.lift (.of_eq rfl)) ?_
    rintro x _ rfl
    exact .pure rfl
  · refine Session.Tracks.bind (.lift (.of_eq rfl)) ?_
    rintro ps _ rfl
    exact .pure rfl

/- An experiment on paired nodes has the same outcomes. -/
theorem follows_runExperiment
    {e e' : PlannedExperiment R}
    (hSame : plan.Corresponds ρ plan')
    (hBackward : plan'.IsBackward)
    (hMatches : e.Matches ρ e')
    (tolerance : R) :
    plan.Follows plan' (· = ·) (plan.runExperiment tolerance e)
      (plan'.runExperiment tolerance e') := by
  rcases hSame.inside hMatches.initialState with ⟨hInside, hInside'⟩
  unfold runExperiment
  rw [if_neg (Nat.not_le.2 hInside), if_neg (Nat.not_le.2 hInside'),
    hMatches.timesOf_eq, hMatches.name]
  refine (hSame.follows_states hBackward hMatches).bind ?_
  rintro ⟨stateType, states⟩ _ rfl
  refine Session.Tracks.bind
    (Session.Tracks.mapM_eq hMatches.measurements fun m m' hPair =>
      hSame.follows_measure hBackward hPair tolerance
        (timesOf e) states) ?_
  rintro outcomes _ rfl
  exact .pure rfl

------------------------------------------------------------
-- Whole plans
------------------------------------------------------------

/- Experiments on paired nodes have the same outcomes together. -/
theorem exists_runAll
    {memo memo' later : Memo R}
    {tolerance : R}
    {experiments experiments' : List (PlannedExperiment R)}
    {results : List (ExperimentResult R)}
    (hSame : plan.Corresponds ρ plan')
    (hBackward : plan'.IsBackward)
    (hPairs : List.Forall₂ (PlannedExperiment.Matches ρ)
      experiments experiments')
    (hValid : memo.Valid plan)
    (hValid' : memo'.Valid plan')
    (hResults : plan.runAll tolerance memo experiments =
      .ok (results, later)) :
    ∃ later', plan'.runAll tolerance memo' experiments' =
      .ok (results, later') := by
  induction hPairs generalizing memo memo' results with
  | nil =>
      cases hResults
      exact ⟨memo', rfl⟩
  | @cons e e' rest rest' hHead _ ih =>
      unfold runAll at hResults ⊢
      rcases hRun : (plan.runExperiment tolerance e).run memo with
        ⟨result, next⟩
      rw [hRun] at hResults
      cases result with
      | error fault => cases hResults
      | ok result =>
          rcases bind_eq_ok_iff.1 hResults with
            ⟨⟨others, last⟩, hRest, hDone⟩
          cases pure_eq_ok_iff.1 hDone
          rcases hSame.follows_runExperiment hBackward hHead tolerance
              memo memo' result next hValid hValid' hRun with
            ⟨_, next', hRun', hNext, hNext', rfl⟩
          rcases ih hNext hNext' hRest with ⟨last', hRest'⟩
          refine ⟨last', ?_⟩
          simp only [hRun', hRest']
          rfl

/-
  The second plan has the same results, and as many of its
  nodes are computed.
-/
theorem execute_eq
    {config : BackendConfig}
    {tolerance : R}
    {result : ExecutionResult R × Nat}
    (hSame : plan.Corresponds ρ plan')
    (hBackward : plan'.IsBackward)
    (hResult : plan.execute config tolerance = .ok result) :
    plan'.execute config tolerance = .ok result := by
  unfold execute at hResult ⊢
  cases hBackend : config.backend with
  | cpuDense =>
      rw [hBackend] at hResult
      rcases bind_eq_ok_iff.1 hResult with
        ⟨⟨results, memo⟩, hAll, hDone⟩
      cases pure_eq_ok_iff.1 hDone
      rcases hSame.exists_runAll hBackward hSame.experiments
          (Memo.valid_initial plan) (Memo.valid_initial plan') hAll with
        ⟨memo', hAll'⟩
      have hCount : memo'.computed = memo.computed := by
        rw [computed_of_runAll hAll, computed_of_runAll hAll',
          hSame.ncard_reaches]
      simp only [hAll', ok_bind, hCount]
      rfl
  | _ =>
      rw [hBackend] at hResult
      cases hResult

end Corresponds

end Plan

end QuantumLab
