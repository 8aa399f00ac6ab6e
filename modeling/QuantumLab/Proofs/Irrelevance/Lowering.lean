import QuantumLab.Proofs.Irrelevance.Names
import QuantumLab.Proofs.Irrelevance.Plans
import QuantumLab.Proofs.Lowering.Statements

/-
  This file compares two lowerings that agree about all names
  but one.  The nodes of the first are paired with nodes of
  the second, which may have others in between.  In
  particular the second may have the node of a predefined
  operator before the first needs it; then it is paired when
  it is used.

  Key definitions include:
    * `Lowering.Pairs`
    * `Lowering.Stands`
    * `Lowering.Embeds`
    * `Lowering.Reached`

  Main statements:
    * `Lowering.tracks_resolve` says what a name is resolved
      to in both lowerings.
    * `Lowering.tracks_lower` says what an expression is
      lowered to in both.
-/

------------------------------------------------------------
-- Paired nodes
------------------------------------------------------------

namespace QuantumLab

variable {R : Type}

namespace Lowering

/- The nodes of two lowerings are paired, with the same shapes. -/
structure Pairs
    (ρ : Pairing)
    (s s' : Lowering R) : Prop where
  aligned : s.Aligned
  aligned' : s'.Aligned
  plans : s.plan.Corresponds ρ s'.plan
  shapes : ∀ id id', ρ id id' → s'.shapeOf id' = s.shapeOf id

variable
  {ρ : Pairing}
  {s s' : Lowering R}

/- The second lowering may have more nodes. -/
theorem Pairs.emit_right
    (hPairs : Pairs ρ s s')
    (operation : Operation R)
    (shape : Shape) :
    Pairs ρ s (s'.emit operation shape).2 where
  aligned := hPairs.aligned
  aligned' := hPairs.aligned'.emit operation shape
  plans := hPairs.plans.grow
    (fun _ hInside =>
      (s'.appends_emit operation shape).operation?_eq hInside) rfl
  shapes id id' hPair := by
    have hInside : id' < s'.shapes.size :=
      hPairs.aligned' ▸ (hPairs.plans.inside hPair).2
    rw [(s'.appends_emit operation shape).shapeOf_eq hInside]
    exact hPairs.shapes id id' hPair

/- A new node of the first is paired with one that had no partner. -/
theorem Pairs.emit_left
    {id' : NodeId}
    {operation operation' : Operation R}
    {shape : Shape}
    (hPairs : Pairs ρ s s')
    (hAlone : ∀ id, ¬ ρ id id')
    (hNode' : s'.plan.operation? id' = some operation')
    (hShape' : s'.shapeOf id' = shape)
    (hMatches : operation.Matches ρ operation') :
    Pairs (ρ.add s.plan.size id') (s.emit operation shape).2 s' where
  aligned := hPairs.aligned.emit operation shape
  aligned' := hPairs.aligned'
  plans := hPairs.plans.addNode hAlone hNode' hMatches
  shapes := by
    rintro l l' (hPair | ⟨rfl, rfl⟩)
    · have hInside : l < s.shapes.size :=
        hPairs.aligned ▸ (hPairs.plans.inside hPair).1
      rw [(s.appends_emit operation shape).shapeOf_eq hInside]
      exact hPairs.shapes l l' hPair
    · rw [shapeOf_emit hPairs.aligned, hShape']

/- Both lowerings have one more node. -/
theorem Pairs.emit
    {operation operation' : Operation R}
    (hPairs : Pairs ρ s s')
    (hMatches : operation.Matches ρ operation')
    (shape : Shape) :
    Pairs (ρ.add s.plan.size s'.plan.size) (s.emit operation shape).2
      (s'.emit operation' shape).2 := by
  refine (hPairs.emit_right operation' shape).emit_left ?_
    (s'.operation?_emit operation' shape)
    (shapeOf_emit hPairs.aligned' operation' shape) hMatches
  exact fun id hPair =>
    Nat.lt_irrefl _ (hPairs.plans.inside hPair).2

end Lowering

end QuantumLab

------------------------------------------------------------
-- Names
------------------------------------------------------------

namespace QuantumLab

variable {R : Type} [Arithmetic R]

namespace Lowering

/-
  What a name stands for in two lowerings: paired nodes, no
  node, or a predefined operator whose node only the second
  has so far.
-/
inductive Stands
    (ρ : Pairing)
    (s s' : Lowering R)
    (name : String) : Prop where
  | bound
      {id id' : NodeId}
      (hSymbol : s.symbols.find? name = some id)
      (hSymbol' : s'.symbols.find? name = some id')
      (hPair : ρ id id')
  | unbound
      (hSymbol : s.symbols.find? name = none)
      (hSymbol' : s'.symbols.find? name = none)
  | early
      {id' : NodeId}
      {a : Mat R}
      (hSymbol : s.symbols.find? name = none)
      (hSymbol' : s'.symbols.find? name = some id')
      (hPredefined : Predefined.find? name = some a)
      (hNode' : s'.plan.operation? id' = some (.loadMatrix name a))
      (hShape' : s'.shapeOf id' = (Value.matrix a).shape)
      (hAlone : ∀ id, ¬ ρ id id')

/- The same kind of measurement with paired operators. -/
def MeasuresAlike
    (ρ : Pairing)
    (m m' : OutcomeKind × List NodeId) : Prop :=
  m'.1 = m.1 ∧ List.Forall₂ ρ m.2 m'.2

/-
  Two lowerings agree about all names but one, and the nodes
  of the first are paired with nodes of the second.
-/
structure Embeds
    (name : String)
    (ρ : Pairing)
    (s s' : Lowering R) : Prop
    extends Pairs ρ s s' where
  symbols : ∀ other, other ≠ name → Stands ρ s s' other
  symbolic : Table.AgreesOff name s.symbolic s'.symbolic
  measurements : ∀ other, other ≠ name →
    Option.Rel (MeasuresAlike ρ) (s.measurements.find? other)
      (s'.measurements.find? other)
  environment :
    Environment.AgreesOff name s.environment s'.environment

variable
  {name other : String}
  {ρ ρ' : Pairing}
  {s s' t t' : Lowering R}

/-
  A name keeps what it stands for when nodes are added and
  the node of no other early operator gets a partner.
-/
theorem Stands.later
    (hStands : Stands ρ s s' other)
    (hAligned' : s'.Aligned)
    (hSymbol : t.symbols.find? other = s.symbols.find? other)
    (hSymbol' : t'.symbols.find? other = s'.symbols.find? other)
    (hWithin : ρ.Within ρ')
    (hGrows' : s'.Grows t')
    (hAlone : ∀ id' a, Predefined.find? other = some a →
      s'.plan.operation? id' = some (.loadMatrix other a) →
        (∀ id, ¬ ρ id id') → ∀ id, ¬ ρ' id id') :
    Stands ρ' t t' other := by
  cases hStands with
  | bound hFound hFound' hPair =>
      exact .bound (hSymbol.trans hFound) (hSymbol'.trans hFound')
        (hWithin _ _ hPair)
  | unbound hNone hNone' =>
      exact .unbound (hSymbol.trans hNone) (hSymbol'.trans hNone')
  | early hNone hFound' hPredefined hNode' hShape' hUnpaired =>
      have hInside := Plan.lt_size_of_operation hNode'
      refine .early (hSymbol.trans hNone) (hSymbol'.trans hFound')
        hPredefined ?_ ?_ (hAlone _ _ hPredefined hNode' hUnpaired)
      · rw [hGrows'.operation?_eq hInside, hNode']
      · rw [hGrows'.shapeOf_eq (hAligned' ▸ hInside), hShape']

/- The same, when no node gets a partner. -/
theorem Stands.grow
    (hStands : Stands ρ s s' other)
    (hAligned' : s'.Aligned)
    (hSymbol : t.symbols.find? other = s.symbols.find? other)
    (hSymbol' : t'.symbols.find? other = s'.symbols.find? other)
    (hGrows' : s'.Grows t') :
    Stands ρ t t' other :=
  hStands.later hAligned' hSymbol hSymbol' (fun _ _ hPair => hPair)
    hGrows' fun _ _ _ _ hAlone => hAlone

omit [Arithmetic R] in
/- Measurements keep their operators. -/
theorem measuresAlike_mono
    {m m' : Option (OutcomeKind × List NodeId)}
    (hAlike : Option.Rel (MeasuresAlike ρ) m m')
    (hWithin : ρ.Within ρ') :
    Option.Rel (MeasuresAlike ρ') m m' := by
  cases hAlike with
  | none => exact .none
  | some hPair => exact .some ⟨hPair.1, hPair.2.imp hWithin⟩

namespace Embeds

/- Both lowerings have one more node. -/
theorem emit
    {operation operation' : Operation R}
    (hEmbeds : Embeds name ρ s s')
    (hMatches : operation.Matches ρ operation')
    (shape : Shape) :
    Embeds name (ρ.add s.plan.size s'.plan.size)
      (s.emit operation shape).2 (s'.emit operation' shape).2 where
  toPairs := hEmbeds.toPairs.emit hMatches shape
  symbols other hOther := by
    refine (hEmbeds.symbols other hOther).later hEmbeds.aligned' rfl rfl
      (ρ.within_add _ _) (s'.appends_emit operation' shape).toGrows ?_
    rintro id' a _ hNode' hAlone id (hPair | ⟨_, hLast⟩)
    · exact hAlone id hPair
    · exact absurd (Plan.lt_size_of_operation hNode')
        (hLast ▸ Nat.lt_irrefl _)
  symbolic := hEmbeds.symbolic
  measurements other hOther :=
    measuresAlike_mono (hEmbeds.measurements other hOther)
      (ρ.within_add _ _)
  environment := hEmbeds.environment

/- The second lowering may have one more node. -/
theorem emit_right
    (hEmbeds : Embeds name ρ s s')
    (operation : Operation R)
    (shape : Shape) :
    Embeds name ρ s (s'.emit operation shape).2 where
  toPairs := hEmbeds.toPairs.emit_right operation shape
  symbols other hOther :=
    (hEmbeds.symbols other hOther).grow hEmbeds.aligned' rfl rfl
      (s'.appends_emit operation shape).toGrows
  symbolic := hEmbeds.symbolic
  measurements := hEmbeds.measurements
  environment := hEmbeds.environment

/- A name is bound to paired nodes. -/
theorem bind
    {id id' : NodeId}
    (hEmbeds : Embeds name ρ s s')
    (hPair : ρ id id')
    (other : String) :
    Embeds name ρ (s.bind other id) (s'.bind other id') where
  toPairs := ⟨hEmbeds.aligned, hEmbeds.aligned', hEmbeds.plans,
    hEmbeds.shapes⟩
  symbols key hKey := by
    by_cases hSame : other = key
    · subst hSame
      exact .bound (Table.find?_insert_self _ _ _)
        (Table.find?_insert_self _ _ _) hPair
    · refine (hEmbeds.symbols key hKey).grow hEmbeds.aligned' ?_ ?_
        (s'.appends_bind other id').toGrows
      · rw [Lowering.bind, Table.find?_insert, if_neg hSame]
      · rw [Lowering.bind, Table.find?_insert, if_neg hSame]
  symbolic := hEmbeds.symbolic.erase other
  measurements := hEmbeds.measurements
  environment := hEmbeds.environment

/- The second lowering may bind the name to any node. -/
theorem bind_right
    (hEmbeds : Embeds name ρ s s')
    (id' : NodeId) :
    Embeds name ρ s (s'.bind name id') where
  toPairs := ⟨hEmbeds.aligned, hEmbeds.aligned', hEmbeds.plans,
    hEmbeds.shapes⟩
  symbols key hKey := by
    refine (hEmbeds.symbols key hKey).grow hEmbeds.aligned' rfl ?_
      (s'.appends_bind name id').toGrows
    rw [Lowering.bind, Table.find?_insert, if_neg hKey.symm]
  symbolic := hEmbeds.symbolic.erase_right
  measurements := hEmbeds.measurements
  environment := hEmbeds.environment

/- A name is known without a node in both lowerings. -/
theorem declareSymbolic
    (hEmbeds : Embeds name ρ s s')
    (other : String) :
    Embeds name ρ (s.declareSymbolic other)
      (s'.declareSymbolic other) where
  toPairs := ⟨hEmbeds.aligned, hEmbeds.aligned', hEmbeds.plans,
    hEmbeds.shapes⟩
  symbols key hKey := by
    by_cases hSame : other = key
    · subst hSame
      exact .unbound (Table.find?_erase_self _ _)
        (Table.find?_erase_self _ _)
    · refine (hEmbeds.symbols key hKey).grow hEmbeds.aligned' ?_ ?_
        (.of_eq rfl rfl)
      · rw [Lowering.declareSymbolic, Table.find?_erase, if_neg hSame]
      · rw [Lowering.declareSymbolic, Table.find?_erase, if_neg hSame]
  symbolic := hEmbeds.symbolic.insert other ()
  measurements := hEmbeds.measurements
  environment := hEmbeds.environment.declareSymbolic other

theorem declareSymbolic_right
    (hEmbeds : Embeds name ρ s s') :
    Embeds name ρ s (s'.declareSymbolic name) where
  toPairs := ⟨hEmbeds.aligned, hEmbeds.aligned', hEmbeds.plans,
    hEmbeds.shapes⟩
  symbols key hKey := by
    refine (hEmbeds.symbols key hKey).grow hEmbeds.aligned' rfl ?_
      (.of_eq rfl rfl)
    rw [Lowering.declareSymbolic, Table.find?_erase, if_neg hKey.symm]
  symbolic := hEmbeds.symbolic.insert_right ()
  measurements := hEmbeds.measurements
  environment := hEmbeds.environment.declareSymbolic_right

/- Nodes and their names stay while other tables change. -/
theorem of_tables
    {symbolic symbolic' : Names}
    {measurements measurements' : Table (OutcomeKind × List NodeId)}
    {environment environment' : Environment R}
    (hEmbeds : Embeds name ρ s s')
    (hSymbolic : Table.AgreesOff name symbolic symbolic')
    (hMeasurements : ∀ other, other ≠ name →
      Option.Rel (MeasuresAlike ρ) (measurements.find? other)
        (measurements'.find? other))
    (hEnvironment :
      Environment.AgreesOff name environment environment') :
    Embeds name ρ { s with symbolic, measurements, environment }
      { s' with
        symbolic := symbolic'
        measurements := measurements'
        environment := environment' } where
  toPairs := ⟨hEmbeds.aligned, hEmbeds.aligned', hEmbeds.plans,
    hEmbeds.shapes⟩
  symbols key hKey :=
    (hEmbeds.symbols key hKey).grow hEmbeds.aligned' rfl rfl
      (.of_eq rfl rfl)
  symbolic := hSymbolic
  measurements := hMeasurements
  environment := hEnvironment

/- A name has a value in both lowerings. -/
theorem define
    (hEmbeds : Embeds name ρ s s')
    (other : String)
    (value : Value R) :
    Embeds name ρ (s.define other value) (s'.define other value) :=
  hEmbeds.of_tables hEmbeds.symbolic hEmbeds.measurements
    (hEmbeds.environment.define other value)

theorem define_right
    (hEmbeds : Embeds name ρ s s')
    (value : Value R) :
    Embeds name ρ s (s'.define name value) :=
  hEmbeds.of_tables hEmbeds.symbolic hEmbeds.measurements
    (hEmbeds.environment.define_right value)

/- A measurement is noted in both lowerings. -/
theorem measurement
    {m m' : OutcomeKind × List NodeId}
    (hEmbeds : Embeds name ρ s s')
    (hAlike : MeasuresAlike ρ m m')
    (other : String) :
    Embeds name ρ
      { s with measurements := s.measurements.insert other m }
      { s' with measurements := s'.measurements.insert other m' } := by
  refine hEmbeds.of_tables hEmbeds.symbolic (fun key hKey => ?_)
    hEmbeds.environment
  rw [Table.find?_insert, Table.find?_insert]
  by_cases hSame : other = key
  · rw [if_pos hSame, if_pos hSame]
    exact .some hAlike
  · rw [if_neg hSame, if_neg hSame]
    exact hEmbeds.measurements key hKey

theorem measurement_right
    (hEmbeds : Embeds name ρ s s')
    (m' : OutcomeKind × List NodeId) :
    Embeds name ρ s
      { s' with measurements := s'.measurements.insert name m' } := by
  refine hEmbeds.of_tables hEmbeds.symbolic (fun key hKey => ?_)
    hEmbeds.environment
  rw [Table.find?_insert, if_neg hKey.symm]
  exact hEmbeds.measurements key hKey

/- An experiment is planned in both lowerings. -/
theorem experiment
    {e e' : PlannedExperiment R}
    (hEmbeds : Embeds name ρ s s')
    (hMatches : e.Matches ρ e') :
    Embeds name ρ { s with plan := s.plan.addExperiment e }
      { s' with plan := s'.plan.addExperiment e' } where
  toPairs := ⟨hEmbeds.aligned, hEmbeds.aligned',
    { hEmbeds.plans with
      experiments := List.rel_append hEmbeds.plans.experiments
        (.cons hMatches .nil) },
    hEmbeds.shapes⟩
  symbols key hKey :=
    (hEmbeds.symbols key hKey).grow hEmbeds.aligned' rfl rfl
      (.of_eq rfl rfl)
  symbolic := hEmbeds.symbolic
  measurements := hEmbeds.measurements
  environment := hEmbeds.environment

end Embeds

end Lowering

end QuantumLab

------------------------------------------------------------
-- Names that are resolved
------------------------------------------------------------

namespace QuantumLab

variable {R : Type} [Arithmetic R]

namespace Lowering

variable
  {name other : String}
  {ρ : Pairing}
  {s s' : Lowering R}

/-
  The node of a predefined operator that the second lowering
  already has is paired with the new node of the first.
-/
theorem Embeds.bind_early
    {id' : NodeId}
    {a : Mat R}
    (hEmbeds : Embeds name ρ s s')
    (hSymbol' : s'.symbols.find? other = some id')
    (hUnknown : s.symbolic.contains other = false)
    (hNode' : s'.plan.operation? id' = some (.loadMatrix other a))
    (hShape' : s'.shapeOf id' = (Value.matrix a).shape)
    (hAlone : ∀ id, ¬ ρ id id') :
    Embeds name (ρ.add s.plan.size id')
      ((s.emitConstant other (.matrix a)).2.bind other s.plan.size)
      s' := by
  have hPairs := hEmbeds.toPairs.emit_left hAlone hNode' hShape'
    (.constant ρ other (.matrix a))
  refine ⟨⟨hPairs.aligned, hPairs.aligned', hPairs.plans,
    hPairs.shapes⟩, ?_, ?_, ?_, hEmbeds.environment⟩
  · intro key hKey
    by_cases hSame : other = key
    · subst hSame
      exact .bound (Table.find?_insert_self _ _ _) hSymbol'
        (ρ.add_self _ _)
    · refine (hEmbeds.symbols key hKey).later hEmbeds.aligned' ?_ rfl
        (ρ.within_add _ _) (.of_eq rfl rfl) ?_
      · exact (Table.find?_insert _ _ _ _).trans (if_neg hSame)
      · -- another operator has a node of its own
        rintro early b _ hEarly hUnpaired id (hPair | ⟨_, rfl⟩)
        · exact hUnpaired id hPair
        · cases hEarly.symm.trans hNode'
          exact hSame rfl
  · intro key hKey
    refine (hEmbeds.symbolic key hKey).trans ?_
    refine Eq.trans ?_ (Table.find?_erase _ _ _).symm
    by_cases hSame : other = key
    · subst hSame
      rw [if_pos rfl]
      rw [Table.contains, Option.isSome_eq_false_iff,
        Option.isNone_iff_eq_none] at hUnknown
      exact hUnknown
    · rw [if_neg hSame]
      rfl
  · intro key hKey
    exact measuresAlike_mono (hEmbeds.measurements key hKey)
      (ρ.within_add _ _)

/-
  Results of two lowerings that agree, and states that agree
  after them, with the old pairs still together.
-/
def Reached
    {α β : Type}
    (name : String)
    (ρ : Pairing)
    (P : Pairing → α → β → Prop)
    (p : α × Lowering R)
    (p' : β × Lowering R) : Prop :=
  ∃ later : Pairing, ρ.Within later ∧ P later p.1 p'.1 ∧
    Embeds name later p.2 p'.2

section Reached

variable
  {α β γ δ : Type}
  {ρ' : Pairing}
  {P : Pairing → α → β → Prop}
  {Q : Pairing → γ → δ → Prop}

theorem Embeds.reached
    {a : α}
    {b : β}
    (hEmbeds : Embeds name ρ s s')
    (hResult : P ρ a b) :
    Reached name ρ P (a, s) (b, s') :=
  ⟨ρ, fun _ _ hPair => hPair, hResult, hEmbeds⟩

theorem Reached.of_within
    {p : α × Lowering R}
    {p' : β × Lowering R}
    (hReached : Reached name ρ' P p p')
    (hWithin : ρ.Within ρ') :
    Reached name ρ P p p' := by
  rcases hReached with ⟨later, hLater, hResult, hEmbeds⟩
  exact ⟨later, fun k k' hPair => hLater k k' (hWithin k k' hPair),
    hResult, hEmbeds⟩

/- The next part may use what the first has led to. -/
theorem tracks_bind
    {x : Except (Fault R) (α × Lowering R)}
    {y : Except (Fault R) (β × Lowering R)}
    {f : α × Lowering R → Except (Fault R) (γ × Lowering R)}
    {g : β × Lowering R → Except (Fault R) (δ × Lowering R)}
    (hFirst : Tracks (Reached name ρ P) x y)
    (hSecond : ∀ later a b t t', ρ.Within later → P later a b →
      Embeds name later t t' →
        Tracks (Reached name later Q) (f (a, t)) (g (b, t'))) :
    Tracks (Reached name ρ Q) (x >>= f) (y >>= g) := by
  refine hFirst.bind ?_
  rintro ⟨a, t⟩ ⟨b, t'⟩ ⟨later, hWithin, hResult, hEmbeds⟩
  exact (hSecond later a b t t' hWithin hResult hEmbeds).imp
    fun _ _ hReached => hReached.of_within hWithin

/- The node that is added to both lowerings is a pair. -/
theorem Embeds.reached_emit
    {operation operation' : Operation R}
    {shape shape' : Shape}
    (hEmbeds : Embeds name ρ s s')
    (hMatches : operation.Matches ρ operation')
    (hShape : shape' = shape) :
    Reached name ρ (fun later => later) (s.emit operation shape)
      (s'.emit operation' shape') := by
  subst hShape
  exact ⟨_, ρ.within_add _ _, ρ.add_self _ _,
    hEmbeds.emit hMatches shape'⟩

theorem Embeds.reached_emitConstant
    (hEmbeds : Embeds name ρ s s')
    (constant : String)
    (value : Value R) :
    Reached name ρ (fun later => later) (s.emitConstant constant value)
      (s'.emitConstant constant value) :=
  hEmbeds.reached_emit (.constant ρ constant value) rfl

end Reached

/-
  A name is resolved to paired nodes.  The node of a
  predefined operator is new in both lowerings, or the second
  has it already.
-/
theorem tracks_resolve
    (hEmbeds : Embeds name ρ s s')
    (hOther : other ≠ name) :
    Tracks (Reached name ρ fun later => later) (s.resolve other)
      (s'.resolve other) := by
  unfold resolve
  cases hEmbeds.symbols other hOther with
  | bound hSymbol hSymbol' hPair =>
      rw [hSymbol, hSymbol']
      exact .of_ok (hEmbeds.reached hPair)
  | unbound hSymbol hSymbol' =>
      rw [hSymbol, hSymbol', hEmbeds.symbolic.contains hOther]
      simp only
      split
      · exact .of_error
      · split
        · next a hFound =>
          have hNode := hEmbeds.emit
            (.constant ρ other (.matrix a)) (Value.matrix a).shape
          exact .of_ok ⟨_, ρ.within_add _ _, ρ.add_self _ _,
            hNode.bind (ρ.add_self _ _) other⟩
        · exact .of_error
  | @early id' a hSymbol hSymbol' hPredefined hNode' hShape' hAlone =>
      rw [hSymbol, hSymbol', hPredefined]
      simp only
      split
      · exact .of_error
      · next hKnown =>
        rw [Bool.not_eq_true] at hKnown
        exact .of_ok ⟨_, ρ.within_add _ _, ρ.add_self _ _,
          hEmbeds.bind_early hSymbol' hKnown hNode' hShape' hAlone⟩

end Lowering

end QuantumLab

------------------------------------------------------------
-- Operations on paired nodes
------------------------------------------------------------

namespace QuantumLab

variable {R : Type} [Arithmetic R]

namespace Lowering

variable
  {name : String}
  {ρ : Pairing}
  {s s' : Lowering R}
  {k k' l l' r r' : NodeId}

theorem Embeds.reached_emitProduct
    (hEmbeds : Embeds name ρ s s')
    (hLeft : ρ l l')
    (hRight : ρ r r') :
    Reached name ρ (fun later => later) (s.emitProduct l r)
      (s'.emitProduct l' r') := by
  have hLeftShape := hEmbeds.shapes l l' hLeft
  have hRightShape := hEmbeds.shapes r r' hRight
  unfold emitProduct
  simp only [hLeftShape, hRightShape]
  split
  · exact hEmbeds.reached_emit (.scalarMul hLeft hRight) rfl
  · split
    · exact hEmbeds.reached_emit (.scalarMul hRight hLeft) rfl
    · split
      · exact hEmbeds.reached_emit (.matrixMul hLeft hRight) rfl
      · exact hEmbeds.reached_emit (.matrixMul hLeft hRight) rfl

theorem Embeds.reached_emitDifference
    (hEmbeds : Embeds name ρ s s')
    (hLeft : ρ l l')
    (hRight : ρ r r') :
    Reached name ρ (fun later => later) (s.emitDifference l r)
      (s'.emitDifference l' r') := by
  rcases hEmbeds.reached_emitConstant ""
      (.scalar (Scalar.ofReal (-(1.0 : R)))) with
    ⟨ρ₁, hWithin₁, hFactor, hEmbeds₁⟩
  rcases hEmbeds₁.reached_emit
      (.scalarMul hFactor (hWithin₁ r r' hRight))
      (hEmbeds.shapes r r' hRight) with
    ⟨ρ₂, hWithin₂, hNegated, hEmbeds₂⟩
  have hLast := hEmbeds₂.reached_emit
    (.matrixAdd (hWithin₂ l l' (hWithin₁ l l' hLeft)) hNegated)
    (hEmbeds.shapes l l' hLeft)
  exact (hLast.of_within hWithin₂).of_within hWithin₁

theorem Embeds.reached_emitAnticommutator
    (hEmbeds : Embeds name ρ s s')
    (hLeft : ρ l l')
    (hRight : ρ r r') :
    Reached name ρ (fun later => later) (s.emitAnticommutator l r)
      (s'.emitAnticommutator l' r') := by
  have hShape := hEmbeds.shapes l l' hLeft
  rcases hEmbeds.reached_emit (.matrixMul hLeft hRight) hShape with
    ⟨ρ₁, hWithin₁, hForth, hEmbeds₁⟩
  rcases hEmbeds₁.reached_emit
      (.matrixMul (hWithin₁ r r' hRight) (hWithin₁ l l' hLeft)) hShape
    with ⟨ρ₂, hWithin₂, hBack, hEmbeds₂⟩
  have hLast := hEmbeds₂.reached_emit
    (.matrixAdd (hWithin₂ _ _ hForth) hBack) hShape
  exact (hLast.of_within hWithin₂).of_within hWithin₁

/- Operations on two nodes. -/
theorem Embeds.reached_emitBinary
    (hEmbeds : Embeds name ρ s s')
    (hLeft : ρ l l')
    (hRight : ρ r r')
    (op : BinaryOp) :
    Reached name ρ (fun later => later) (s.emitBinary op l r)
      (s'.emitBinary op l' r') := by
  have hShape := hEmbeds.shapes l l' hLeft
  have hSum := hEmbeds.reached_emit (.matrixAdd hLeft hRight) hShape
  cases op with
  | add => exact hSum
  | divide => exact hSum
  | power => exact hSum
  | subtract => exact hEmbeds.reached_emitDifference hLeft hRight
  | multiply => exact hEmbeds.reached_emitProduct hLeft hRight
  | tensor =>
      change Reached name ρ _ (s.emitTensor l r) (s'.emitTensor l' r')
      unfold emitTensor
      rw [hShape, hEmbeds.shapes r r' hRight]
      exact hEmbeds.reached_emit (.tensorProduct hLeft hRight) rfl
  | commutator =>
      exact hEmbeds.reached_emit (.commutator hLeft hRight) hShape
  | anticommutator =>
      exact hEmbeds.reached_emitAnticommutator hLeft hRight

/- Operations on one node. -/
theorem Embeds.reached_emitUnary
    (hEmbeds : Embeds name ρ s s')
    (hOperand : ρ k k')
    (op : UnaryOp) :
    Reached name ρ (fun later => later) (s.emitUnary op k)
      (s'.emitUnary op k') := by
  have hShape := hEmbeds.shapes k k' hOperand
  have hExponential := hEmbeds.reached_emit (.matrixExp hOperand) hShape
  cases op with
  | dagger =>
      exact hEmbeds.reached_emit (.dagger hOperand)
        (congrArg Shape.dagger hShape)
  | trace => exact hEmbeds.reached_emit (.trace hOperand) rfl
  | expm => exact hExponential
  | sqrt => exact hExponential
  | sin => exact hExponential
  | cos => exact hExponential
  | exp => exact hExponential

theorem Embeds.reached_emitQuotient
    (hEmbeds : Embeds name ρ s s')
    (hDividend : ρ k k')
    (factor : Scalar R) :
    Reached name ρ (fun later => later) (s.emitQuotient factor k)
      (s'.emitQuotient factor k') := by
  rcases hEmbeds.reached_emitConstant "" (.scalar factor) with
    ⟨ρ₁, hWithin₁, hFactor, hEmbeds₁⟩
  have hOperand := hWithin₁ k k' hDividend
  exact (hEmbeds₁.reached_emit (.scalarMul hFactor hOperand)
    (hEmbeds₁.shapes k k' hOperand)).of_within hWithin₁

end Lowering

end QuantumLab

------------------------------------------------------------
-- Expressions
------------------------------------------------------------

namespace QuantumLab

variable {R : Type} [Arithmetic R]

namespace Lowering

variable
  {name : String}
  {ρ : Pairing}
  {s s' : Lowering R}
  {e : Expr R}

/- A scalar is folded to the same constant. -/
theorem tracks_fold
    (hEmbeds : Embeds name ρ s s')
    (hAvoids : e.Avoids name)
    (function : String) :
    Tracks (Reached name ρ fun later => later) (s.fold function e)
      (s'.fold function e) := by
  refine Tracks.bind_same
    (Environment.evaluate?_agreesOff hEmbeds.environment hAvoids)
    fun value? _ => ?_
  cases value? with
  | none => exact .of_error
  | some value =>
      cases value with
      | scalar z =>
          exact .of_ok (hEmbeds.reached_emitConstant "" (.scalar z))
      | vector v => exact .of_error
      | matrix a => exact .of_error

theorem reciprocal_agreesOff
    (hEmbeds : Embeds name ρ s s')
    (hAvoids : e.Avoids name) :
    s'.reciprocal e = s.reciprocal e := by
  rw [reciprocal,
    Environment.evaluate?_agreesOff hEmbeds.environment hAvoids,
    reciprocal]

/- A literal is loaded in both lowerings. -/
theorem tracks_literal
    (hEmbeds : Embeds name ρ s s')
    (hAvoids : e.Avoids name) :
    Tracks (Reached name ρ fun later => later)
      (do
        let value ← s.environment.evaluate e
        return s.emitConstant "" value)
      (do
        let value ← s'.environment.evaluate e
        return s'.emitConstant "" value) :=
  Tracks.bind_same
    (Environment.evaluate_agreesOff hEmbeds.environment hAvoids)
    fun value _ => .of_ok (hEmbeds.reached_emitConstant "" value)

/- An operation on two parts is lowered from paired nodes. -/
theorem tracks_binary
    {lhs rhs : Expr R}
    (hEmbeds : Embeds name ρ s s')
    (hLhs : ∀ {ρ s s'}, Embeds name ρ s s' →
      Tracks (Reached name ρ fun later => later) (s.lower lhs)
        (s'.lower lhs))
    (hRhs : ∀ {ρ s s'}, Embeds name ρ s s' →
      Tracks (Reached name ρ fun later => later) (s.lower rhs)
        (s'.lower rhs))
    (op : BinaryOp) :
    Tracks (Reached name ρ fun later => later)
      (do
        let (l, s) ← s.lower lhs
        let (r, s) ← s.lower rhs
        return s.emitBinary op l r)
      (do
        let (l, s) ← s'.lower lhs
        let (r, s) ← s.lower rhs
        return s.emitBinary op l r) := by
  refine tracks_bind (hLhs hEmbeds)
    fun ρ₁ l l' s₁ s₁' _ hLeft hEmbeds₁ => ?_
  refine tracks_bind (hRhs hEmbeds₁)
    fun ρ₂ r r' s₂ s₂' hWithin hRight hEmbeds₂ => ?_
  exact .of_ok
    (hEmbeds₂.reached_emitBinary (hWithin l l' hLeft) hRight op)

/- An expression is lowered to paired nodes. -/
theorem tracks_lower
    (hEmbeds : Embeds name ρ s s')
    (hAvoids : e.Avoids name) :
    Tracks (Reached name ρ fun later => later) (s.lower e)
      (s'.lower e) := by
  induction e using Expr.induction generalizing ρ s s' with
  | missing => exact .of_error
  | number z => exact .of_ok (hEmbeds.reached_emitConstant "" (.scalar z))
  | identifier other =>
      refine tracks_resolve hEmbeds ?_
      rintro rfl
      exact hAvoids.mentions .self
  | matrix rows => exact tracks_literal hEmbeds hAvoids
  | vector elements => exact tracks_literal hEmbeds hAvoids
  | binary op lhs rhs ihLhs ihRhs =>
      have hLhs := hAvoids.part fun _ => Expr.Part.lhs
      have hRhs := hAvoids.part fun _ => Expr.Part.rhs
      have hBinary := tracks_binary hEmbeds
        (fun hEmbeds => ihLhs hEmbeds hLhs)
        (fun hEmbeds => ihRhs hEmbeds hRhs)
      cases op with
      | power => exact tracks_fold hEmbeds hAvoids "Exponentiation"
      | divide =>
          refine Tracks.bind_same (reciprocal_agreesOff hEmbeds hRhs)
            fun factor _ => ?_
          refine tracks_bind (ihLhs hEmbeds hLhs)
            fun ρ₁ k k' s₁ s₁' _ hDividend hEmbeds₁ => ?_
          exact .of_ok (hEmbeds₁.reached_emitQuotient hDividend factor)
      | add => exact hBinary .add
      | subtract => exact hBinary .subtract
      | multiply => exact hBinary .multiply
      | tensor => exact hBinary .tensor
      | commutator => exact hBinary .commutator
      | anticommutator => exact hBinary .anticommutator
  | unary op operand ih =>
      have hOperand := hAvoids.part fun _ => Expr.Part.operand
      cases op with
      | sqrt => exact tracks_fold hEmbeds hAvoids "Square root"
      | sin => exact tracks_fold hEmbeds hAvoids "Sine"
      | cos => exact tracks_fold hEmbeds hAvoids "Cosine"
      | exp => exact tracks_fold hEmbeds hAvoids "Exponential"
      | dagger =>
          refine tracks_bind (ih hEmbeds hOperand)
            fun ρ₁ k k' s₁ s₁' _ hPair hEmbeds₁ => ?_
          exact .of_ok (hEmbeds₁.reached_emitUnary hPair .dagger)
      | trace =>
          refine tracks_bind (ih hEmbeds hOperand)
            fun ρ₁ k k' s₁ s₁' _ hPair hEmbeds₁ => ?_
          exact .of_ok (hEmbeds₁.reached_emitUnary hPair .trace)
      | expm =>
          refine tracks_bind (ih hEmbeds hOperand)
            fun ρ₁ k k' s₁ s₁' _ hPair hEmbeds₁ => ?_
          simp only [hEmbeds₁.shapes k k' hPair]
          split
          · exact tracks_fold hEmbeds₁ hAvoids "Exponential"
          · have hExponential := hEmbeds₁.reached_emitUnary hPair .expm
            simp only [emitUnary, hEmbeds₁.shapes k k' hPair]
              at hExponential
            exact .of_ok hExponential
  | call function arguments => exact .of_error

end Lowering

end QuantumLab
