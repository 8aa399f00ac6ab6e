import QuantumLab.Proofs.Irrelevance.Plans
import QuantumLab.Proofs.Lowering.Statements
import QuantumLab.Proofs.Validation.References

/-
  This file says what the lowering of an experiment comes
  to: its initial state is loaded, the names of its operators
  are resolved one after another, and the rest is read off
  the tables.

  Key definitions include:
    * `Experiment.operators`
    * `Lowering.CanResolve`, `Lowering.ResolvesAll`
    * `Lowering.Includes`
    * `Lowering.Reads`

  Main statements:
    * `Lowering.addExperiment_eq_ok_iff` says what is planned
      for an experiment.
    * `Lowering.exists_addExperiment` says that it is planned
      whatever nodes there are, as long as the same names can
      be resolved.
-/

------------------------------------------------------------
-- Related lists and options
------------------------------------------------------------

namespace QuantumLab

variable {α β γ : Type}

/- Partners of the same members are partners of each other. -/
theorem forall₂_of_common
    {P : α → β → Prop}
    {Q : α → γ → Prop}
    {S : β → γ → Prop}
    {xs : List α}
    {ys : List β}
    {zs : List γ}
    (hFirst : List.Forall₂ P xs ys)
    (hSecond : List.Forall₂ Q xs zs)
    (hEach : ∀ x ∈ xs, ∀ y z, P x y → Q x z → S y z) :
    List.Forall₂ S ys zs := by
  induction hFirst generalizing zs with
  | nil =>
      cases hSecond
      exact .nil
  | @cons x y xs ys hHead _ ih =>
      rcases List.forall_mem_cons.1 hEach with ⟨hPair, hTail⟩
      cases hSecond with
      | cons hHead' hRest =>
          exact .cons (hPair _ _ hHead hHead') (ih hRest hTail)

theorem rel_of_common
    {P : α → β → Prop}
    {Q : α → γ → Prop}
    {S : β → γ → Prop}
    {x? : Option α}
    {y? : Option β}
    {z? : Option γ}
    (hFirst : Option.Rel P x? y?)
    (hSecond : Option.Rel Q x? z?)
    (hEach : ∀ x, x? = some x → ∀ y z, P x y → Q x z → S y z) :
    Option.Rel S y? z? := by
  cases hFirst with
  | none =>
      cases hSecond
      exact .none
  | some hPair =>
      cases hSecond with
      | some hPair' => exact .some (hEach _ rfl _ _ hPair hPair')

end QuantumLab

------------------------------------------------------------
-- Names that are resolved
------------------------------------------------------------

namespace QuantumLab

variable {R : Type}

/- The names of the operators of an evolution. -/
def Evolution.operators (evolution : Evolution R) : List String :=
  evolution.hamiltonian :: evolution.terms.map LindbladTerm.operator

/-
  The names of the operators of an experiment, in the order
  in which they are resolved.
-/
def Experiment.operators
    (x : Experiment R)
    (measured : String → Bool) : List String :=
  (x.evolution.map Evolution.operators).getD [] ++
    observables measured x.schedule

namespace Experiment

variable
  {x : Experiment R}
  {name : String}
  {measured : String → Bool}

theorem mem_operators_of_evolution
    {evolution : Evolution R}
    (hEvolution : x.evolution = some evolution)
    (hMember : name ∈ evolution.operators) :
    name ∈ x.operators measured := by
  refine List.mem_append_left _ ?_
  rw [hEvolution]
  exact hMember

theorem mem_operators_of_event
    {event : Event R}
    (hEvent : event ∈ x.schedule)
    (hOther : measured event.measurement = false) :
    event.measurement ∈ x.operators measured := by
  refine List.mem_append_right _ (List.mem_filter.2
    ⟨List.mem_map_of_mem hEvent, ?_⟩)
  rw [hOther]
  rfl

end Experiment

namespace Lowering

/- A lowering has what another one has, and perhaps more nodes and names. -/
structure Includes (s t : Lowering R) : Prop where
  symbols : ∀ name id, s.symbols.find? name = some id →
    t.symbols.find? name = some id
  measurements : t.measurements = s.measurements
  environment : t.environment = s.environment

theorem Includes.refl (s : Lowering R) : s.Includes s where
  symbols _ _ hSymbol := hSymbol
  measurements := rfl
  environment := rfl

theorem Includes.trans
    {s mid t : Lowering R}
    (hFirst : s.Includes mid)
    (hSecond : mid.Includes t) :
    s.Includes t where
  symbols name id hSymbol :=
    hSecond.symbols name id (hFirst.symbols name id hSymbol)
  measurements := hSecond.measurements.trans hFirst.measurements
  environment := hSecond.environment.trans hFirst.environment

/- A name that is bound already keeps its node. -/
theorem Includes.find?_earlier
    {s t : Lowering R}
    {name : String}
    {id : NodeId}
    (hIncludes : s.Includes t)
    (hBound : ∃ id, s.symbols.find? name = some id)
    (hLater : t.symbols.find? name = some id) :
    s.symbols.find? name = some id := by
  rcases hBound with ⟨k, hKnown⟩
  rw [hKnown, ← hLater, hIncludes.symbols name k hKnown]

theorem includes_emitConstant
    (s : Lowering R)
    (name : String)
    (value : Value R) :
    s.Includes (s.emitConstant name value).2 where
  symbols _ _ hSymbol := hSymbol
  measurements := rfl
  environment := rfl

/- A name that is not bound may be bound to any node. -/
theorem includes_bind
    {s : Lowering R}
    {name : String}
    (hSymbol : s.symbols.find? name = none)
    (id : NodeId) :
    s.Includes (s.bind name id) where
  symbols other k hOther := by
    have hDifferent : name ≠ other := by
      rintro rfl
      cases hSymbol.symm.trans hOther
    rw [bind, Table.find?_insert, if_neg hDifferent, hOther]
  measurements := rfl
  environment := rfl

variable [Arithmetic R]

/-
  A name is resolved to the node that it is bound to, or it
  is bound to a new node of a predefined operator.
-/
theorem resolve_eq_ok_iff
    {s t : Lowering R}
    {name : String}
    {id : NodeId} :
    s.resolve name = .ok (id, t) ↔
      (s.symbols.find? name = some id ∧ t = s) ∨
      (s.symbols.find? name = none ∧
        s.symbolic.contains name = false ∧
        ∃ a, Predefined.find? name = some a ∧ id = s.plan.size ∧
          t = (s.emitConstant name (.matrix a)).2.bind name
            s.plan.size) := by
  unfold resolve
  cases hSymbol : s.symbols.find? name with
  | some k =>
      constructor
      · rintro ⟨⟩
        exact .inl ⟨rfl, rfl⟩
      · rintro (⟨hBound, rfl⟩ | ⟨hNone, _⟩)
        · rw [Option.some.inj hBound]
        · cases hNone
  | none =>
      by_cases hSymbolic : s.symbolic.contains name = true
      · simp [hSymbolic]
      · rw [Bool.not_eq_true] at hSymbolic
        rw [hSymbolic, if_neg Bool.false_ne_true]
        cases hFound : Predefined.find? (R := R) name with
        | none => simp
        | some a =>
            constructor
            · rintro ⟨⟩
              exact .inr ⟨rfl, rfl, a, rfl, rfl, rfl⟩
            · rintro (⟨hBound, _⟩ | ⟨_, _, _, ⟨⟩, rfl, rfl⟩)
              · cases hBound
              · rfl

/- A name that is resolved is bound, and the others are as before. -/
theorem includes_resolve
    {s t : Lowering R}
    {name : String}
    {id : NodeId}
    (hResolve : s.resolve name = .ok (id, t)) :
    s.Includes t ∧ t.symbols.find? name = some id := by
  rcases resolve_eq_ok_iff.1 hResolve with
    ⟨hSymbol, rfl⟩ | ⟨hSymbol, _, a, _, rfl, rfl⟩
  · exact ⟨.refl t, hSymbol⟩
  · have hBind := includes_bind hSymbol s.plan.size
    exact ⟨⟨hBind.symbols, rfl, rfl⟩, Table.find?_insert_self _ _ _⟩

/- A name that is resolved only adds a node, if any. -/
theorem appends_resolve
    {s t : Lowering R}
    {name : String}
    {id : NodeId}
    (hResolve : s.resolve name = .ok (id, t)) :
    s.Appends t := by
  rcases resolve_eq_ok_iff.1 hResolve with
    ⟨_, rfl⟩ | ⟨_, _, a, _, rfl, rfl⟩
  · exact .refl t
  · exact (s.appends_emit _ _).trans (appends_bind _ name _)

/- A name can be resolved. -/
def CanResolve (s : Lowering R) (name : String) : Prop :=
  ∃ id t, s.resolve name = .ok (id, t)

/- Only the tables of names decide whether a name can be resolved. -/
theorem canResolve_iff
    {s : Lowering R}
    {name : String} :
    s.CanResolve name ↔
      (∃ id, s.symbols.find? name = some id) ∨
      (s.symbolic.contains name = false ∧
        ∃ a : Mat R, Predefined.find? name = some a) := by
  unfold CanResolve
  simp only [resolve_eq_ok_iff]
  constructor
  · rintro ⟨id, t, ⟨hSymbol, _⟩ | ⟨_, hSymbolic, a, hFound, _⟩⟩
    · exact .inl ⟨id, hSymbol⟩
    · exact .inr ⟨hSymbolic, a, hFound⟩
  · rintro (⟨id, hSymbol⟩ | ⟨hSymbolic, a, hFound⟩)
    · exact ⟨id, s, .inl ⟨hSymbol, rfl⟩⟩
    · cases hSymbol : s.symbols.find? name with
      | some id => exact ⟨id, s, .inl ⟨rfl, rfl⟩⟩
      | none =>
          exact ⟨_, _, .inr ⟨rfl, hSymbolic, a, hFound, rfl, rfl⟩⟩

theorem canResolve_congr
    {s t : Lowering R}
    {name : String}
    (hSymbols : t.symbols = s.symbols)
    (hSymbolic : t.symbolic = s.symbolic) :
    t.CanResolve name ↔ s.CanResolve name := by
  rw [canResolve_iff, canResolve_iff, hSymbols, hSymbolic]

theorem canResolve_emitConstant
    {s : Lowering R}
    {name constant : String}
    {value : Value R} :
    (s.emitConstant constant value).2.CanResolve name ↔
      s.CanResolve name :=
  canResolve_congr rfl rfl

/- The same names can be resolved when one of them has been. -/
theorem canResolve_after_resolve
    {s t : Lowering R}
    {name other : String}
    {id : NodeId}
    (hResolve : s.resolve name = .ok (id, t)) :
    t.CanResolve other ↔ s.CanResolve other := by
  by_cases hSame : name = other
  · subst hSame
    have hBound := (includes_resolve hResolve).2
    exact ⟨fun _ => ⟨id, t, hResolve⟩,
      fun _ => canResolve_iff.2 (.inl ⟨id, hBound⟩)⟩
  · rcases resolve_eq_ok_iff.1 hResolve with
      ⟨_, rfl⟩ | ⟨_, _, a, _, rfl, rfl⟩
    · rfl
    · rw [canResolve_iff, canResolve_iff, bind, Table.find?_insert,
        Table.contains_erase, if_neg hSame]
      simp [hSame, emitConstant]

/- Names are resolved one after another. -/
inductive ResolvesAll :
    Lowering R → List String → Lowering R → Prop where
  | nil
      {s : Lowering R} :
      ResolvesAll s [] s
  | cons
      {s mid t : Lowering R}
      {name : String}
      {names : List String}
      {id : NodeId}
      (hFirst : s.resolve name = .ok (id, mid))
      (hRest : ResolvesAll mid names t) :
      ResolvesAll s (name :: names) t

variable
  {s t u : Lowering R}
  {names : List String}

theorem ResolvesAll.append
    {more : List String}
    (hFirst : s.ResolvesAll names t)
    (hSecond : t.ResolvesAll more u) :
    s.ResolvesAll (names ++ more) u := by
  induction hFirst with
  | nil => exact hSecond
  | cons hResolve _ ih => exact .cons hResolve (ih hSecond)

theorem ResolvesAll.split
    {more : List String}
    (hResolves : s.ResolvesAll (names ++ more) u) :
    ∃ t, s.ResolvesAll names t ∧ t.ResolvesAll more u := by
  induction names generalizing s with
  | nil => exact ⟨s, .nil, hResolves⟩
  | cons name names ih =>
      cases hResolves with
      | cons hFirst hRest =>
          rcases ih hRest with ⟨t, hNames, hMore⟩
          exact ⟨t, .cons hFirst hNames, hMore⟩

theorem ResolvesAll.includes
    (hResolves : s.ResolvesAll names t) :
    s.Includes t := by
  induction hResolves with
  | nil => exact .refl _
  | cons hFirst _ ih => exact (includes_resolve hFirst).1.trans ih

theorem ResolvesAll.appends
    (hResolves : s.ResolvesAll names t) :
    s.Appends t := by
  induction hResolves with
  | nil => exact .refl _
  | cons hFirst _ ih => exact (appends_resolve hFirst).trans ih

/- Names that are resolved are bound. -/
theorem ResolvesAll.bound
    (hResolves : s.ResolvesAll names t) :
    ∀ name ∈ names, ∃ id, t.symbols.find? name = some id := by
  induction hResolves with
  | nil => exact nofun
  | cons hFirst hRest ih =>
      have hBound := (includes_resolve hFirst).2
      exact List.forall_mem_cons.2
        ⟨⟨_, hRest.includes.symbols _ _ hBound⟩, ih⟩

/- Resolving names is a way to load. -/
theorem ResolvesAll.loads
    (hResolves : s.ResolvesAll names t) :
    s.Loads t := by
  induction hResolves with
  | nil => exact .done _
  | cons hFirst _ ih => exact .name hFirst ih

/- The same names can be resolved when some of them have been. -/
theorem ResolvesAll.canResolve
    {other : String}
    (hResolves : s.ResolvesAll names t) :
    t.CanResolve other ↔ s.CanResolve other := by
  induction hResolves with
  | nil => rfl
  | cons hFirst _ ih => rw [ih, canResolve_after_resolve hFirst]

theorem ResolvesAll.canResolve_of_mem
    {name : String}
    (hResolves : s.ResolvesAll names t)
    (hMember : name ∈ names) :
    s.CanResolve name :=
  hResolves.canResolve.1
    (canResolve_iff.2 (.inl (hResolves.bound name hMember)))

/- Names that can be resolved can be resolved one after another. -/
theorem exists_resolvesAll
    (hEach : ∀ name ∈ names, s.CanResolve name) :
    ∃ t, s.ResolvesAll names t := by
  induction names generalizing s with
  | nil => exact ⟨s, .nil⟩
  | cons name names ih =>
      rcases List.forall_mem_cons.1 hEach with
        ⟨⟨id, mid, hFirst⟩, hLater⟩
      rcases ih fun other hMember =>
          (canResolve_after_resolve hFirst).2 (hLater other hMember) with
        ⟨t, hRest⟩
      exact ⟨t, .cons hFirst hRest⟩

end Lowering

end QuantumLab

------------------------------------------------------------
-- Parts that are read off
------------------------------------------------------------

namespace QuantumLab

variable {R : Type} [Arithmetic R]

namespace Lowering

/- A channel is read off the node of its operator and its rate. -/
structure ReadsTerm
    (s : Lowering R)
    (term : LindbladTerm R)
    (jump : Jump R) : Prop where
  operator : s.symbols.find? term.operator = some jump.operator
  rate : s.environment.evaluateReal
    (Validator.rateUsage term.operator) term.rate = .ok jump.rate

/- An evolution is read off the nodes of its operators. -/
structure ReadsEvolution
    (s : Lowering R)
    (evolution : Evolution R)
    (planned : PlannedEvolution R) : Prop where
  method : planned.method =
    if planned.jumps.isEmpty then .schrodinger else .lindblad
  hamiltonian :
    s.symbols.find? evolution.hamiltonian = some planned.hamiltonian
  jumps : List.Forall₂ s.ReadsTerm evolution.terms planned.jumps
  times : planned.times = evolution.grid.times

/- A measurement is read off its operators, an observable off its node. -/
inductive ReadsEvent
    (s : Lowering R)
    (times : List R)
    (event : Event R) : PlannedMeasurement → Prop where
  | measurement
      {kind : OutcomeKind}
      {ids : List NodeId}
      (hFound : s.measurements.find? event.measurement =
        some (kind, ids)) :
      ReadsEvent s times event
        ⟨event.measurement, nearestIndex times event.time, kind, ids⟩
  | observable
      {id : NodeId}
      (hNone : s.measurements.find? event.measurement = none)
      (hSymbol : s.symbols.find? event.measurement = some id) :
      ReadsEvent s times event
        ⟨event.measurement, nearestIndex times event.time, .observable,
          [id]⟩

/- An experiment is read off, but for its initial state. -/
structure Reads
    (s : Lowering R)
    (x : Experiment R)
    (planned : PlannedExperiment R) : Prop where
  name : planned.name = x.name
  evolution :
    Option.Rel s.ReadsEvolution x.evolution planned.evolution
  measurements :
    List.Forall₂ (s.ReadsEvent (timesOf planned.evolution))
      x.schedule planned.measurements

variable
  {s t : Lowering R}
  {x : Experiment R}

theorem ReadsTerm.later
    {term : LindbladTerm R}
    {jump : Jump R}
    (hReads : s.ReadsTerm term jump)
    (hIncludes : s.Includes t) :
    t.ReadsTerm term jump where
  operator := hIncludes.symbols _ _ hReads.operator
  rate := by
    rw [hIncludes.environment]
    exact hReads.rate

theorem ReadsEvolution.later
    {evolution : Evolution R}
    {planned : PlannedEvolution R}
    (hReads : s.ReadsEvolution evolution planned)
    (hIncludes : s.Includes t) :
    t.ReadsEvolution evolution planned where
  method := hReads.method
  hamiltonian := hIncludes.symbols _ _ hReads.hamiltonian
  jumps := hReads.jumps.imp fun _ _ hTerm => hTerm.later hIncludes
  times := hReads.times

theorem ReadsEvent.later
    {times : List R}
    {event : Event R}
    {planned : PlannedMeasurement}
    (hReads : s.ReadsEvent times event planned)
    (hIncludes : s.Includes t) :
    t.ReadsEvent times event planned := by
  cases hReads with
  | measurement hFound =>
      refine .measurement ?_
      rw [hIncludes.measurements, hFound]
  | observable hNone hSymbol =>
      refine .observable ?_ (hIncludes.symbols _ _ hSymbol)
      rw [hIncludes.measurements, hNone]

/- What is read off bound names was there before there were more. -/
theorem ReadsTerm.earlier
    {term : LindbladTerm R}
    {jump : Jump R}
    (hReads : t.ReadsTerm term jump)
    (hIncludes : s.Includes t)
    (hBound : ∃ id, s.symbols.find? term.operator = some id) :
    s.ReadsTerm term jump where
  operator := hIncludes.find?_earlier hBound hReads.operator
  rate := by
    rw [← hIncludes.environment]
    exact hReads.rate

theorem ReadsEvolution.earlier
    {evolution : Evolution R}
    {planned : PlannedEvolution R}
    (hReads : t.ReadsEvolution evolution planned)
    (hIncludes : s.Includes t)
    (hBound : ∀ name ∈ evolution.operators,
      ∃ id, s.symbols.find? name = some id) :
    s.ReadsEvolution evolution planned := by
  rcases List.forall_mem_cons.1 hBound with ⟨hHamiltonian, hTerms⟩
  refine ⟨hReads.method,
    hIncludes.find?_earlier hHamiltonian hReads.hamiltonian, ?_,
    hReads.times⟩
  have hPairs := (List.forall₂_and_left _ _).2
    ⟨List.forall_mem_map.1 hTerms, hReads.jumps⟩
  exact hPairs.imp fun _ _ ⟨hKnown, hTerm⟩ =>
    hTerm.earlier hIncludes hKnown

theorem ReadsEvent.earlier
    {times : List R}
    {event : Event R}
    {planned : PlannedMeasurement}
    (hReads : t.ReadsEvent times event planned)
    (hIncludes : s.Includes t)
    (hBound : s.measurements.find? event.measurement = none →
      ∃ id, s.symbols.find? event.measurement = some id) :
    s.ReadsEvent times event planned := by
  cases hReads with
  | measurement hFound =>
      rw [hIncludes.measurements] at hFound
      exact .measurement hFound
  | observable hNone hSymbol =>
      rw [hIncludes.measurements] at hNone
      exact .observable hNone
        (hIncludes.find?_earlier (hBound hNone) hSymbol)

/- What is read off stays the same when there are more names. -/
theorem Reads.later
    {planned : PlannedExperiment R}
    (hReads : s.Reads x planned)
    (hIncludes : s.Includes t) :
    t.Reads x planned where
  name := hReads.name
  evolution := by
    rcases cases_of_rel hReads.evolution with
      ⟨hNone, hNone'⟩ | ⟨_, _, hSome, hSome', hEvolution⟩
    · rw [hNone, hNone']
      exact .none
    · rw [hSome, hSome']
      exact .some (hEvolution.later hIncludes)
  measurements := hReads.measurements.imp fun _ _ hEvent =>
    hEvent.later hIncludes

end Lowering

end QuantumLab

------------------------------------------------------------
-- Lowering of parts
------------------------------------------------------------

namespace QuantumLab

variable {R : Type} [Arithmetic R]

namespace Lowering

variable {s t : Lowering R}

/- Channels are lowered by resolving their operators. -/
theorem lowerTerms_eq_ok_iff
    {terms : List (LindbladTerm R)}
    {jumps : List (Jump R)} :
    s.lowerTerms terms = .ok (jumps, t) ↔
      s.ResolvesAll (terms.map LindbladTerm.operator) t ∧
        List.Forall₂ t.ReadsTerm terms jumps := by
  induction terms generalizing s jumps with
  | nil =>
      constructor
      · rintro ⟨⟩
        exact ⟨.nil, .nil⟩
      · rintro ⟨⟨⟩, ⟨⟩⟩
        rfl
  | cons term rest ih =>
      constructor
      · intro hLower
        rcases bind_eq_ok_iff.1 hLower with
          ⟨⟨id, mid⟩, hResolve, hRest⟩
        simp only at hRest
        split at hRest
        · next rate hRate =>
          rcases bind_eq_ok_iff.1 hRest with
            ⟨⟨later, last⟩, hTail, hDone⟩
          cases pure_eq_ok_iff.1 hDone
          rcases ih.1 hTail with ⟨hResolves, hReads⟩
          have hBound := (includes_resolve hResolve).2
          refine ⟨.cons hResolve hResolves, .cons ⟨?_, ?_⟩ hReads⟩
          · exact hResolves.includes.symbols _ _ hBound
          · rw [hResolves.includes.environment]
            exact hRate
        · split at hRest
          · exact absurd hRest refuse_ne_ok
          · cases hRest
      · rintro ⟨hResolves, hReads⟩
        cases hResolves with
        | @cons _ mid _ _ _ id hFirst hRest =>
            cases hReads with
            | @cons _ jump _ jumps hHead hTail =>
                have hBound := (includes_resolve hFirst).2
                have hSame := (hRest.includes.symbols _ _ hBound).symm.trans
                  hHead.operator
                have hRate := hHead.rate
                rw [hRest.includes.environment] at hRate
                rw [lowerTerms, hFirst, ok_bind]
                simp only [hRate, ih.2 ⟨hRest, hTail⟩, ok_bind]
                rw [Option.some.inj hSame]
                rfl

/- An evolution is lowered by resolving its operators. -/
theorem lowerEvolution_eq_ok_iff
    {evolution : Option (Evolution R)}
    {planned : Option (PlannedEvolution R)} :
    s.lowerEvolution evolution = .ok (planned, t) ↔
      s.ResolvesAll ((evolution.map Evolution.operators).getD []) t ∧
        Option.Rel t.ReadsEvolution evolution planned := by
  cases evolution with
  | none =>
      constructor
      · rintro ⟨⟩
        exact ⟨.nil, .none⟩
      · rintro ⟨⟨⟩, ⟨⟩⟩
        rfl
  | some evolution =>
      constructor
      · intro hLower
        rcases bind_eq_ok_iff.1 hLower with
          ⟨⟨id, mid⟩, hResolve, hRest⟩
        rcases bind_eq_ok_iff.1 hRest with
          ⟨⟨jumps, last⟩, hTerms, hDone⟩
        cases pure_eq_ok_iff.1 hDone
        rcases lowerTerms_eq_ok_iff.1 hTerms with ⟨hResolves, hReads⟩
        have hBound := (includes_resolve hResolve).2
        exact ⟨.cons hResolve hResolves, .some
          ⟨rfl, hResolves.includes.symbols _ _ hBound, hReads, rfl⟩⟩
      · rintro ⟨hResolves, hReads⟩
        cases hReads with
        | @some _ planned hReads =>
            cases hResolves with
            | @cons _ mid _ _ _ id hFirst hRest =>
                have hBound := (includes_resolve hFirst).2
                have hSame := (hRest.includes.symbols _ _ hBound).symm.trans
                  hReads.hamiltonian
                have hTerms := lowerTerms_eq_ok_iff.2
                  ⟨hRest, hReads.jumps⟩
                rw [lowerEvolution, hFirst, ok_bind]
                simp only [hTerms, ok_bind]
                rw [Option.some.inj hSame, ← hReads.method,
                  ← hReads.times]
                rfl

/- An event that is no measurement is lowered by resolving its name. -/
theorem lowerEvent_eq_ok_iff
    {times : List R}
    {event : Event R}
    {planned : PlannedMeasurement} :
    s.lowerEvent times event = .ok (planned, t) ↔
      s.ResolvesAll
          (Experiment.observables s.measurements.contains [event]) t ∧
        t.ReadsEvent times event planned := by
  unfold lowerEvent
  cases hFound : s.measurements.find? event.measurement with
  | some entry =>
      have hNone : Experiment.observables s.measurements.contains
          [event] = [] := by
        simp [Experiment.observables, Table.contains, hFound]
      rw [hNone]
      constructor
      · rintro ⟨⟩
        exact ⟨.nil, .measurement hFound⟩
      · rintro ⟨⟨⟩, hReads⟩
        cases hReads with
        | measurement hSame =>
            rw [Option.some.inj (hFound.symm.trans hSame)]
        | observable hOther _ => cases hFound.symm.trans hOther
  | none =>
      have hOne : Experiment.observables s.measurements.contains
          [event] = [event.measurement] := by
        simp [Experiment.observables, Table.contains, hFound]
      rw [hOne]
      constructor
      · intro hLower
        rcases bind_eq_ok_iff.1 hLower with ⟨⟨id, mid⟩, hResolve, hDone⟩
        cases pure_eq_ok_iff.1 hDone
        rcases includes_resolve hResolve with ⟨hIncludes, hBound⟩
        refine ⟨.cons hResolve .nil, .observable ?_ hBound⟩
        rw [hIncludes.measurements, hFound]
      · rintro ⟨hResolves, hReads⟩
        have hSame := hResolves.includes.measurements
        cases hResolves with
        | @cons _ mid _ _ _ id hFirst hRest =>
            cases hRest
            have hBound := (includes_resolve hFirst).2
            rw [hFirst]
            cases hReads with
            | measurement hMeasured =>
                rw [hSame, hFound] at hMeasured
                cases hMeasured
            | observable _ hSymbol =>
                rw [Option.some.inj (hBound.symm.trans hSymbol)]
                rfl

/- A schedule is lowered by resolving the names of its observables. -/
theorem lowerSchedule_eq_ok_iff
    {times : List R}
    {schedule : List (Event R)}
    {planned : List PlannedMeasurement} :
    s.lowerSchedule times schedule = .ok (planned, t) ↔
      s.ResolvesAll
          (Experiment.observables s.measurements.contains schedule) t ∧
        List.Forall₂ (t.ReadsEvent times) schedule planned := by
  induction schedule generalizing s planned with
  | nil =>
      constructor
      · rintro ⟨⟩
        exact ⟨.nil, .nil⟩
      · rintro ⟨⟨⟩, ⟨⟩⟩
        rfl
  | cons event rest ih =>
      have hNames : Experiment.observables s.measurements.contains
          (event :: rest) =
          Experiment.observables s.measurements.contains [event] ++
            Experiment.observables s.measurements.contains rest := by
        rw [Experiment.observables, Experiment.observables,
          Experiment.observables, ← List.filter_append, ← List.map_append]
        rfl
      rw [hNames]
      constructor
      · intro hLower
        rcases bind_eq_ok_iff.1 hLower with
          ⟨⟨first, mid⟩, hEvent, hRest⟩
        rcases bind_eq_ok_iff.1 hRest with ⟨⟨later, last⟩, hTail, hDone⟩
        cases pure_eq_ok_iff.1 hDone
        rcases lowerEvent_eq_ok_iff.1 hEvent with ⟨hResolves, hReads⟩
        rcases ih.1 hTail with ⟨hLater, hReadsLater⟩
        rw [hResolves.includes.measurements] at hLater
        exact ⟨hResolves.append hLater,
          .cons (hReads.later hLater.includes) hReadsLater⟩
      · rintro ⟨hResolves, hReads⟩
        rcases hResolves.split with ⟨mid, hFirst, hLater⟩
        cases hReads with
        | @cons _ first _ later hHead hTail =>
            have hEvent : mid.ReadsEvent times event first := by
              refine hHead.earlier hLater.includes fun hNone => ?_
              rw [hFirst.includes.measurements] at hNone
              apply hFirst.bound
              simp [Experiment.observables, Table.contains, hNone]
            rw [← hFirst.includes.measurements] at hLater
            have hRest := ih.2 ⟨hLater, hTail⟩
            rw [lowerSchedule, lowerEvent_eq_ok_iff.2 ⟨hFirst, hEvent⟩,
              ok_bind]
            simp only [hRest, ok_bind]
            rfl

------------------------------------------------------------
-- Lowering of experiments
------------------------------------------------------------

/- The name and the value of the constant that an experiment starts from. -/
inductive StartsFrom
    (names : Environment R)
    (x : Experiment R) : String → Value R → Prop where
  | ket
      {state : InitialState R}
      {ket : Vec R}
      (hState : x.initialState = some state)
      (hKind : state.kind = .ket)
      (hValue : names.evaluate state.value = .ok (.vector ket)) :
      StartsFrom names x "init_ket" (.vector ket)
  | rho
      {state : InitialState R}
      {rho : Mat R}
      (hState : x.initialState = some state)
      (hKind : state.kind = .rho)
      (hValue : names.evaluate state.value = .ok (.matrix rho)) :
      StartsFrom names x "init_rho" (.matrix rho)

/- The constant that an experiment starts from is loaded. -/
theorem lowerInitialState_eq_ok_iff
    {x : Experiment R}
    {id : NodeId} :
    s.lowerInitialState x = .ok (id, t) ↔
      ∃ name value, StartsFrom s.environment x name value ∧
        s.emitConstant name value = (id, t) := by
  constructor
  · intro hLower
    unfold lowerInitialState at hLower
    cases hState : x.initialState with
    | none =>
        rw [hState] at hLower
        exact absurd hLower refuse_ne_ok
    | some state =>
        simp only [hState] at hLower
        rcases bind_eq_ok_iff.1 hLower with ⟨value, hValue, hRest⟩
        revert hRest
        split
        · next hKind =>
          exact fun hDone => ⟨_, _, .ket hState hKind hValue,
            pure_eq_ok_iff.1 hDone⟩
        · exact fun hRefused => absurd hRefused refuse_ne_ok
        · next hKind =>
          exact fun hDone => ⟨_, _, .rho hState hKind hValue,
            pure_eq_ok_iff.1 hDone⟩
        · exact fun hRefused => absurd hRefused refuse_ne_ok
  · rintro ⟨name, value, hStarts, hEmit⟩
    rw [← hEmit]
    cases hStarts with
    | ket hState hKind hValue =>
        unfold lowerInitialState
        simp only [hState, hValue, ok_bind, hKind]
        rfl
    | rho hState hKind hValue =>
        unfold lowerInitialState
        simp only [hState, hValue, ok_bind, hKind]
        rfl

/-
  What is planned for an experiment: a constant to start
  from, and what is read off when the names of its operators
  have been resolved.
-/
theorem addExperiment_eq_ok_iff
    {x : Experiment R} :
    s.addExperiment x = .ok t ↔
      ∃ name value mid planned,
        StartsFrom s.environment x name value ∧
        (s.emitConstant name value).2.ResolvesAll
          (x.operators s.measurements.contains) mid ∧
        mid.Reads x planned ∧ planned.initialState = s.plan.size ∧
        t = { mid with plan := mid.plan.addExperiment planned } := by
  constructor
  · intro hAdd
    rcases bind_eq_ok_iff.1 hAdd with ⟨⟨id, first⟩, hState, hRest⟩
    rcases bind_eq_ok_iff.1 hRest with
      ⟨⟨evolution, second⟩, hEvolution, hRest⟩
    rcases bind_eq_ok_iff.1 hRest with
      ⟨⟨measurements, mid⟩, hSchedule, hDone⟩
    rcases lowerInitialState_eq_ok_iff.1 hState with
      ⟨name, value, hStarts, hEmit⟩
    cases hEmit
    rcases lowerEvolution_eq_ok_iff.1 hEvolution with
      ⟨hOperators, hReads⟩
    rcases lowerSchedule_eq_ok_iff.1 hSchedule with
      ⟨hObservables, hReadsSchedule⟩
    rw [hOperators.includes.measurements] at hObservables
    have hLater : Option.Rel mid.ReadsEvolution x.evolution evolution := by
      rcases cases_of_rel hReads with
        ⟨hNone, rfl⟩ | ⟨_, _, hSome, rfl, hEach⟩
      · rw [hNone]
        exact .none
      · rw [hSome]
        exact .some (hEach.later hObservables.includes)
    exact ⟨name, value, mid,
      ⟨x.name, s.plan.size, evolution, measurements⟩, hStarts,
      hOperators.append hObservables, ⟨rfl, hLater, hReadsSchedule⟩, rfl,
      (pure_eq_ok_iff.1 hDone).symm⟩
  · rintro ⟨name, value, mid, planned, hStarts, hAll, hReads, hPlace, rfl⟩
    rcases hAll.split with ⟨second, hOperators, hObservables⟩
    have hState := lowerInitialState_eq_ok_iff.2
      ⟨name, value, hStarts, emitConstant_eq s name value⟩
    have hEarlier : Option.Rel second.ReadsEvolution x.evolution
        planned.evolution := by
      rcases cases_of_rel hReads.evolution with
        ⟨hNone, hNone'⟩ | ⟨_, _, hSome, hSome', hEach⟩
      · rw [hNone, hNone']
        exact .none
      · rw [hSome] at hOperators
        rw [hSome, hSome']
        exact .some (hEach.earlier hObservables.includes hOperators.bound)
    have hMeasured : second.measurements = s.measurements :=
      hOperators.includes.measurements
    rw [← hMeasured] at hObservables
    have hPlanned : planned = ⟨x.name, s.plan.size, planned.evolution,
        planned.measurements⟩ := by
      rw [← hReads.name, ← hPlace]
    unfold addExperiment
    simp only [hState, lowerEvolution_eq_ok_iff.2 ⟨hOperators, hEarlier⟩,
      lowerSchedule_eq_ok_iff.2 ⟨hObservables, hReads.measurements⟩,
      ok_bind]
    rw [hPlanned]
    rfl

/- An evolution is read off as soon as its operators have nodes. -/
theorem ReadsEvolution.exists_of_bound
    {evolution : Evolution R}
    {planned : PlannedEvolution R}
    (hReads : s.ReadsEvolution evolution planned)
    (hEnvironment : t.environment = s.environment)
    (hBound : ∀ name ∈ evolution.operators,
      ∃ id, t.symbols.find? name = some id) :
    ∃ planned', t.ReadsEvolution evolution planned' := by
  rcases List.forall_mem_cons.1 hBound with ⟨⟨id, hHamiltonian⟩, hTerms⟩
  have hEach : ∀ term ∈ evolution.terms,
      ∃ jump, t.ReadsTerm term jump := by
    intro term hTerm
    rcases hTerms term.operator (List.mem_map_of_mem hTerm) with
      ⟨k, hOperator⟩
    rcases exists_of_forall₂_left hReads.jumps term hTerm with
      ⟨jump, _, hJump⟩
    refine ⟨⟨k, jump.rate⟩, hOperator, ?_⟩
    rw [hEnvironment]
    exact hJump.rate
  rcases exists_forall₂ hEach with ⟨jumps, hJumps⟩
  exact ⟨⟨if jumps.isEmpty then .schrodinger else .lindblad, id, jumps,
    evolution.grid.times⟩, rfl, hHamiltonian, hJumps, rfl⟩

theorem exists_readsEvent
    {event : Event R}
    (times : List R)
    (hBound : s.measurements.find? event.measurement = none →
      ∃ id, s.symbols.find? event.measurement = some id) :
    ∃ planned, s.ReadsEvent times event planned := by
  cases hFound : s.measurements.find? event.measurement with
  | some entry => exact ⟨_, .measurement hFound⟩
  | none =>
      rcases hBound hFound with ⟨id, hSymbol⟩
      exact ⟨_, .observable hFound hSymbol⟩

/- An experiment is read off as soon as its operators have nodes. -/
theorem Reads.exists_of_bound
    {x : Experiment R}
    {planned : PlannedExperiment R}
    (hReads : s.Reads x planned)
    (hEnvironment : t.environment = s.environment)
    (hBound : ∀ name ∈ x.operators t.measurements.contains,
      ∃ id, t.symbols.find? name = some id)
    (id : NodeId) :
    ∃ planned', t.Reads x planned' ∧ planned'.initialState = id := by
  have hEvolution : ∃ evolution,
      Option.Rel t.ReadsEvolution x.evolution evolution := by
    rcases cases_of_rel hReads.evolution with
      ⟨hNone, _⟩ | ⟨evolution, _, hSome, _, hEach⟩
    · exact ⟨none, hNone ▸ .none⟩
    · rcases hEach.exists_of_bound hEnvironment fun name hMember =>
          hBound name (Experiment.mem_operators_of_evolution hSome hMember)
        with ⟨evolution', hReads'⟩
      exact ⟨some evolution', hSome ▸ .some hReads'⟩
  rcases hEvolution with ⟨evolution, hEvolution⟩
  have hSchedule : ∀ event ∈ x.schedule, ∃ m,
      t.ReadsEvent (timesOf evolution) event m := by
    intro event hEvent
    refine exists_readsEvent _ fun hNone => ?_
    refine hBound _ (Experiment.mem_operators_of_event hEvent ?_)
    rw [Table.contains, hNone]
    rfl
  rcases exists_forall₂ hSchedule with ⟨measurements, hMeasurements⟩
  exact ⟨⟨x.name, id, evolution, measurements⟩,
    ⟨rfl, hEvolution, hMeasurements⟩, rfl⟩

/-
  An experiment is planned whatever nodes there are, if the
  names that could be resolved before still can.
-/
theorem exists_addExperiment
    {s' : Lowering R}
    {x : Experiment R}
    (hAdd : s.addExperiment x = .ok t)
    (hEnvironment : s'.environment = s.environment)
    (hMeasurements : s'.measurements = s.measurements)
    (hResolves : ∀ name, s.CanResolve name → s'.CanResolve name) :
    ∃ t', s'.addExperiment x = .ok t' := by
  rcases addExperiment_eq_ok_iff.1 hAdd with
    ⟨name, value, mid, planned, hStarts, hAll, hReads, _, rfl⟩
  rw [← hEnvironment] at hStarts
  rw [← hMeasurements] at hAll
  have hNames : ∀ other ∈ x.operators s'.measurements.contains,
      (s'.emitConstant name value).2.CanResolve other := by
    intro other hMember
    have hBefore := hAll.canResolve_of_mem hMember
    exact canResolve_emitConstant.2
      (hResolves other (canResolve_emitConstant.1 hBefore))
  rcases exists_resolvesAll hNames with ⟨last, hLast⟩
  have hSame : last.environment = mid.environment := by
    rw [hLast.includes.environment, hAll.includes.environment]
    exact hEnvironment
  have hBound := hLast.bound
  have hMeasured : last.measurements = s'.measurements :=
    hLast.includes.measurements
  rw [← hMeasured] at hBound
  rcases hReads.exists_of_bound hSame hBound s'.plan.size with
    ⟨planned', hReads', hPlace⟩
  exact ⟨_, addExperiment_eq_ok_iff.2
    ⟨name, value, last, planned', hStarts, hLast, hReads', hPlace, rfl⟩⟩

end Lowering

end QuantumLab
