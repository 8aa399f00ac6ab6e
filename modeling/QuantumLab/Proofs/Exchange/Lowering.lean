import QuantumLab.Proofs.Exchange.Frame
import QuantumLab.Proofs.Irrelevance.Statements

/-
  This file says that two adjacent experiments are planned in
  either order: the nodes that they add are the same, in
  another order, and the experiments are exchanged.

  Key definitions include:
    * `Lowering.Spare`
    * `Lowering.Holds`

  Main statements:
    * `Lowering.Embeds.addExperiment_left` says that an
      experiment is planned on nodes that are already there.
    * `Lowering.exchange_addExperiment` compares both orders.
-/

------------------------------------------------------------
-- Nodes that are already there
------------------------------------------------------------

namespace QuantumLab

variable {R : Type} [Arithmetic R]

namespace Lowering

/- A node without a partner that is no predefined operator. -/
structure Spare
    (ρ : Pairing)
    (s : Lowering R)
    (id' : NodeId) : Prop where
  alone : ∀ id, ¬ ρ id id'
  ordinary : ∀ other a, Predefined.find? other = some a →
    s.plan.operation? id' ≠ some (.loadMatrix other a)

variable
  {name other : String}
  {names : List String}
  {ρ : Pairing}
  {s s' t : Lowering R}

/- A new node of the first gets a spare one as its partner. -/
theorem Embeds.emit_left
    {id' : NodeId}
    {operation operation' : Operation R}
    {shape : Shape}
    (hEmbeds : Embeds name ρ s s')
    (hSpare : Spare ρ s' id')
    (hNode' : s'.plan.operation? id' = some operation')
    (hShape' : s'.shapeOf id' = shape)
    (hMatches : operation.Matches ρ operation') :
    Embeds name (ρ.add s.plan.size id') (s.emit operation shape).2
      s' where
  toPairs := hEmbeds.toPairs.emit_left hSpare.alone hNode' hShape'
    hMatches
  symbols key hKey := by
    refine (hEmbeds.symbols key hKey).later hEmbeds.aligned' rfl rfl
      (ρ.within_add _ _) (.of_eq rfl rfl) ?_
    rintro early a hPredefined hEarly hUnpaired id (hPair | ⟨_, rfl⟩)
    · exact hUnpaired id hPair
    · exact hSpare.ordinary key a hPredefined hEarly
  symbolic := hEmbeds.symbolic
  measurements key hKey :=
    measuresAlike_mono (hEmbeds.measurements key hKey)
      (ρ.within_add _ _)
  environment := hEmbeds.environment

/-
  The first lowering resolves names that are bound in the
  second: they have nodes in both, or the node of a
  predefined operator is there early.  Spare nodes stay so.
-/
theorem Embeds.resolveAll_left
    (hEmbeds : Embeds name ρ s s')
    (hOther : ∀ other ∈ names, other ≠ name)
    (hBound : ∀ other ∈ names, ∃ id', s'.symbols.find? other = some id')
    (hResolves : s.ResolvesAll names t) :
    ∃ later : Pairing, ρ.Within later ∧ Embeds name later t s' ∧
      ∀ k', Spare ρ s' k' → Spare later s' k' := by
  induction hResolves generalizing ρ with
  | nil =>
      exact ⟨ρ, fun _ _ hPair => hPair, hEmbeds, fun _ hSpare => hSpare⟩
  | @cons s mid t first rest id hFirst _ ih =>
      rcases List.forall_mem_cons.1 hOther with ⟨hHead, hTail⟩
      rcases List.forall_mem_cons.1 hBound with ⟨⟨id', hKnown⟩, hLater⟩
      rcases resolve_eq_ok_iff.1 hFirst with
        ⟨_, rfl⟩ | ⟨hSymbol, hSymbolic, a, hFound, rfl, rfl⟩
      · exact ih hEmbeds hTail hLater
      · cases hEmbeds.symbols first hHead with
        | bound hBefore => cases hSymbol.symm.trans hBefore
        | unbound _ hNone => cases hKnown.symm.trans hNone
        | @early early b _ hSymbol' hPredefined hNode' hShape' hAlone =>
            cases hFound.symm.trans hPredefined
            have hPaired := hEmbeds.bind_early hSymbol' hSymbolic hNode'
              hShape' hAlone
            rcases ih hPaired hTail hLater with
              ⟨later, hWithin, hLast, hSpares⟩
            refine ⟨later, ?_, hLast, fun k' hSpare => hSpares k' ?_⟩
            · exact fun l l' hPair => hWithin l l' (.inl hPair)
            · refine ⟨?_, hSpare.ordinary⟩
              rintro l (hPair | ⟨_, rfl⟩)
              · exact hSpare.alone l hPair
              · exact hSpare.ordinary first a hFound hNode'

end Lowering

end QuantumLab

------------------------------------------------------------
-- Experiments on paired nodes
------------------------------------------------------------

namespace QuantumLab

variable {R : Type} [Arithmetic R]

namespace Lowering

variable
  {name other : String}
  {ρ : Pairing}
  {s s' : Lowering R}
  {x : Experiment R}

/- The nodes of a name are a pair. -/
theorem Embeds.pair_of_symbols
    {id id' : NodeId}
    (hEmbeds : Embeds name ρ s s')
    (hOther : other ≠ name)
    (hSymbol : s.symbols.find? other = some id)
    (hSymbol' : s'.symbols.find? other = some id') :
    ρ id id' := by
  cases hEmbeds.symbols other hOther with
  | bound hFound hFound' hPair =>
      cases hFound.symm.trans hSymbol
      cases hFound'.symm.trans hSymbol'
      exact hPair
  | unbound hNone => cases hNone.symm.trans hSymbol
  | early hNone => cases hNone.symm.trans hSymbol

theorem ReadsTerm.matches
    {term : LindbladTerm R}
    {jump jump' : Jump R}
    (hReads : s.ReadsTerm term jump)
    (hReads' : s'.ReadsTerm term jump')
    (hEmbeds : Embeds name ρ s s')
    (hOperator : term.operator ≠ name)
    (hRate : term.rate.Avoids name) :
    jump.Matches ρ jump' where
  operator :=
    hEmbeds.pair_of_symbols hOperator hReads.operator hReads'.operator
  rate := by
    have hSame := hReads'.rate
    rw [Environment.evaluateReal_agreesOff hEmbeds.environment hRate]
      at hSame
    exact Except.ok.inj (hSame.symm.trans hReads.rate)

theorem ReadsEvolution.matches
    {evolution : Evolution R}
    {planned planned' : PlannedEvolution R}
    (hReads : s.ReadsEvolution evolution planned)
    (hReads' : s'.ReadsEvolution evolution planned')
    (hEmbeds : Embeds name ρ s s')
    (hAvoids : evolution.Avoids name) :
    planned.Matches ρ planned' := by
  have hJumps : List.Forall₂ (Jump.Matches ρ) planned.jumps
      planned'.jumps := by
    refine forall₂_of_common hReads.jumps hReads'.jumps ?_
    exact fun term hTerm jump jump' hJump hJump' =>
      hJump.matches hJump' hEmbeds (hAvoids.operators term hTerm)
        (hAvoids.rates term hTerm)
  exact
    { method := by
        rw [hReads.method, hReads'.method, isEmpty_eq_of_forall₂ hJumps]
      hamiltonian := hEmbeds.pair_of_symbols hAvoids.hamiltonian
        hReads.hamiltonian hReads'.hamiltonian
      jumps := hJumps
      times := hReads'.times.trans hReads.times.symm }

theorem ReadsEvent.matches
    {times : List R}
    {event : Event R}
    {planned planned' : PlannedMeasurement}
    (hReads : s.ReadsEvent times event planned)
    (hReads' : s'.ReadsEvent times event planned')
    (hEmbeds : Embeds name ρ s s')
    (hOther : event.measurement ≠ name) :
    planned.Matches ρ planned' := by
  have hAlike := cases_of_rel (hEmbeds.measurements _ hOther)
  cases hReads with
  | measurement hFound =>
      cases hReads' with
      | measurement hFound' =>
          rcases hAlike with ⟨hNone, _⟩ | ⟨m, m', hSome, hSome', hPair⟩
          · cases hFound.symm.trans hNone
          · cases hFound.symm.trans hSome
            cases hFound'.symm.trans hSome'
            exact ⟨rfl, rfl, hPair.1, hPair.2⟩
      | observable hNone' _ =>
          rcases hAlike with ⟨hNone, _⟩ | ⟨m, m', _, hSome', _⟩
          · cases hFound.symm.trans hNone
          · cases hNone'.symm.trans hSome'
  | observable hNone hSymbol =>
      cases hReads' with
      | measurement hFound' =>
          rcases hAlike with ⟨_, hNone'⟩ | ⟨m, m', hSome, _, _⟩
          · cases hFound'.symm.trans hNone'
          · cases hNone.symm.trans hSome
      | observable _ hSymbol' =>
          have hPair := hEmbeds.pair_of_symbols hOther hSymbol hSymbol'
          exact ⟨rfl, rfl, rfl, .cons hPair .nil⟩

/- What is read off two lowerings that agree is on paired nodes. -/
theorem Reads.matches
    {planned planned' : PlannedExperiment R}
    (hReads : s.Reads x planned)
    (hReads' : s'.Reads x planned')
    (hEmbeds : Embeds name ρ s s')
    (hAvoids : x.Avoids name)
    (hState : ρ planned.initialState planned'.initialState) :
    planned.Matches ρ planned' := by
  have hEvolution : Option.Rel (PlannedEvolution.Matches ρ)
      planned.evolution planned'.evolution :=
    rel_of_common hReads.evolution hReads'.evolution
      fun evolution hSome _ _ hEach hEach' =>
        hEach.matches hEach' hEmbeds (hAvoids.evolution evolution hSome)
  have hTimes := timesOf_eq_of_matches hEvolution
  have hEvents := hReads'.measurements
  rw [hTimes] at hEvents
  exact
    { name := hReads'.name.trans hReads.name.symm
      initialState := hState
      evolution := hEvolution
      measurements := forall₂_of_common hReads.measurements hEvents
        fun event hEvent _ _ hPlanned hPlanned' =>
          hPlanned.matches hPlanned' hEmbeds
            (hAvoids.schedule event hEvent) }

end Lowering

end QuantumLab

------------------------------------------------------------
-- Initial states
------------------------------------------------------------

namespace QuantumLab

variable {R : Type} [Arithmetic R]

namespace Lowering

namespace StartsFrom

variable
  {name name' other : String}
  {env env' : Environment R}
  {x : Experiment R}
  {value value' : Value R}

/- An experiment starts from one constant. -/
theorem unique
    (hStarts : StartsFrom env x name value)
    (hStarts' : StartsFrom env x name' value') :
    name' = name ∧ value' = value := by
  cases hStarts with
  | ket hState hKind hValue =>
      cases hStarts' with
      | ket hState' _ hValue' =>
          cases hState.symm.trans hState'
          cases hValue.symm.trans hValue'
          exact ⟨rfl, rfl⟩
      | rho hState' hKind' _ =>
          cases hState.symm.trans hState'
          cases hKind.symm.trans hKind'
  | rho hState hKind hValue =>
      cases hStarts' with
      | ket hState' hKind' _ =>
          cases hState.symm.trans hState'
          cases hKind.symm.trans hKind'
      | rho hState' _ hValue' =>
          cases hState.symm.trans hState'
          cases hValue.symm.trans hValue'
          exact ⟨rfl, rfl⟩

theorem agreesOff
    (hStarts : StartsFrom env x name value)
    (hAgrees : Environment.AgreesOff other env env')
    (hAvoids : x.Avoids other) :
    StartsFrom env' x name value := by
  cases hStarts with
  | @ket state ket hState hKind hValue =>
      have hSame := Environment.evaluate_agreesOff hAgrees
        (hAvoids.state state hState)
      exact .ket hState hKind (hSame.trans hValue)
  | @rho state rho hState hKind hValue =>
      have hSame := Environment.evaluate_agreesOff hAgrees
        (hAvoids.state state hState)
      exact .rho hState hKind (hSame.trans hValue)

/- The constant is no predefined operator. -/
theorem ordinary
    {a : Mat R}
    (hStarts : StartsFrom env x name value)
    (hPredefined : Predefined.find? other = some a) :
    Operation.constant name value ≠ .loadMatrix other a := by
  cases hStarts with
  | ket _ _ _ => exact nofun
  | rho _ _ _ =>
      rintro ⟨⟩
      cases hPredefined

end StartsFrom

end Lowering

end QuantumLab

------------------------------------------------------------
-- Experiments whose nodes are there
------------------------------------------------------------

namespace QuantumLab

variable {R : Type}

/- An experiment avoids no name of its operators. -/
theorem Experiment.Avoids.operators
    {x : Experiment R}
    {name other : String}
    {measured : String → Bool}
    (hAvoids : x.Avoids name)
    (hMember : other ∈ x.operators measured) :
    other ≠ name := by
  rcases List.mem_append.1 hMember with hOperator | hObservable
  · cases hEvolution : x.evolution with
    | none =>
        rw [hEvolution] at hOperator
        cases hOperator
    | some evolution =>
        rw [hEvolution] at hOperator
        have hParts := hAvoids.evolution evolution hEvolution
        rcases List.mem_cons.1 hOperator with rfl | hTerm
        · exact hParts.hamiltonian
        · rcases List.mem_map.1 hTerm with ⟨term, hListed, rfl⟩
          exact hParts.operators term hListed
  · rcases List.mem_map.1 (List.mem_filter.1 hObservable).1 with
      ⟨event, hEvent, rfl⟩
    exact hAvoids.schedule event hEvent

theorem Experiment.operators_congr
    {x : Experiment R}
    {measured measured' : String → Bool}
    (hSame : ∀ event ∈ x.schedule,
      measured' event.measurement = measured event.measurement) :
    x.operators measured' = x.operators measured := by
  have hObservables :
      observables measured' x.schedule =
        observables measured x.schedule := by
    refine List.filter_congr fun other hMember => ?_
    rcases List.mem_map.1 hMember with ⟨event, hEvent, rfl⟩
    rw [hSame event hEvent]
  rw [operators, operators, hObservables]

namespace Lowering

variable [Arithmetic R]

/- Every node that an experiment refers to is there. -/
structure Holds
    (s : Lowering R)
    (x : Experiment R)
    (planned : PlannedExperiment R) : Prop where
  reads : s.Reads x planned
  bound : ∀ name ∈ x.operators s.measurements.contains,
    ∃ id, s.symbols.find? name = some id
  starts : ∃ name value, StartsFrom s.environment x name value ∧
    s.plan.operation? planned.initialState =
      some (.constant name value) ∧
    s.shapeOf planned.initialState = value.shape

variable
  {name : String}
  {ρ : Pairing}
  {s s' t : Lowering R}
  {x y : Experiment R}
  {planned : PlannedExperiment R}

theorem Holds.later
    (hHolds : s.Holds x planned)
    (hAligned : s.Aligned)
    (hIncludes : s.Includes t)
    (hGrows : s.Grows t) :
    t.Holds x planned where
  reads := hHolds.reads.later hIncludes
  bound other hMember := by
    rw [hIncludes.measurements] at hMember
    rcases hHolds.bound other hMember with ⟨id, hSymbol⟩
    exact ⟨id, hIncludes.symbols _ _ hSymbol⟩
  starts := by
    rcases hHolds.starts with ⟨constant, value, hStarts, hNode, hShape⟩
    have hInside := Plan.lt_size_of_operation hNode
    refine ⟨constant, value, ?_, ?_, ?_⟩
    · rw [hIncludes.environment]
      exact hStarts
    · rw [hGrows.operation?_eq hInside, hNode]
    · rw [hGrows.shapeOf_eq (hAligned ▸ hInside), hShape]

/- The node of the initial state is spare when it has no partner. -/
theorem Holds.spare
    (hHolds : s.Holds x planned)
    (hAlone : ∀ id, ¬ ρ id planned.initialState) :
    Spare ρ s planned.initialState where
  alone := hAlone
  ordinary other a hPredefined hLoads := by
    rcases hHolds.starts with ⟨constant, value, hStarts, hNode, _⟩
    have hSame := Option.some.inj (hNode.symm.trans hLoads)
    exact hStarts.ordinary hPredefined hSame

/- An experiment that is planned has its nodes. -/
theorem holds_of_addExperiment
    (hAligned : s.Aligned)
    (hAdd : s.addExperiment x = .ok t) :
    ∃ constant value mid planned,
      (s.emitConstant constant value).2.ResolvesAll
        (x.operators s.measurements.contains) mid ∧
      mid.Holds x planned ∧ planned.initialState = s.plan.size ∧
      t = mid.withExperiments (mid.plan.experiments ++ [planned]) := by
  rcases addExperiment_eq_ok_iff.1 hAdd with
    ⟨constant, value, mid, planned, hStarts, hAll, hReads, hState, rfl⟩
  refine ⟨constant, value, mid, planned, hAll, ⟨hReads, ?_, ?_⟩,
    hState, rfl⟩
  · rw [hAll.includes.measurements]
    exact hAll.bound
  · have hGrows := hAll.appends.toGrows
    have hNode := s.operation?_emit (.constant constant value) value.shape
    have hInside := Plan.lt_size_of_operation hNode
    have hShape := shapeOf_emit hAligned (.constant constant value)
      value.shape
    have hShapes := hAligned.emit (.constant constant value) value.shape
    refine ⟨constant, value, ?_, ?_, ?_⟩
    · rw [hAll.includes.environment]
      exact hStarts
    · rw [hState]
      exact (hGrows.operation?_eq hInside).trans hNode
    · rw [hState]
      exact (hGrows.shapeOf_eq (hShapes ▸ hInside)).trans hShape

/- An experiment changes neither values nor what can be resolved. -/
theorem names_of_addExperiment
    (hAdd : s.addExperiment x = .ok t) :
    t.environment = s.environment ∧ t.measurements = s.measurements ∧
      ∀ other, t.CanResolve other ↔ s.CanResolve other := by
  rcases addExperiment_eq_ok_iff.1 hAdd with
    ⟨constant, value, mid, planned, _, hAll, _, _, rfl⟩
  refine ⟨hAll.includes.environment, hAll.includes.measurements,
    fun other => ?_⟩
  have hKept : mid.CanResolve other ↔ s.CanResolve other :=
    hAll.canResolve.trans canResolve_emitConstant
  rw [← hKept]
  exact canResolve_congr rfl rfl

/-
  The first lowering plans an experiment on nodes that the
  second already has.
-/
theorem Embeds.addExperiment_left
    {planned' : PlannedExperiment R}
    (hEmbeds : Embeds name ρ s s')
    (hAvoids : x.Avoids name)
    (hAdd : s.addExperiment x = .ok t)
    (hHolds : s'.Holds x planned')
    (hAlone : ∀ id, ¬ ρ id planned'.initialState) :
    ∃ later : Pairing,
      Embeds name later t
        (s'.withExperiments (s'.plan.experiments ++ [planned'])) ∧
      ∀ k', k' ≠ planned'.initialState → Spare ρ s' k' →
        ∀ id, ¬ later id k' := by
  rcases addExperiment_eq_ok_iff.1 hAdd with
    ⟨constant, value, mid, planned, hStarts, hAll, hReads, hState, rfl⟩
  rcases hHolds.starts with ⟨_, _, hStarts', hNode', hShape'⟩
  have hAgrees := hStarts.agreesOff hEmbeds.environment hAvoids
  rcases hAgrees.unique hStarts' with ⟨rfl, rfl⟩
  have hFirst := hEmbeds.emit_left (hHolds.spare hAlone) hNode' hShape'
    (.constant ρ _ _)
  have hOperators : x.operators s'.measurements.contains =
      x.operators s.measurements.contains := by
    refine Experiment.operators_congr fun event hEvent => ?_
    unfold Table.contains
    rcases cases_of_rel (hEmbeds.measurements _
        (hAvoids.schedule event hEvent)) with
      ⟨hNone, hNone'⟩ | ⟨_, _, hSome, hSome', _⟩
    · rw [hNone, hNone']
    · rw [hSome, hSome']
      rfl
  have hBound := hHolds.bound
  rw [hOperators] at hBound
  rcases hFirst.resolveAll_left (fun _ hMember => hAvoids.operators hMember)
      hBound hAll with ⟨later, hWithin, hLast, hSpares⟩
  have hPair : later planned.initialState planned'.initialState := by
    rw [hState]
    exact hWithin _ _ (ρ.add_self _ _)
  have hMatches := hReads.matches hHolds.reads hLast hAvoids hPair
  refine ⟨later, hLast.experiment hMatches, fun k' hOther hSpare => ?_⟩
  refine (hSpares k' ⟨?_, hSpare.ordinary⟩).alone
  rintro id (hPair | ⟨_, hSame⟩)
  · exact hSpare.alone id hPair
  · exact hOther hSame

/-
  After two experiments the nodes of both are there, beside
  the experiments that were planned before.
-/
theorem holds_of_addExperiments
    {next last : Lowering R}
    (hSelf : Embeds name ρ s s)
    (hFirst : s.addExperiment x = .ok next)
    (hSecond : next.addExperiment y = .ok last) :
    ∃ right planned planned', Embeds name ρ s right ∧
      right.Holds x planned ∧ right.Holds y planned' ∧
      s.plan.size ≤ planned.initialState ∧
      planned.initialState < planned'.initialState ∧
      right.plan.experiments = s.plan.experiments ∧
      last = right.withExperiments
        (s.plan.experiments ++ [planned, planned']) := by
  rcases holds_of_addExperiment hSelf.aligned hFirst with
    ⟨k, value, mid, planned, hAll, hHolds, hState, rfl⟩
  have hKept := Embeds.isKept name ρ s
  have hMid : Embeds name ρ s
      (mid.withExperiments s.plan.experiments) :=
    hKept.loads (hAll.withExperiments s.plan.experiments).loads
      (hSelf.emit_right (.constant k value) value.shape)
  have hAligned : (mid.withExperiments
      (mid.plan.experiments ++ [planned])).Aligned := hMid.aligned'
  rcases holds_of_addExperiment hAligned hSecond with
    ⟨k', value', mid', planned', hAll', hHolds', hState', rfl⟩
  have hRight : Embeds name ρ s
      (mid'.withExperiments s.plan.experiments) :=
    hKept.loads (hAll'.withExperiments s.plan.experiments).loads
      (hMid.emit_right (.constant k' value') value'.shape)
  have hPlanned : mid'.plan.experiments =
      s.plan.experiments ++ [planned] :=
    hAll'.appends.experiments.trans
      (congrArg (· ++ [planned]) hAll.appends.experiments)
  have hIncludes := includes_withExperiments mid' s.plan.experiments
  have hBetween := (includes_withExperiments mid _).trans
    ((includes_emitConstant _ k' value').trans hAll'.includes)
  have hPlaced : mid.Grows
      (mid.withExperiments (mid.plan.experiments ++ [planned])) :=
    .of_eq rfl rfl
  have hGrows := hPlaced.trans
    ((appends_emit _ _ _).toGrows.trans hAll'.appends.toGrows)
  have hSize := hAll.appends.toGrows.size_le
  rw [emitConstant, size_emit] at hSize
  refine ⟨_, planned, planned', hRight, ?_, ?_, hState.ge, ?_, rfl, ?_⟩
  · exact hHolds.later hMid.aligned' (hBetween.trans hIncludes)
      (hGrows.trans (.of_eq rfl rfl))
  · exact hHolds'.later hRight.aligned' hIncludes (.of_eq rfl rfl)
  · rw [hState, hState']
    exact hSize
  · rw [hPlanned, List.append_assoc]
    rfl

/-
  Two adjacent experiments are planned in either order, and
  then the experiments are exchanged.
-/
theorem exchange_addExperiment
    {sx sxy : Lowering R}
    (hSelf : Embeds name ρ s s)
    (hAvoids : x.Avoids name)
    (hAvoids' : y.Avoids name)
    (hFirst : s.addExperiment x = .ok sx)
    (hSecond : sx.addExperiment y = .ok sxy) :
    ∃ sy syx t, s.addExperiment y = .ok sy ∧
      sy.addExperiment x = .ok syx ∧ Simulates name sxy t ∧
      Exchanged s.plan.experiments.length t syx := by
  rcases names_of_addExperiment hFirst with
    ⟨hEnvironment, hMeasurements, hResolves⟩
  rcases exists_addExperiment hSecond hEnvironment.symm hMeasurements.symm
      (fun other => (hResolves other).1) with ⟨sy, hAddY⟩
  rcases names_of_addExperiment hAddY with
    ⟨hEnvironment', hMeasurements', hResolves'⟩
  rcases exists_addExperiment hFirst hEnvironment' hMeasurements'
      (fun other => (hResolves' other).2) with ⟨syx, hAddX⟩
  rcases holds_of_addExperiments hSelf hAddY hAddX with
    ⟨right, planned', planned, hRight, hHoldsY, hHoldsX, hBefore, hBelow,
      hExperiments, rfl⟩
  have hAlone : ∀ id id', s.plan.size ≤ id' → ¬ ρ id id' :=
    fun id id' hOutside hPair =>
      Nat.not_lt.2 hOutside (hSelf.plans.inside hPair).2
  rcases hRight.addExperiment_left hAvoids hFirst hHoldsX
      (fun id => hAlone id _ (hBefore.trans hBelow.le)) with
    ⟨ρ₁, hPlannedX, hSpare⟩
  have hSpareY := hHoldsY.spare (fun id => hAlone id _ hBefore)
  have hLater := hHoldsY.later hRight.aligned'
    (includes_withExperiments right
      (right.plan.experiments ++ [planned])) (.of_eq rfl rfl)
  rcases hPlannedX.addExperiment_left hAvoids' hSecond hLater
      (hSpare _ hBelow.ne hSpareY) with ⟨ρ₂, hPlannedY, _⟩
  refine ⟨sy, _, _, hAddY, hAddX, hPlannedY.simulates, _, ?_, rfl⟩
  change QuantumLab.Exchanged _
    ((right.plan.experiments ++ [planned]) ++ [planned']) _
  rw [hExperiments, List.append_assoc]
  exact exchanged_append _ planned planned' []

end Lowering

end QuantumLab
