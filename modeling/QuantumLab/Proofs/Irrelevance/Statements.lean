import QuantumLab.Proofs.Irrelevance.Lowering

/-
  This file says what statements add to two lowerings that
  agree about all names but one, and what a declaration adds
  to one of them.

  Key definitions include:
    * `Lowering.Simulates`

  Main statements:
    * `Lowering.tracks_addStatement` says that a statement
      that ignores the name is added to both.
    * `Lowering.simulates_of_addStatement` says that a
      declaration of the name may be added to the second
      alone.
-/

------------------------------------------------------------
-- Declarations
------------------------------------------------------------

namespace QuantumLab

variable {R : Type} [Arithmetic R]

namespace Lowering

/- Two lowerings agree about all names but one, for some pairs. -/
def Simulates (name : String) (s s' : Lowering R) : Prop :=
  ∃ ρ, Embeds name ρ s s'

variable
  {name : String}
  {ρ : Pairing}
  {s s' : Lowering R}
  {e : Expr R}

theorem Embeds.simulates
    (hEmbeds : Embeds name ρ s s') :
    Simulates name s s' :=
  ⟨ρ, hEmbeds⟩

/- A name is bound to the paired nodes that come before. -/
theorem Reached.simulates_bind
    {p p' : NodeId × Lowering R}
    (hReached : Reached name ρ (fun later => later) p p')
    (other : String) :
    Simulates name (p.2.bind other p.1) (p'.2.bind other p'.1) := by
  rcases hReached with ⟨later, _, hPair, hEmbeds⟩
  exact (hEmbeds.bind hPair other).simulates

theorem tracks_addConst
    (hEmbeds : Embeds name ρ s s')
    (hAvoids : e.Avoids name)
    (other : String) :
    Tracks (Simulates name) (s.addConst other e)
      (s'.addConst other e) := by
  refine Tracks.bind_same
    (Environment.evaluate?_agreesOff hEmbeds.environment hAvoids)
    fun value? _ => ?_
  cases value? with
  | none => exact .of_ok (hEmbeds.declareSymbolic other).simulates
  | some value =>
      have hConstant := (hEmbeds.define other value).reached_emitConstant
        other value
      exact .of_ok (hConstant.simulates_bind other)

/- An expression is lowered and its node gets a name. -/
theorem tracks_lower_bind
    (hEmbeds : Embeds name ρ s s')
    (hAvoids : e.Avoids name)
    (other : String) :
    Tracks (Simulates name)
      (do
        let (id, s) ← s.lower e
        return s.bind other id)
      (do
        let (id, s) ← s'.lower e
        return s.bind other id) := by
  refine (tracks_lower hEmbeds hAvoids).bind ?_
  rintro ⟨id, t⟩ ⟨id', t'⟩ hReached
  exact .of_ok (hReached.simulates_bind other)

theorem tracks_addQuantity
    (hEmbeds : Embeds name ρ s s')
    (hAvoids : e.Avoids name)
    (other : String) :
    Tracks (Simulates name) (s.addQuantity other e)
      (s'.addQuantity other e) := by
  refine Tracks.bind_same
    (Environment.evaluate?_agreesOff hEmbeds.environment hAvoids)
    fun value? _ => ?_
  cases value? with
  | none => exact .of_ok (hEmbeds.declareSymbolic other).simulates
  | some value =>
      have hDefined := hEmbeds.define other value
      simp only
      split
      · have hConstant := hDefined.reached_emitConstant other value
        exact .of_ok (hConstant.simulates_bind other)
      · exact tracks_lower_bind hDefined hAvoids other

theorem tracks_addHamiltonian
    (hEmbeds : Embeds name ρ s s')
    (hAvoids : e.Avoids name)
    (other : String)
    (parameters : List String) :
    Tracks (Simulates name) (s.addHamiltonian other parameters e)
      (s'.addHamiltonian other parameters e) := by
  have hSymbolic := (hEmbeds.declareSymbolic other).simulates
  cases parameters with
  | cons parameter rest => exact .of_ok hSymbolic
  | nil =>
      refine Tracks.bind_same
        (Environment.evaluate?_agreesOff hEmbeds.environment hAvoids)
        fun value? _ => ?_
      cases value? with
      | none => exact .of_ok hSymbolic
      | some value =>
          exact tracks_lower_bind (hEmbeds.define other value) hAvoids
            other

/- The operators of a measurement are loaded one by one. -/
theorem tracks_emitOperators
    {operators : List (Expr R)}
    (hEmbeds : Embeds name ρ s s')
    (hAvoids : ∀ e ∈ operators, e.Avoids name)
    (other : String)
    (k : Nat) :
    Tracks (Reached name ρ fun later => List.Forall₂ later)
      (s.emitOperators other k operators)
      (s'.emitOperators other k operators) := by
  induction operators generalizing ρ s s' k with
  | nil => exact .of_ok (hEmbeds.reached .nil)
  | cons operator rest ih =>
      rcases List.forall_mem_cons.1 hAvoids with ⟨hHead, hTail⟩
      refine Tracks.bind_same
        (Environment.evaluate_agreesOff hEmbeds.environment hHead)
        fun value _ => ?_
      rcases hEmbeds.reached_emitConstant (operatorName other k) value
        with ⟨ρ₁, hWithin, hPair, hEmbeds₁⟩
      refine (tracks_bind (ih hEmbeds₁ hTail (k + 1)) ?_).imp
        fun _ _ hReached => Reached.of_within hReached hWithin
      intro ρ₂ ids ids' t t' hWithin₂ hIds hEmbeds₂
      exact .of_ok
        (hEmbeds₂.reached (.cons (hWithin₂ _ _ hPair) hIds))

theorem tracks_addMeasurement
    {operators : List (Expr R)}
    (hEmbeds : Embeds name ρ s s')
    (hAvoids : ∀ e ∈ operators, e.Avoids name)
    (other : String)
    (kind : MeasurementKind) :
    Tracks (Simulates name) (s.addMeasurement other kind operators)
      (s'.addMeasurement other kind operators) := by
  refine (tracks_emitOperators hEmbeds hAvoids other 0).bind ?_
  rintro ⟨ids, t⟩ ⟨ids', t'⟩ ⟨later, _, hIds, hLater⟩
  simp only at hIds hLater
  have hAlike : MeasuresAlike later
      (OutcomeKind.ofDefinition kind, ids)
      (OutcomeKind.ofDefinition kind, ids') :=
    ⟨rfl, hIds⟩
  exact .of_ok (hLater.measurement hAlike other).simulates

end Lowering

end QuantumLab

------------------------------------------------------------
-- Experiments
------------------------------------------------------------

namespace QuantumLab

variable {R : Type} [Arithmetic R]

namespace Lowering

variable
  {name : String}
  {ρ : Pairing}
  {s s' : Lowering R}

theorem tracks_lowerInitialState
    {x : Experiment R}
    (hEmbeds : Embeds name ρ s s')
    (hAvoids : x.Avoids name) :
    Tracks (Reached name ρ fun later => later) (s.lowerInitialState x)
      (s'.lowerInitialState x) := by
  unfold lowerInitialState
  cases hState : x.initialState with
  | none => exact .of_error
  | some state =>
      refine Tracks.bind_same
        (Environment.evaluate_agreesOff hEmbeds.environment
          (hAvoids.state state hState)) fun value _ => ?_
      cases state.kind with
      | ket =>
          cases value with
          | vector ket =>
              exact .of_ok
                (hEmbeds.reached_emitConstant "init_ket" (.vector ket))
          | scalar z => exact .of_error
          | matrix a => exact .of_error
      | rho =>
          cases value with
          | matrix rho =>
              exact .of_ok
                (hEmbeds.reached_emitConstant "init_rho" (.matrix rho))
          | scalar z => exact .of_error
          | vector v => exact .of_error

theorem tracks_lowerTerms
    {terms : List (LindbladTerm R)}
    (hEmbeds : Embeds name ρ s s')
    (hOperators : ∀ term ∈ terms, term.operator ≠ name)
    (hRates : ∀ term ∈ terms, term.rate.Avoids name) :
    Tracks (Reached name ρ fun later => List.Forall₂ (Jump.Matches later))
      (s.lowerTerms terms) (s'.lowerTerms terms) := by
  induction terms generalizing ρ s s' with
  | nil => exact .of_ok (hEmbeds.reached .nil)
  | cons term rest ih =>
      rcases List.forall_mem_cons.1 hOperators with
        ⟨hOperator, hOperators⟩
      rcases List.forall_mem_cons.1 hRates with ⟨hRate, hRates⟩
      refine tracks_bind (tracks_resolve hEmbeds hOperator)
        fun ρ₁ id id' t t' _ hPair hEmbeds₁ => ?_
      simp only [Environment.evaluateReal_agreesOff
        hEmbeds₁.environment hRate]
      split
      · refine tracks_bind (ih hEmbeds₁ hOperators hRates)
          fun ρ₂ jumps jumps' u u' hWithin hJumps hEmbeds₂ => ?_
        exact .of_ok (hEmbeds₂.reached
          (.cons ⟨hWithin _ _ hPair, rfl⟩ hJumps))
      · split
        · exact .of_error
        · exact .of_error

theorem tracks_lowerEvolution
    {evolution : Option (Evolution R)}
    (hEmbeds : Embeds name ρ s s')
    (hAvoids : ∀ given, evolution = some given → given.Avoids name) :
    Tracks
      (Reached name ρ fun later =>
        Option.Rel (PlannedEvolution.Matches later))
      (s.lowerEvolution evolution) (s'.lowerEvolution evolution) := by
  cases evolution with
  | none => exact .of_ok (hEmbeds.reached .none)
  | some evolution =>
      have hFree := hAvoids evolution rfl
      refine tracks_bind (tracks_resolve hEmbeds hFree.hamiltonian)
        fun ρ₁ id id' t t' _ hPair hEmbeds₁ => ?_
      refine tracks_bind
        (tracks_lowerTerms hEmbeds₁ hFree.operators hFree.rates)
        fun ρ₂ jumps jumps' u u' hWithin hJumps hEmbeds₂ => ?_
      refine .of_ok (hEmbeds₂.reached (.some ?_))
      exact
        { method := by rw [isEmpty_eq_of_forall₂ hJumps]
          hamiltonian := hWithin _ _ hPair
          jumps := hJumps
          times := rfl }

theorem tracks_lowerEvent
    {event : Event R}
    (hEmbeds : Embeds name ρ s s')
    (hOther : event.measurement ≠ name)
    (times : List R) :
    Tracks (Reached name ρ fun later => PlannedMeasurement.Matches later)
      (s.lowerEvent times event) (s'.lowerEvent times event) := by
  unfold lowerEvent
  rcases cases_of_rel (hEmbeds.measurements _ hOther) with
    ⟨hNone, hNone'⟩ | ⟨m, m', hSome, hSome', hKind, hOperators⟩
  · rw [hNone, hNone']
    refine tracks_bind (tracks_resolve hEmbeds hOther)
      fun ρ₁ id id' t t' _ hPair hEmbeds₁ => ?_
    exact .of_ok (hEmbeds₁.reached
      ⟨rfl, rfl, rfl, .cons hPair .nil⟩)
  · rw [hSome, hSome']
    exact .of_ok (hEmbeds.reached ⟨rfl, rfl, hKind, hOperators⟩)

theorem tracks_lowerSchedule
    {schedule : List (Event R)}
    (hEmbeds : Embeds name ρ s s')
    (hOther : ∀ event ∈ schedule, event.measurement ≠ name)
    (times : List R) :
    Tracks
      (Reached name ρ fun later =>
        List.Forall₂ (PlannedMeasurement.Matches later))
      (s.lowerSchedule times schedule)
      (s'.lowerSchedule times schedule) := by
  induction schedule generalizing ρ s s' with
  | nil => exact .of_ok (hEmbeds.reached .nil)
  | cons event rest ih =>
      rcases List.forall_mem_cons.1 hOther with ⟨hHead, hTail⟩
      refine tracks_bind (tracks_lowerEvent hEmbeds hHead times)
        fun ρ₁ m m' t t' _ hFirst hEmbeds₁ => ?_
      refine tracks_bind (ih hEmbeds₁ hTail)
        fun ρ₂ ms ms' u u' hWithin hRest hEmbeds₂ => ?_
      exact .of_ok
        (hEmbeds₂.reached (.cons (hFirst.mono hWithin) hRest))

/- The times of an evolution are the same. -/
theorem timesOf_eq_of_matches
    {evolution evolution' : Option (PlannedEvolution R)}
    (hMatches :
      Option.Rel (PlannedEvolution.Matches ρ) evolution evolution') :
    timesOf evolution' = timesOf evolution := by
  cases hMatches with
  | none => rfl
  | some hEvolution => exact hEvolution.times

theorem tracks_addExperiment
    {x : Experiment R}
    (hEmbeds : Embeds name ρ s s')
    (hAvoids : x.Avoids name) :
    Tracks (Simulates name) (s.addExperiment x)
      (s'.addExperiment x) := by
  refine (tracks_lowerInitialState hEmbeds hAvoids).bind ?_
  rintro ⟨id, t⟩ ⟨id', t'⟩ ⟨ρ₁, _, hState, hEmbeds₁⟩
  refine (tracks_lowerEvolution hEmbeds₁ hAvoids.evolution).bind ?_
  rintro ⟨evolution, u⟩ ⟨evolution', u'⟩
    ⟨ρ₂, hWithin₂, hEvolution, hEmbeds₂⟩
  simp only at hEvolution hEmbeds₂
  simp only [timesOf_eq_of_matches hEvolution]
  refine (tracks_lowerSchedule hEmbeds₂ hAvoids.schedule _).bind ?_
  rintro ⟨ms, v⟩ ⟨ms', v'⟩
    ⟨ρ₃, hWithin₃, hSchedule, hEmbeds₃⟩
  simp only at hState hSchedule hEmbeds₃
  have hMatches : PlannedExperiment.Matches ρ₃
      ⟨x.name, id, evolution, ms⟩ ⟨x.name, id', evolution', ms'⟩ := by
    refine ⟨rfl, hWithin₃ _ _ (hWithin₂ _ _ hState), ?_, hSchedule⟩
    cases hEvolution with
    | none => exact .none
    | some hPair => exact .some (hPair.mono hWithin₃)
  exact .of_ok (hEmbeds₃.experiment hMatches).simulates

/- A statement that avoids the name is added to both lowerings. -/
theorem tracks_addStatement
    {d : Statement R}
    (hSimulates : Simulates name s s')
    (hAvoids : d.Avoids name) :
    Tracks (Simulates name) (s.addStatement d) (s'.addStatement d) := by
  rcases hSimulates with ⟨ρ, hEmbeds⟩
  cases d with
  | empty => exact .of_error
  | const other e => exact tracks_addConst hEmbeds hAvoids other
  | symbol other =>
      exact .of_ok (hEmbeds.declareSymbolic other).simulates
  | matrix other e => exact tracks_addQuantity hEmbeds hAvoids other
  | function other parameters body =>
      exact .of_ok (hEmbeds.declareSymbolic other).simulates
  | hamiltonian other parameters e =>
      exact tracks_addHamiltonian hEmbeds hAvoids other parameters
  | measurement other kind operators =>
      exact tracks_addMeasurement hEmbeds hAvoids other kind
  | experiment x => exact tracks_addExperiment hEmbeds hAvoids

end Lowering

end QuantumLab

------------------------------------------------------------
-- A declaration of the name
------------------------------------------------------------

namespace QuantumLab

variable {R : Type} [Arithmetic R]

namespace Lowering

variable
  {name other : String}
  {ρ : Pairing}
  {s s' t' : Lowering R}

/-
  The second lowering may have the node of a predefined
  operator before the first.
-/
theorem Embeds.emit_early
    {a : Mat R}
    (hEmbeds : Embeds name ρ s s')
    (hSymbol : s.symbols.find? other = none)
    (hUnknown : s'.symbolic.contains other = false)
    (hPredefined : Predefined.find? other = some a) :
    Embeds name ρ s
      ((s'.emitConstant other (.matrix a)).2.bind other
        s'.plan.size) := by
  have hNode := hEmbeds.emit_right (.loadMatrix other a)
    (Value.matrix a).shape
  refine ⟨⟨hNode.aligned, hNode.aligned', hNode.plans, hNode.shapes⟩,
    ?_, ?_, hNode.measurements, hNode.environment⟩
  · intro key hKey
    by_cases hSame : other = key
    · subst hSame
      have hNode' := s'.operation?_emit (.loadMatrix other a)
        (Value.matrix a).shape
      have hShape' := shapeOf_emit hEmbeds.aligned'
        (.loadMatrix other a) (Value.matrix a).shape
      refine .early hSymbol (Table.find?_insert_self _ _ _) hPredefined
        hNode' hShape' ?_
      exact fun id hPair =>
        Nat.lt_irrefl _ (hEmbeds.plans.inside hPair).2
    · refine (hNode.symbols key hKey).grow hNode.aligned' rfl ?_
        (.of_eq rfl rfl)
      exact (Table.find?_insert _ _ _ _).trans (if_neg hSame)
  · intro key hKey
    refine Eq.trans ?_ (hEmbeds.symbolic key hKey)
    refine (Table.find?_erase _ _ _).trans ?_
    by_cases hSame : other = key
    · subst hSame
      rw [Table.contains, Option.isSome_eq_false_iff,
        Option.isNone_iff_eq_none] at hUnknown
      rw [if_pos rfl, hUnknown]
    · rw [if_neg hSame]
      rfl

/- The second lowering may resolve a name alone. -/
theorem Embeds.resolve_right
    {id : NodeId}
    (hEmbeds : Embeds name ρ s s')
    (hResolve : s'.resolve other = .ok (id, t')) :
    Embeds name ρ s t' := by
  unfold resolve at hResolve
  cases hSymbol' : s'.symbols.find? other with
  | some k =>
      rw [hSymbol'] at hResolve
      cases hResolve
      exact hEmbeds
  | none =>
      simp only [hSymbol'] at hResolve
      split at hResolve
      · exact absurd hResolve refuse_ne_ok
      · next hUnknown =>
        rw [Bool.not_eq_true] at hUnknown
        split at hResolve
        · next a hPredefined =>
          cases hResolve
          by_cases hOther : other = name
          · subst hOther
            exact (hEmbeds.emit_right _ _).bind_right _
          · refine hEmbeds.emit_early ?_ hUnknown hPredefined
            cases hEmbeds.symbols other hOther with
            | unbound hSymbol _ => exact hSymbol
            | bound _ hBound _ => cases hSymbol'.symm.trans hBound
            | early _ hBound _ _ _ _ => cases hSymbol'.symm.trans hBound
        · exact absurd hResolve refuse_ne_ok

/- New nodes and resolved names of the second change nothing. -/
theorem Embeds.isKept
    (name : String)
    (ρ : Pairing)
    (s : Lowering R) :
    IsKept (Embeds name ρ s) where
  emit hEmbeds operation shape _ := hEmbeds.emit_right operation shape
  resolve hEmbeds hResolve := hEmbeds.resolve_right hResolve

/- A declaration of the name may be added to the second alone. -/
theorem simulates_of_addStatement
    {d : Statement R}
    (hSimulates : Simulates d.name s s')
    (hOther : d.experiment? = none)
    (hAdd : s'.addStatement d = .ok t') :
    Simulates d.name s t' := by
  rcases hSimulates with ⟨ρ, hEmbeds⟩
  have hKept := Embeds.isKept d.name ρ s
  cases adds_of_addStatement hAdd with
  | symbol _ _ => exact hEmbeds.declareSymbolic_right.simulates
  | undefined _ _ => exact hEmbeds.declareSymbolic_right.simulates
  | @loaded _ e value _ _ _ =>
      have hDefined := hEmbeds.define_right value
      exact ((hDefined.emit_right _ _).bind_right _).simulates
  | @lowered _ e value id later _ _ _ hLower =>
      have hDefined := hEmbeds.define_right value
      have hLater := hKept.lowers (lowers_of_lower hLower) hDefined
      exact (hLater.bind_right id).simulates
  | measurement hMeasurement =>
      rcases loads_addMeasurement hMeasurement with
        ⟨last, ids, hLoads, rfl⟩
      exact ((hKept.loads hLoads hEmbeds).measurement_right _).simulates
  | experiment _ => cases hOther

end Lowering

end QuantumLab
