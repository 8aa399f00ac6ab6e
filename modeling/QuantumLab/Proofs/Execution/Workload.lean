import Mathlib.Data.Set.Card
import QuantumLab.Proofs.Execution.History

/-
  This file says which nodes an execution computes: those
  behind the nodes that its experiments use, each of them
  once.

  Key definitions include:
    * `PlannedExperiment.roots`
    * `Plan.Reaches`
    * `Plan.ComputesAll`
    * `Plan.Provides`
    * `Session.Reads`

  Main statements:
    * `Plan.reads_evaluate` says what the evaluation of a
      node computes.
    * `Plan.reads_runExperiment` says what an experiment
      computes.
    * `Plan.execute_computes_each_node_once` says what an
      execution computes.
-/

------------------------------------------------------------
-- Nodes that are used
------------------------------------------------------------

namespace QuantumLab

variable {R : Type}

/-
  The nodes that an evolution uses.  A closed system has no
  dissipation, whatever channels it lists.
-/
def PlannedEvolution.roots (evolution : PlannedEvolution R) : List NodeId :=
  evolution.hamiltonian ::
    match evolution.method with
    | .schrodinger => []
    | .lindblad => evolution.jumps.map Jump.operator

/- The nodes that an experiment uses. -/
def PlannedExperiment.roots (e : PlannedExperiment R) : List NodeId :=
  e.initialState ::
    (match e.evolution with
      | some evolution => evolution.roots
      | none => []) ++
    e.measurements.flatMap PlannedMeasurement.operators

/- The nodes behind those that the experiments of a plan use. -/
def Plan.Reaches (plan : Plan R) (id : NodeId) : Prop :=
  ∃ e ∈ plan.experiments, ∃ root ∈ e.roots, plan.Uses root id

end QuantumLab

------------------------------------------------------------
-- Computations of nodes
------------------------------------------------------------

namespace QuantumLab

variable {R : Type} [Arithmetic R]

namespace Plan

/- Nodes that can be computed one after another, and what is kept then. -/
def ComputesAll
    (plan : Plan R)
    (memo : Memo R)
    (ids : List NodeId)
    (later : Memo R) : Prop :=
  (ids.forM plan.computeNode).run memo = (.ok (), later)

variable
  {plan : Plan R}
  {memo later last : Memo R}
  {id : NodeId}
  {ids : List NodeId}

theorem computesAll_nil_iff :
    plan.ComputesAll memo [] later ↔ memo = later := by
  unfold ComputesAll
  constructor
  · intro hRun
    cases hRun
    rfl
  · rintro rfl
    rfl

/- A node that is computed is there and its value is kept. -/
theorem computesAll_cons_iff :
    plan.ComputesAll memo (id :: ids) last ↔
      ∃ operation value, plan.operation? id = some operation ∧
        operation.compute memo.fetch id = .ok value ∧
          plan.ComputesAll (memo.store id value) ids last := by
  unfold ComputesAll
  rw [Session.run_forM_cons, Session.run_bind]
  constructor
  · intro hRun
    cases hOperation : plan.operation? id with
    | none =>
        simp only [computeNode, Session.run_bind, Session.run_get,
          hOperation, Session.run_fail] at hRun
        cases hRun
    | some operation =>
        rw [run_computeNode hOperation] at hRun
        cases hValue : operation.compute memo.fetch id with
        | error fault =>
            rw [hValue] at hRun
            cases hRun
        | ok value =>
            rw [hValue] at hRun
            exact ⟨operation, value, rfl, hValue, hRun⟩
  · rintro ⟨operation, value, hOperation, hValue, hRest⟩
    rw [run_computeNode hOperation, hValue]
    exact hRest

theorem ComputesAll.append
    {ids' : List NodeId}
    (hFirst : plan.ComputesAll memo ids later)
    (hSecond : plan.ComputesAll later ids' last) :
    plan.ComputesAll memo (ids ++ ids') last := by
  induction ids generalizing memo with
  | nil => exact computesAll_nil_iff.1 hFirst ▸ hSecond
  | cons id ids ih =>
      rcases computesAll_cons_iff.1 hFirst with
        ⟨operation, value, hOperation, hValue, hRest⟩
      exact computesAll_cons_iff.2
        ⟨operation, value, hOperation, hValue, ih hRest⟩

/- Every computation of a node is counted. -/
theorem ComputesAll.computed_eq
    (hComputes : plan.ComputesAll memo ids later) :
    later.computed = memo.computed + ids.length := by
  induction ids generalizing memo with
  | nil =>
      rw [computesAll_nil_iff.1 hComputes]
      rfl
  | cons id ids ih =>
      rcases computesAll_cons_iff.1 hComputes with
        ⟨_, value, _, _, hRest⟩
      have hStored : (memo.store id value).computed =
          memo.computed + 1 :=
        rfl
      rw [ih hRest, hStored, List.length_cons]
      omega

/- The values kept are those kept before and those computed. -/
theorem ComputesAll.kept_eq
    (hComputes : plan.ComputesAll memo ids later)
    (hSize : memo.values.size = plan.size) :
    later.kept plan = memo.kept plan ∪ ids.toFinset := by
  induction ids generalizing memo with
  | nil =>
      rw [computesAll_nil_iff.1 hComputes]
      simp
  | cons id ids ih =>
      rcases computesAll_cons_iff.1 hComputes with
        ⟨_, value, hOperation, _, hRest⟩
      have hInside := lt_size_of_operation hOperation
      have hStored : (memo.store id value).values.size = plan.size := by
        simp [Memo.store, hSize]
      rw [ih hRest hStored, Memo.kept_store hSize hInside]
      simp [Finset.insert_union]

end Plan

end QuantumLab

------------------------------------------------------------
-- Computations that are asked for values
------------------------------------------------------------

namespace QuantumLab

variable {R α β : Type} [Arithmetic R]

/-
  What a computation that needs the values of some roots does
  to the values kept: it computes nodes behind the roots
  alone, and keeps the values of the roots.
-/
structure Plan.Provides
    (plan : Plan R)
    (roots : List NodeId)
    (memo later : Memo R) : Prop where
  valid : later.Valid plan
  computed : ∃ ids, plan.ComputesAll memo ids later ∧
    ∀ id ∈ ids, ∃ root ∈ roots, plan.Uses root id
  kept : ∀ root ∈ roots, root ∈ later.kept plan

/- A computation that provides some roots whenever it succeeds. -/
def Session.Reads
    (plan : Plan R)
    (roots : List NodeId)
    (x : Session R α) : Prop :=
  ∀ memo a later, memo.Valid plan → x.run memo = (.ok a, later) →
    plan.Provides roots memo later

namespace Plan

variable
  {plan : Plan R}
  {roots roots' : List NodeId}
  {memo later last : Memo R}

theorem Provides.refl
    (hValid : memo.Valid plan) :
    plan.Provides [] memo memo where
  valid := hValid
  computed := ⟨[], computesAll_nil_iff.2 rfl, by simp⟩
  kept := by simp

/- What is kept stays when more is computed. -/
theorem Provides.trans
    (hFirst : plan.Provides roots memo later)
    (hSecond : plan.Provides roots' later last) :
    plan.Provides (roots ++ roots') memo last where
  valid := hSecond.valid
  computed := by
    rcases hFirst.computed with ⟨ids, hIds, hUses⟩
    rcases hSecond.computed with ⟨ids', hIds', hUses'⟩
    refine ⟨ids ++ ids', hIds.append hIds', fun id hMember => ?_⟩
    rcases List.mem_append.1 hMember with hEarly | hLate
    · rcases hUses id hEarly with ⟨root, hRoot, hUsed⟩
      exact ⟨root, List.mem_append_left _ hRoot, hUsed⟩
    · rcases hUses' id hLate with ⟨root, hRoot, hUsed⟩
      exact ⟨root, List.mem_append_right _ hRoot, hUsed⟩
  kept root hRoot := by
    rcases List.mem_append.1 hRoot with hEarly | hLate
    · rcases hSecond.computed with ⟨ids', hIds', _⟩
      rw [hIds'.kept_eq hFirst.valid.size_eq]
      exact Finset.mem_union_left _ (hFirst.kept root hEarly)
    · exact hSecond.kept root hLate

end Plan

namespace Session

variable {plan : Plan R} {roots roots' : List NodeId}

theorem Reads.lift
    (result : Except (Fault R) α) :
    Reads plan [] (Session.lift result) := by
  intro memo a later hValid hRun
  cases hRun
  exact .refl hValid

theorem Reads.pure
    (a : α) :
    Reads plan [] (Pure.pure a : Session R α) :=
  Reads.lift (.ok a)

/- What fails provides whatever it is asked for when it succeeds. -/
theorem Reads.fail
    (fault : Fault R) :
    Reads plan roots (Session.fail fault : Session R α) := by
  intro memo a later _ hRun
  cases hRun

theorem Reads.bind
    {x : Session R α}
    {f : α → Session R β}
    (hFirst : Reads plan roots x)
    (hSecond : ∀ a, Reads plan roots' (f a)) :
    Reads plan (roots ++ roots') (x >>= f) := by
  intro memo b last hValid hRun
  rw [run_bind] at hRun
  rcases hResult : x.run memo with ⟨result, later⟩
  rw [hResult] at hRun
  cases result with
  | error fault => cases hRun
  | ok a =>
      have hProvides := hFirst memo a later hValid hResult
      exact hProvides.trans
        (hSecond a later b last hProvides.valid hRun)

/- A result that is only changed asks for no other node. -/
theorem Reads.bind_pure
    {x : Session R α}
    {f : α → β}
    (hFirst : Reads plan roots x) :
    Reads plan roots (x >>= fun a => Pure.pure (f a)) := by
  have hPure : ∀ a, Reads plan [] (Pure.pure (f a) : Session R β) :=
    fun a => Reads.pure (f a)
  have hBoth := hFirst.bind hPure
  rw [List.append_nil] at hBoth
  exact hBoth

theorem Reads.mapM
    {f : α → Session R β}
    {g : α → List NodeId}
    {xs : List α}
    (hEach : ∀ x ∈ xs, Reads plan (g x) (f x)) :
    Reads plan (xs.flatMap g) (xs.mapM f) := by
  induction xs with
  | nil => exact Reads.pure []
  | cons x xs ih =>
      rcases List.forall_mem_cons.1 hEach with ⟨hHead, hTail⟩
      rw [List.mapM_cons, List.flatMap_cons]
      exact hHead.bind fun y => (ih hTail).bind_pure

end Session

end QuantumLab

------------------------------------------------------------
-- Evaluations
------------------------------------------------------------

namespace QuantumLab

variable {R : Type} [Arithmetic R]

omit [Arithmetic R] in
theorem Memo.mem_kept_iff
    {plan : Plan R}
    {memo : Memo R}
    {id : NodeId} :
    id ∈ memo.kept plan ↔
      id < plan.size ∧ (memo.find? id).isSome = true := by
  rw [kept, Finset.mem_filter, Finset.mem_range]

namespace Plan

/-
  The evaluation of a node computes the nodes behind it that
  have no value yet.
-/
theorem reads_evaluate
    (plan : Plan R)
    (id : NodeId) :
    Session.Reads plan [id] (plan.evaluate id) := by
  intro memo value later hValid hRun
  have hLater : later.Valid plan := by
    have hSpec := (evaluate_spec hValid id).1
    rw [hRun] at hSpec
    exact hSpec
  by_cases hOutside : plan.size ≤ id
  · rw [run_evaluate_of_missing hOutside] at hRun
    cases hRun
  · have hInside : id < plan.size := Nat.lt_of_not_le hOutside
    cases hKept : memo.find? id with
    | some kept =>
        rw [run_evaluate_of_kept hInside hKept] at hRun
        cases hRun
        refine ⟨hValid, ⟨[], computesAll_nil_iff.2 rfl, by simp⟩, ?_⟩
        simp [Memo.mem_kept_iff, hInside, hKept]
    | none =>
        cases hPending : plan.pending memo id with
        | error fault =>
            rw [run_evaluate_of_fault hInside hKept hPending] at hRun
            cases hRun
        | ok nodes =>
            rw [run_evaluate_of_pending hInside hKept hPending] at hRun
            have hSchedule := schedule_of_pending hInside hPending
            rcases hComputes : (nodes.forM plan.computeNode).run memo
              with ⟨result, last⟩
            rw [hComputes] at hRun
            cases result with
            | error fault => cases hRun
            | ok _ =>
                -- the values kept are those that the nodes leave
                have hSame : last = later := congrArg Prod.snd hRun
                subst hSame
                have hNodes : plan.ComputesAll memo nodes last := hComputes
                refine ⟨hLater, ⟨nodes, hNodes, fun node hNode =>
                  ⟨id, List.mem_singleton_self id,
                    (hSchedule.needed node hNode).uses⟩⟩, ?_⟩
                intro root hRoot
                rw [List.mem_singleton.1 hRoot,
                  hNodes.kept_eq hValid.size_eq]
                exact Finset.mem_union_right _
                  (List.mem_toFinset.2 hSchedule.root)

theorem reads_evaluateMatrix
    (plan : Plan R)
    (id : NodeId) :
    Session.Reads plan [id] (plan.evaluateMatrix id) := by
  change Session.Reads plan ([id] ++ []) (plan.evaluateMatrix id)
  refine (plan.reads_evaluate id).bind fun value => ?_
  cases value with
  | matrix a => exact .pure a
  | scalar z => exact .lift _
  | vector v => exact .lift _

------------------------------------------------------------
-- Experiments
------------------------------------------------------------

theorem reads_evaluateChannels
    (plan : Plan R)
    (jumps : List (Jump R)) :
    Session.Reads plan (jumps.map Jump.operator)
      (plan.evaluateChannels jumps) := by
  rw [List.map_eq_flatMap]
  exact Session.Reads.mapM fun jump _ =>
    (plan.reads_evaluateMatrix jump.operator).bind_pure

/- The evolution of a closed system does not ask for its channels. -/
theorem reads_evolve
    (plan : Plan R)
    (e : PlannedExperiment R)
    (evolution : PlannedEvolution R)
    (initial : Value R)
    (rho : Mat R) :
    Session.Reads plan evolution.roots
      (plan.evolve e evolution initial rho) := by
  refine (plan.reads_evaluateMatrix evolution.hamiltonian).bind
    fun h => ?_
  cases evolution.method with
  | schrodinger =>
      cases initial with
      | vector ket => exact (Session.Reads.lift _).bind_pure
      | scalar z => exact .fail _
      | matrix a => exact .fail _
  | lindblad =>
      have hChannels := plan.reads_evaluateChannels evolution.jumps
      have hStates : ∀ channels, Session.Reads plan []
          (Session.lift
            ((Lindblad.mk h channels).integrate rho evolution.times)) :=
        fun _ => Session.Reads.lift _
      have hBoth := hChannels.bind fun channels =>
        (hStates channels).bind_pure
          (f := fun states => (StateType.density, states))
      rw [List.append_nil] at hBoth
      exact hBoth

theorem reads_states
    (plan : Plan R)
    (e : PlannedExperiment R) :
    Session.Reads plan
      (e.initialState ::
        match e.evolution with
        | some evolution => evolution.roots
        | none => [])
      (plan.states e) := by
  refine (plan.reads_evaluate e.initialState).bind fun initial => ?_
  cases densityOf? initial with
  | none => exact .fail _
  | some rho =>
      cases e.evolution with
      | none => exact .pure _
      | some evolution => exact plan.reads_evolve e evolution initial rho

theorem reads_measure
    (plan : Plan R)
    (tolerance : R)
    (times : List R)
    (states : List (Mat R))
    (m : PlannedMeasurement) :
    Session.Reads plan m.operators
      (plan.measure tolerance times states m) := by
  have hOperators : Session.Reads plan m.operators
      (m.operators.mapM plan.evaluateMatrix) := by
    have hEach := Session.Reads.mapM fun id
      (_ : id ∈ m.operators) => plan.reads_evaluateMatrix id
    rw [List.flatMap_singleton'] at hEach
    exact hEach
  have hBoth : Session.Reads plan ([] ++ (m.operators ++ []))
      (plan.measure tolerance times states m) := by
    refine (Session.Reads.lift _).bind fun point => ?_
    refine hOperators.bind fun operators => ?_
    split
    · exact (Session.Reads.lift _).bind_pure
    · exact (Session.Reads.lift _).bind_pure
  rw [List.nil_append, List.append_nil] at hBoth
  exact hBoth

/- An experiment computes nodes behind those that it uses. -/
theorem reads_runExperiment
    (plan : Plan R)
    (tolerance : R)
    (e : PlannedExperiment R) :
    Session.Reads plan e.roots (plan.runExperiment tolerance e) := by
  unfold runExperiment
  by_cases hOutside : plan.size ≤ e.initialState
  · rw [if_pos hOutside]
    exact .fail _
  · rw [if_neg hOutside]
    refine (plan.reads_states e).bind fun trajectory => ?_
    have hOutcomes := Session.Reads.mapM fun m
      (_ : m ∈ e.measurements) => plan.reads_measure tolerance
        (timesOf e) trajectory.2 m
    exact hOutcomes.bind_pure

end Plan

end QuantumLab

------------------------------------------------------------
-- Whole plans
------------------------------------------------------------

namespace QuantumLab

variable {R : Type} [Arithmetic R]

namespace Plan

variable {plan : Plan R} {memo later : Memo R}

/- Experiments on shared values compute nodes behind those they use. -/
theorem provides_of_runAll
    {tolerance : R}
    {experiments : List (PlannedExperiment R)}
    {results : List (ExperimentResult R)}
    (hValid : memo.Valid plan)
    (hResults : plan.runAll tolerance memo experiments =
      .ok (results, later)) :
    plan.Provides (experiments.flatMap PlannedExperiment.roots)
      memo later := by
  induction experiments generalizing memo results with
  | nil =>
      cases hResults
      exact .refl hValid
  | cons e rest ih =>
      unfold runAll at hResults
      rcases hRun : (plan.runExperiment tolerance e).run memo with
        ⟨result, next⟩
      rw [hRun] at hResults
      cases result with
      | error fault => cases hResults
      | ok result =>
          rcases bind_eq_ok_iff.1 hResults with
            ⟨⟨results', last⟩, hRest, hSame⟩
          cases pure_eq_ok_iff.1 hSame
          have hFirst := plan.reads_runExperiment tolerance e memo
            result next hValid hRun
          rw [List.flatMap_cons]
          exact hFirst.trans (ih hFirst.valid hRest)

/- With a node, those behind it are kept. -/
theorem mem_kept_of_uses
    {root id : NodeId}
    (hValid : memo.Valid plan)
    (hUses : plan.Uses root id)
    (hRoot : root ∈ memo.kept plan) :
    id ∈ memo.kept plan := by
  induction hUses with
  | self => exact hRoot
  | operand _ hOperation hOperand ih =>
      rcases Memo.mem_kept_iff.1 ih with ⟨hInside, hKept⟩
      have hClosed := hValid.closed _ _ hKept hOperation _ hOperand
      exact Memo.mem_kept_iff.2 ⟨hClosed.1.trans hInside, hClosed.2⟩

/- From nothing on, the values kept are those of the nodes computed. -/
theorem ComputesAll.kept_of_initial
    {ids : List NodeId}
    (hComputes : plan.ComputesAll (.initial plan) ids memo) :
    memo.kept plan = ids.toFinset := by
  have hNothing : (Memo.initial plan).kept plan = ∅ := by
    simp [Memo.kept]
  rw [hComputes.kept_eq (Memo.valid_initial plan).size_eq, hNothing,
    Finset.empty_union]

/-
  From nothing on, no node is computed twice, because the
  computations are as many as the values kept.
-/
theorem ComputesAll.nodup
    {ids : List NodeId}
    (hComputes : plan.ComputesAll (.initial plan) ids memo)
    (hValid : memo.Valid plan) :
    ids.Nodup := by
  have hLength : memo.computed = ids.length := by
    rw [hComputes.computed_eq]
    exact Nat.zero_add _
  have hCard : ids.toFinset.card = ids.length := by
    rw [← hComputes.kept_of_initial, ← hValid.counted, hLength]
  exact Multiset.toFinset_card_eq_card_iff_nodup.1 hCard

/- From nothing on, the values kept are those behind the roots. -/
theorem Provides.mem_kept_iff
    {roots : List NodeId}
    (hProvides : plan.Provides roots (.initial plan) memo)
    (id : NodeId) :
    id ∈ memo.kept plan ↔ ∃ root ∈ roots, plan.Uses root id := by
  rcases hProvides.computed with ⟨ids, hComputes, hUses⟩
  constructor
  · intro hKept
    rw [hComputes.kept_of_initial, List.mem_toFinset] at hKept
    exact hUses id hKept
  · rintro ⟨root, hRoot, hUsed⟩
    exact mem_kept_of_uses hProvides.valid hUsed
      (hProvides.kept root hRoot)

/- After all experiments the values kept are those they reach. -/
theorem mem_kept_iff_reaches
    {tolerance : R}
    {results : List (ExperimentResult R)}
    (hResults : plan.runAll tolerance (.initial plan) plan.experiments =
      .ok (results, memo))
    (id : NodeId) :
    id ∈ memo.kept plan ↔ plan.Reaches id := by
  rw [(provides_of_runAll (Memo.valid_initial plan)
    hResults).mem_kept_iff]
  unfold Reaches
  simp only [List.mem_flatMap]
  constructor
  · rintro ⟨root, ⟨e, hMember, hRoot⟩, hUses⟩
    exact ⟨e, hMember, root, hRoot, hUses⟩
  · rintro ⟨e, hMember, root, hRoot, hUses⟩
    exact ⟨root, ⟨e, hMember, hRoot⟩, hUses⟩

/- As many nodes are computed as the experiments reach. -/
theorem computed_of_runAll
    {tolerance : R}
    {results : List (ExperimentResult R)}
    (hResults : plan.runAll tolerance (.initial plan) plan.experiments =
      .ok (results, memo)) :
    memo.computed = {id | plan.Reaches id}.ncard := by
  have hValid :=
    (provides_of_runAll (Memo.valid_initial plan) hResults).valid
  have hSet : {id | plan.Reaches id} = ↑(memo.kept plan) := by
    ext id
    exact (mem_kept_iff_reaches hResults id).symm
  rw [hSet, Set.ncard_coe_finset, ← hValid.counted]

/-
  An execution that succeeds leaves the values that computing
  some nodes one after another leaves.  However these are
  chosen, they are the nodes behind those that the
  experiments use, each of them once, and there are as many
  as the execution counts.
-/
theorem execute_computes_each_node_once
    {plan : Plan R}
    {config : BackendConfig}
    {tolerance : R}
    {result : ExecutionResult R}
    {count : Nat}
    (hResult : plan.execute config tolerance = .ok (result, count)) :
    ∃ memo,
      plan.runAll tolerance (.initial plan) plan.experiments =
        .ok (result.experiments, memo) ∧
      memo.computed = count ∧
      (∃ ids, plan.ComputesAll (.initial plan) ids memo) ∧
      (∀ ids, plan.ComputesAll (.initial plan) ids memo →
        ids.Nodup ∧ (∀ id, id ∈ ids ↔ plan.Reaches id) ∧
          ids.length = count) ∧
      {id | plan.Reaches id}.ncard = count := by
  have hRun : ∃ memo,
      plan.runAll tolerance (.initial plan) plan.experiments =
        .ok (result.experiments, memo) ∧ memo.computed = count := by
    unfold execute at hResult
    cases hBackend : config.backend with
    | cpuDense =>
        rw [hBackend] at hResult
        rcases bind_eq_ok_iff.1 hResult with
          ⟨⟨results, memo⟩, hAll, hSame⟩
        cases pure_eq_ok_iff.1 hSame
        exact ⟨memo, hAll, rfl⟩
    | _ =>
        rw [hBackend] at hResult
        cases hResult
  rcases hRun with ⟨memo, hAll, hCount⟩
  have hProvides :=
    provides_of_runAll (Memo.valid_initial plan) hAll
  refine ⟨memo, hAll, hCount, ?_, fun ids hComputes => ?_,
    (computed_of_runAll hAll).symm.trans hCount⟩
  · rcases hProvides.computed with ⟨ids, hComputes, _⟩
    exact ⟨ids, hComputes⟩
  · refine ⟨hComputes.nodup hProvides.valid, fun id => ?_, ?_⟩
    · rw [← mem_kept_iff_reaches hAll, hComputes.kept_of_initial,
        List.mem_toFinset]
    · rw [← hCount, hComputes.computed_eq]
      exact (Nat.zero_add _).symm

/-
  A closed system that lists a channel, and a state at rest
  that is measured with the operators of the first.
-/
def sharedOperators : Plan Float where
  nodes := #[
    .loadVector "up" ⟨#[Scalar.one, Scalar.zero]⟩,
    .loadMatrix "identity" (Mat.identity 2),
    .matrixAdd 1 1,
    .loadMatrix "channel" (Mat.identity 2)]
  experiments := [
    ⟨"closed", 0, some ⟨.schrodinger, 2, [⟨3, 0.5⟩], [0.0]⟩,
      [⟨"one", 0, .projective, [1]⟩]⟩,
    ⟨"still", 0, none, [⟨"two", 0, .povm, [2, 1]⟩]⟩]

/-
  Three nodes are computed, although the first two are used
  by both experiments.  The channel is not computed.
-/
theorem execute_computes_each_node_once_sharedOperators :
    ∃ result, sharedOperators.execute {} 0 = .ok (result, 3) ∧
      {id | sharedOperators.Reaches id}.ncard = 3 ∧
      ∃ memo ids, sharedOperators.ComputesAll
          (.initial sharedOperators) ids memo ∧
        ids.Nodup ∧ ids.length = 3 := by
  have hResult : ∃ result,
      sharedOperators.execute {} 0 = .ok (result, 3) :=
    ⟨_, rfl⟩
  rcases hResult with ⟨result, hResult⟩
  rcases execute_computes_each_node_once hResult with
    ⟨memo, _, _, ⟨ids, hIds⟩, hEach, hCard⟩
  rcases hEach ids hIds with ⟨hNodup, _, hLength⟩
  exact ⟨result, hResult, hCard, memo, ids, hIds, hNodup, hLength⟩

end Plan

end QuantumLab
