import QuantumLab.Proofs.Execution.Blame
import QuantumLab.Proofs.Execution.Workload

/-
  This file follows the loop that looks for the nodes to
  compute, for any plan and any values that are kept together
  with those of their operands.

  Key definitions include:
    * `Worklist.Passes`, `Worklist.Stops`
    * `Worklist.Reached`, `Worklist.Drains`
    * `Plan.Recalls`, `Plan.Collects`

  Main statements:
    * `Worklist.Passes.reached` says what holds whenever the
      loop looks for its next node.
    * `Worklist.drains` says that the loop ends.
    * `Plan.Ready.after` says that nodes can be computed when
      those before them are computed.
    * `Plan.worklist_collects_uncached` says that the loop
      ends, what it finds, and when it fails.
-/

------------------------------------------------------------
-- Passes of the loop
------------------------------------------------------------

namespace QuantumLab

variable {R : Type}

namespace Worklist

/-
  Some passes of the loop, with the nodes looked at in order.
  A pass takes the next node off and puts those of its
  operands on the list that were not there yet.
-/
inductive Passes
    (plan : Plan R)
    (memo : Memo R)
    (first : Worklist) : List NodeId → Worklist → Prop
  | start : Passes plan memo first [] first
  | pass
      {w later : Worklist}
      {looked rest : List NodeId}
      {node : NodeId}
      {operation : Operation R} :
      Passes plan memo first looked w →
      w.waiting = node :: rest →
      plan.operation? node = some operation →
      putOperands memo operation.word node
        { w with waiting := rest } operation.operands = .ok later →
      Passes plan memo first (looked ++ [node]) later

/-
  How the loop stops: no node is left, or the next one is not
  there or has an operand that does not come before it.
-/
inductive Stops
    (plan : Plan R)
    (memo : Memo R)
    (w : Worklist) : Except (Fault R) Worklist → Prop
  | done :
      w.waiting = [] →
      Stops plan memo w (.ok w)
  | missing
      {node : NodeId}
      {rest : List NodeId} :
      w.waiting = node :: rest →
      plan.operation? node = none →
      Stops plan memo w (.error ⟨.missingNode node, some node⟩)
  | operand
      {node : NodeId}
      {rest : List NodeId}
      {operation : Operation R}
      {fault : Fault R} :
      w.waiting = node :: rest →
      plan.operation? node = some operation →
      putOperands memo operation.word node
        { w with waiting := rest } operation.operands = .error fault →
      Stops plan memo w (.error fault)

variable
  {plan : Plan R}
  {memo : Memo R}
  {first w : Worklist}
  {looked : List NodeId}

/- The loop stops, or there is one more pass. -/
theorem stops_or_passes
    (hPasses : Passes plan memo first looked w) :
    (∃ result, Stops plan memo w result) ∨
      ∃ node later, Passes plan memo first (looked ++ [node]) later := by
  cases hWaiting : w.waiting with
  | nil => exact .inl ⟨_, .done hWaiting⟩
  | cons node rest =>
      cases hOperation : plan.operation? node with
      | none => exact .inl ⟨_, .missing hWaiting hOperation⟩
      | some operation =>
          cases hPut : putOperands memo operation.word node
              { w with waiting := rest } operation.operands with
          | error fault =>
              exact .inl ⟨_, .operand hWaiting hOperation hPut⟩
          | ok later =>
              exact .inr ⟨_, _, .pass hPasses hWaiting hOperation hPut⟩

/- There are as many passes as asked for, or the loop stops before. -/
theorem exists_passes
    (plan : Plan R)
    (memo : Memo R)
    (first : Worklist)
    (count : Nat) :
    ∃ looked w, Passes plan memo first looked w ∧
      (looked.length = count ∨ ∃ result, Stops plan memo w result) := by
  induction count with
  | zero => exact ⟨[], first, .start, .inl rfl⟩
  | succ count ih =>
      rcases ih with ⟨looked, w, hPasses, rfl | hStops⟩
      · rcases stops_or_passes hPasses with hStops | ⟨node, later, hLater⟩
        · exact ⟨looked, w, hPasses, .inr hStops⟩
        · exact ⟨looked ++ [node], later, hLater, .inl (by simp)⟩
      · exact ⟨looked, w, hPasses, .inr hStops⟩

/- Passes use up fuel, one unit each. -/
theorem Passes.exhaust_eq
    (hPasses : Passes plan memo first looked w)
    (fuel : Nat) :
    exhaust plan memo (fuel + looked.length) first =
      exhaust plan memo fuel w := by
  induction hPasses generalizing fuel with
  | start => rfl
  | @pass w later looked rest node operation _ hWaiting hOperation hPut
      ih =>
      rw [List.length_append, List.length_singleton, Nat.add_comm _ 1,
        ← Nat.add_assoc, ih, exhaust_cons fuel hWaiting hOperation, hPut]
      rfl

/- What the loop stops with is found with the fuel for one more pass. -/
theorem Stops.exhaust_eq
    {result : Except (Fault R) Worklist}
    (hStops : Stops plan memo w result)
    {fuel : Nat}
    (hFuel : w.waiting ≠ [] → 0 < fuel) :
    exhaust plan memo fuel w = result := by
  cases hStops with
  | done hWaiting => exact exhaust_nil fuel hWaiting
  | @missing node rest hWaiting hOperation =>
      rcases Nat.exists_eq_succ_of_ne_zero
        (hFuel (by simp [hWaiting])).ne' with ⟨fuel, rfl⟩
      simp only [exhaust, hWaiting, hOperation]
  | @operand node rest operation fault hWaiting hOperation hPut =>
      rcases Nat.exists_eq_succ_of_ne_zero
        (hFuel (by simp [hWaiting])).ne' with ⟨fuel, rfl⟩
      rw [Nat.succ_eq_add_one, exhaust_cons fuel hWaiting hOperation, hPut]
      rfl

------------------------------------------------------------
-- Lists on the way
------------------------------------------------------------

/-
  What holds of the list whenever the loop looks for its next
  node: every marked node was looked at or is waiting, and no
  node is looked at twice, as the nodes looked at, waiting
  and not yet marked are no more than there are nodes.
-/
structure Reached
    (plan : Plan R)
    (memo : Memo R)
    (id : NodeId)
    (looked : List NodeId)
    (w : Worklist) : Prop extends Sound plan memo id w where
  placed : ∀ node, w.isMarked node = true →
    node ∈ looked ∨ node ∈ w.waiting
  measure : looked.length + (w.waiting.length + w.unmarked) ≤ plan.size

/- The nodes marked and the nodes not marked are all nodes. -/
theorem length_nodes_add_unmarked
    (w : Worklist) :
    w.nodes.length + w.unmarked = w.marked.size := by
  have hSplit := List.length_eq_countP_add_countP w.isMarked
    (l := List.range w.marked.size)
  rw [List.length_range] at hSplit
  rw [nodes, unmarked, ← List.countP_eq_length_filter]
  simpa using hSplit.symm

variable {id : NodeId}

/- A node that waits is one of the nodes of the plan. -/
theorem Sound.waiting_lt
    (hSound : w.Sound plan memo id) :
    ∀ node ∈ w.waiting, node < plan.size := by
  intro node hWaiting
  exact hSound.size_eq ▸
    lt_size_of_isMarked (hSound.waiting_marked node hWaiting)

/- When no node is left, each marked node was looked at once. -/
theorem Reached.perm_nodes
    (hReached : Reached plan memo id looked w)
    (hWaiting : w.waiting = []) :
    looked.Perm w.nodes := by
  have hNodup : w.nodes.Nodup :=
    w.nodes_ascending.imp fun hLess => Nat.ne_of_lt hLess
  have hSubset : w.nodes ⊆ looked := by
    intro node hNode
    have hPlaced := hReached.placed node (mem_nodes_iff.1 hNode)
    simpa [hWaiting] using hPlaced
  have hCount : looked.length ≤ w.nodes.length := by
    have hAll := w.length_nodes_add_unmarked
    have hMeasure := hReached.measure
    have hSize := hReached.size_eq
    rw [hWaiting, List.length_nil] at hMeasure
    omega
  exact ((hNodup.subperm hSubset).perm_of_length_le hCount).symm

/- The loop begins with the node that is asked for. -/
theorem reached_single
    (hInside : id < plan.size) :
    Reached plan memo id [] (single plan.size id) where
  toSound := Plan.sound_single hInside
  placed node hMarked := by
    rw [isMarked_single hInside, decide_eq_true_eq] at hMarked
    simp [single, put, hMarked]
  measure := by simpa using measure_single hInside

/- One pass of the loop. -/
theorem Reached.pass
    {later : Worklist}
    {rest : List NodeId}
    {node : NodeId}
    {operation : Operation R}
    (hReached : Reached plan memo id looked w)
    (hWaiting : w.waiting = node :: rest)
    (hOperation : plan.operation? node = some operation)
    (hPut : putOperands memo operation.word node
      { w with waiting := rest } operation.operands = .ok later) :
    Reached plan memo id (looked ++ [node]) later := by
  have hNext := hReached.putOperands_next hWaiting hOperation
  rw [hPut] at hNext
  rcases hNext with ⟨_, hExtends, _⟩
  rcases hReached.toSound.step hWaiting hOperation hPut with
    ⟨hSound, hFewer⟩
  refine ⟨hSound, fun other hMarked => ?_, ?_⟩
  · by_cases hLater : other ∈ later.waiting
    · exact .inr hLater
    · rcases hExtends.looked other hMarked hLater with
        ⟨hBefore, hNotRest⟩
      rcases hReached.placed other hBefore with hLooked | hOnList
      · exact .inl (List.mem_append_left _ hLooked)
      · rw [hWaiting, List.mem_cons] at hOnList
        rcases hOnList with rfl | hRest
        · exact .inl (List.mem_append_right _ List.mem_cons_self)
        · exact absurd hRest hNotRest
  · have hMeasure := hReached.measure
    rw [List.length_append, List.length_singleton]
    omega

/- Any number of passes from the node that is asked for. -/
theorem Passes.reached
    (hInside : id < plan.size)
    (hPasses : Passes plan memo (single plan.size id) looked w) :
    Reached plan memo id looked w := by
  induction hPasses with
  | start => exact reached_single hInside
  | pass _ hWaiting hOperation hPut ih =>
      exact ih.pass hWaiting hOperation hPut

/- The loop stops after at most one pass for each node. -/
theorem exists_stops
    (memo : Memo R)
    (hInside : id < plan.size) :
    ∃ looked w result, Passes plan memo (single plan.size id) looked w ∧
      Stops plan memo w result := by
  rcases exists_passes plan memo (single plan.size id) (plan.size + 1) with
    ⟨looked, w, hPasses, hLength | ⟨result, hStops⟩⟩
  · have hMeasure := (hPasses.reached hInside).measure
    omega
  · exact ⟨looked, w, result, hPasses, hStops⟩

/- What the loop stops with decides the nodes to compute. -/
theorem Passes.pending_eq
    {result : Except (Fault R) Worklist}
    (hInside : id < plan.size)
    (hPasses : Passes plan memo (single plan.size id) looked w)
    (hStops : Stops plan memo w result) :
    plan.pending memo id = result.map nodes := by
  have hMeasure := (hPasses.reached hInside).measure
  have hLeft : plan.size - looked.length + looked.length = plan.size := by
    omega
  have hExhaust := hPasses.exhaust_eq (plan.size - looked.length)
  rw [hLeft, hStops.exhaust_eq] at hExhaust
  · rw [Plan.pending, hExhaust]
    cases result <;> rfl
  · intro hWaiting
    have hSome := List.length_pos_of_ne_nil hWaiting
    omega

/-
  The loop that looks for the nodes behind a node ends: its
  marks are those of the nodes of the plan, every node that
  waits is one of them, there is at most one pass for each,
  and what it stops with decides the nodes to compute, which
  are the nodes that it looked at.
-/
structure Drains
    (plan : Plan R)
    (memo : Memo R)
    (id : NodeId) : Prop where
  inside : ∀ looked w, Passes plan memo (single plan.size id) looked w →
    w.marked.size = plan.size ∧
      (∀ node ∈ w.waiting, node < plan.size) ∧
        looked.length ≤ plan.size
  stops : ∃ looked w result,
    Passes plan memo (single plan.size id) looked w ∧
      Stops plan memo w result
  pending : ∀ looked w result,
    Passes plan memo (single plan.size id) looked w →
      Stops plan memo w result →
        plan.pending memo id = result.map nodes ∧
          ∀ last, result = .ok last → looked.Perm last.nodes

theorem drains
    (memo : Memo R)
    (hInside : id < plan.size) :
    Drains plan memo id where
  inside looked w hPasses := by
    have hReached := hPasses.reached hInside
    have hMeasure := hReached.measure
    exact ⟨hReached.size_eq, hReached.waiting_lt, by omega⟩
  stops := exists_stops memo hInside
  pending looked w result hPasses hStops := by
    refine ⟨hPasses.pending_eq hInside hStops, ?_⟩
    rintro last rfl
    cases hStops with
    | done hWaiting =>
        exact (hPasses.reached hInside).perm_nodes hWaiting

end Worklist

end QuantumLab

------------------------------------------------------------
-- Faults of the loop
------------------------------------------------------------

namespace QuantumLab

variable {R : Type}

namespace Plan

variable
  {plan : Plan R}
  {memo : Memo R}
  {id : NodeId}

/- The fault of the loop names a node that is used and not kept. -/
theorem Forward.names
    {fault : Fault R}
    (hForward : plan.Forward memo id fault)
    (hUnkept : memo.find? id = none) :
    fault.kind = .execution ∧ ∃ node, fault.node = some node ∧
      plan.Uses id node ∧ memo.find? node = none ∧
        plan.IsForward node := by
  cases hForward with
  | operand hNeeds hOperation hOperand hLater =>
      exact ⟨rfl, _, rfl, hNeeds.uses, hNeeds.unkept hUnkept,
        _, hOperation, _, hOperand, hLater⟩

end Plan

end QuantumLab

------------------------------------------------------------
-- Computation of the nodes found
------------------------------------------------------------

namespace QuantumLab

variable {R : Type} [Arithmetic R]

namespace Plan

variable
  {plan : Plan R}
  {memo later : Memo R}
  {id node : NodeId}

/- When the first of some nodes are computed, the others can be. -/
theorem Ready.after
    {before rest : List NodeId}
    (hReady : plan.Ready memo (before ++ rest))
    (hSize : memo.values.size = plan.size)
    (hComputes : plan.ComputesAll memo before later) :
    plan.Ready later rest := by
  induction before generalizing memo with
  | nil => exact computesAll_nil_iff.1 hComputes ▸ hReady
  | cons node before ih =>
      rcases computesAll_cons_iff.1 hComputes with
        ⟨operation, value, hOperation, hValue, hRest⟩
      have hInside : node < memo.values.size :=
        hSize ▸ lt_size_of_operation hOperation
      refine ih (hReady.tail hInside) ?_ hRest
      simpa [Memo.store] using hSize

/-
  What a node is computed from: its operands are kept, and
  evaluating them again returns what is kept, so that the
  computation is the same with these evaluations.
-/
structure Recalls
    (plan : Plan R)
    (memo : Memo R)
    (node : NodeId)
    (operation : Operation R) : Prop where
  kept : ∀ operand ∈ operation.operands, ∃ value,
    memo.find? operand = some value ∧
      (plan.evaluate operand).run memo = (.ok value, memo)
  compute_eq :
    operation.compute
        (fun operand => ((plan.evaluate operand).run memo).1) node =
      operation.compute memo.fetch node

theorem Ready.recalls
    {after : List NodeId}
    {operation : Operation R}
    (hReady : plan.Ready memo (node :: after))
    (hOperation : plan.operation? node = some operation) :
    plan.Recalls memo node operation := by
  have hKept : ∀ operand ∈ operation.operands, ∃ value,
      memo.find? operand = some value ∧
        (plan.evaluate operand).run memo = (.ok value, memo) := by
    intro operand hOperand
    rcases hReady.operands hOperation operand hOperand with
      ⟨hBackward, value, hFound⟩
    have hInside : operand < plan.size :=
      hBackward.trans (lt_size_of_operation hOperation)
    exact ⟨value, hFound, run_evaluate_of_kept hInside hFound⟩
  refine ⟨hKept, Operation.compute_congr fun operand hOperand => ?_⟩
  rcases hKept operand hOperand with ⟨value, hFound, hRun⟩
  rw [hRun, Memo.fetch_eq_ok hFound]

/-
  The nodes that an evaluation computes: those in use that
  are not kept, each once and in ascending order.  They are
  computed one after another, and each of them from operands
  that are kept by then.
-/
structure Collects
    (plan : Plan R)
    (memo : Memo R)
    (id : NodeId)
    (nodes : List NodeId) : Prop where
  ascending : nodes.Pairwise (· < ·)
  mem_iff : ∀ node, node ∈ nodes ↔
    plan.Uses id node ∧ memo.find? node = none
  run_eq : (plan.evaluate id).run memo =
    match (nodes.forM plan.computeNode).run memo with
    | (.ok _, later) => (later.fetch id, later)
    | (.error fault, later) => (.error fault, later)
  recalls : ∀ before node after later operation,
    nodes = before ++ node :: after →
    plan.ComputesAll memo before later →
    plan.operation? node = some operation →
      plan.Recalls later node operation

theorem collects_of_pending
    {nodes : List NodeId}
    (hSize : memo.values.size = plan.size)
    (hSupported : memo.Supported plan)
    (hInside : id < plan.size)
    (hUnkept : memo.find? id = none)
    (hPending : plan.pending memo id = .ok nodes) :
    plan.Collects memo id nodes := by
  have hSchedule := schedule_of_pending hInside hPending
  refine ⟨hSchedule.ascending,
    fun node => hSchedule.mem_iff hSupported hUnkept,
    run_evaluate_of_pending hInside hUnkept hPending, ?_⟩
  rintro before node after later operation rfl hComputes hOperation
  have hReady := (hSchedule.ready hUnkept).after hSize hComputes
  exact hReady.recalls hOperation

/-
  The loop that looks for the nodes to compute ends.  It
  finds the nodes in use that are not kept, unless one of
  them has an operand that does not come before it: then it
  fails at such a node, and what is kept stays as it is.
-/
theorem worklist_collects_uncached
    (hSize : memo.values.size = plan.size)
    (hSupported : memo.Supported plan)
    (hInside : id < plan.size)
    (hUnkept : memo.find? id = none) :
    Worklist.Drains plan memo id ∧
    ((∀ node, plan.Uses id node → memo.find? node = none →
        ¬ plan.IsForward node) →
      ∃ nodes, plan.pending memo id = .ok nodes ∧
        plan.Collects memo id nodes) ∧
    ((∃ node, plan.Uses id node ∧ memo.find? node = none ∧
        plan.IsForward node) →
      ∃ fault node, plan.pending memo id = .error fault ∧
        fault.kind = .execution ∧ fault.node = some node ∧
        plan.Uses id node ∧ memo.find? node = none ∧
        plan.IsForward node ∧
        (plan.evaluate id).run memo = (.error fault, memo)) := by
  refine ⟨Worklist.drains memo hInside, fun hBackward => ?_, ?_⟩
  · cases hPending : plan.pending memo id with
    | error fault =>
        rcases (forward_of_pending hInside hPending).names hUnkept with
          ⟨_, node, _, hUses, hNone, hForward⟩
        exact absurd hForward (hBackward node hUses hNone)
    | ok nodes =>
        exact ⟨nodes, rfl, collects_of_pending hSize hSupported hInside
          hUnkept hPending⟩
  · rintro ⟨node, hUses, hNone, hForward⟩
    cases hPending : plan.pending memo id with
    | ok nodes =>
        have hSchedule := schedule_of_pending hInside hPending
        have hMember :=
          (hSchedule.mem_iff hSupported hUnkept).2 ⟨hUses, hNone⟩
        exact absurd hForward (hSchedule.not_isForward hMember)
    | error fault =>
        rcases (forward_of_pending hInside hPending).names hUnkept with
          ⟨hKind, blamed, hNode, hUsed, hFresh, hBlamed⟩
        exact ⟨fault, blamed, rfl, hKind, hNode, hUsed, hFresh, hBlamed,
          run_evaluate_of_fault hInside hUnkept hPending⟩

/- A sum of a node that comes after it. -/
def sumOfLater : Plan Float where
  nodes := #[.matrixAdd 1 1, .loadMatrix "identity" (Mat.identity 2)]
  experiments := []

/- The values kept when the scalar of a product is computed only. -/
def scalarKept : Memo Float :=
  ⟨#[some (.scalar ⟨0.5, 0⟩), none, none], 1⟩

/-
  The other factor and the product are found when the scalar
  is kept, and the sum fails.
-/
theorem worklist_collects_uncached_instances :
    (∃ nodes, scalarTimesMatrix.pending scalarKept 2 = .ok nodes ∧
      nodes.Pairwise (· < ·) ∧
      ∀ node, node ∈ nodes ↔
        scalarTimesMatrix.Uses 2 node ∧ scalarKept.find? node = none) ∧
    ∃ fault, (sumOfLater.evaluate 0).run (.initial sumOfLater) =
      (.error fault, .initial sumOfLater) := by
  have hSupported : scalarKept.Supported scalarTimesMatrix := by
    rintro (_ | _ | _ | node) operation hKept hOperation operand hOperand
    · cases hOperation
      cases hOperand
    · cases hKept
    · cases hKept
    · cases hKept
  have hBackward : ∀ node, ¬ scalarTimesMatrix.IsForward node := by
    rintro (_ | _ | _ | node)
      ⟨operation, hOperation, operand, hOperand, hLater⟩
    · cases hOperation
      cases hOperand
    · cases hOperation
      cases hOperand
    · cases hOperation
      rcases List.mem_pair.1 hOperand with rfl | rfl
      · exact absurd hLater (by decide)
      · exact absurd hLater (by decide)
    · cases hOperation
  have hForward : sumOfLater.IsForward 0 :=
    ⟨_, rfl, 1, List.mem_cons_self, Nat.zero_le 1⟩
  rcases @worklist_collects_uncached Float _ scalarTimesMatrix scalarKept 2
      rfl hSupported (by decide) rfl with
    ⟨_, hFound, _⟩
  rcases @worklist_collects_uncached Float _ sumOfLater
      (.initial sumOfLater) 0 rfl
      (fun node _ hKept => by simp at hKept) (by decide) rfl with
    ⟨_, _, hFails⟩
  rcases hFound fun node _ _ => hBackward node with
    ⟨nodes, hPending, hCollects⟩
  rcases hFails ⟨0, .self, rfl, hForward⟩ with
    ⟨fault, _, _, _, _, _, _, _, hRun⟩
  exact ⟨⟨nodes, hPending, hCollects.ascending, hCollects.mem_iff⟩,
    fault, hRun⟩

end Plan

end QuantumLab
