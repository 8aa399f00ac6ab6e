import Mathlib.Data.Finset.Card
import Mathlib.Data.Finset.Range
import QuantumLab.Proofs.Execution.Pruning
import QuantumLab.Proofs.Execution.Session

/-
  This file says that keeping values makes no difference:
  whatever was computed before, a node evaluates to its
  value by plain recursion, or fails as it does when nothing
  was computed before.

  Key definitions include:
    * `Memo.Valid`
    * `Plan.Failure`
    * `Plan.answer`
    * `Plan.FirstFault`
    * `Plan.Reachable`
    * `Plan.EvaluatesTo`

  Main statements:
    * `Plan.ends_answer` says with which values and faults
      the evaluation of a node ends.
    * `Plan.evaluate_spec` says that the evaluation of a node
      ends with its answer, whatever was kept.
    * `Plan.settles_runExperiment` says that the outcomes of
      an experiment do not depend on what was kept.
    * `Plan.evaluatesTo_iff` says that the value to which a
      node evaluates in every state is its plain value.
-/

------------------------------------------------------------
-- Values kept
------------------------------------------------------------

namespace QuantumLab

variable {R : Type} [Arithmetic R]

namespace Memo

/- The nodes of a plan that have kept values. -/
def kept (plan : Plan R) (memo : Memo R) : Finset NodeId :=
  (Finset.range plan.size).filter fun id =>
    (memo.find? id).isSome = true

/-
  The values kept are those of the nodes of a plan, together
  with the values of their operands, and they are counted.
-/
structure Valid (plan : Plan R) (memo : Memo R) : Prop where
  size_eq : memo.values.size = plan.size
  value : ∀ id v, memo.find? id = some v → plan.denote id = .ok v
  closed : memo.Closed plan
  counted : memo.computed = (memo.kept plan).card

omit [Arithmetic R] in
theorem find?_store
    {memo : Memo R}
    {id : NodeId}
    (hInside : id < memo.values.size)
    (value : Value R)
    (other : NodeId) :
    (memo.store id value).find? other =
      if other = id then some value else memo.find? other := by
  by_cases hSame : other = id
  · subst hSame
    simp [store, find?, hInside]
  · have hDifferent : id ≠ other := fun h => hSame h.symm
    simp [store, find?, hSame,
      Array.getElem?_setIfInBounds_ne hDifferent]

omit [Arithmetic R] in
theorem fetch_eq_ok
    {memo : Memo R}
    {id : NodeId}
    {value : Value R}
    (hKept : memo.find? id = some value) :
    memo.fetch id = .ok value := by
  rw [fetch, hKept]

omit [Arithmetic R] in
/- One node more has a value after it is kept. -/
theorem kept_store
    {plan : Plan R}
    {memo : Memo R}
    {id : NodeId}
    (hSize : memo.values.size = plan.size)
    (hInside : id < plan.size)
    (value : Value R) :
    (memo.store id value).kept plan = insert id (memo.kept plan) := by
  ext other
  simp only [kept, Finset.mem_filter, Finset.mem_range,
    Finset.mem_insert, find?_store (hSize ▸ hInside)]
  by_cases hSame : other = id
  · simp [hSame, hInside]
  · simp [hSame]

theorem valid_initial (plan : Plan R) : (initial plan).Valid plan where
  size_eq := by simp [initial]
  value id v hKept := by simp at hKept
  closed id operation hKept := by simp at hKept
  counted := by
    have hNothing : (initial plan).kept plan = ∅ := by simp [kept]
    rw [hNothing]
    rfl

/- The value of a node may be kept after those of its operands. -/
theorem Valid.store
    {plan : Plan R}
    {memo : Memo R}
    {id : NodeId}
    {value : Value R}
    {operation : Operation R}
    (hValid : memo.Valid plan)
    (hUnkept : memo.find? id = none)
    (hValue : plan.denote id = .ok value)
    (hOperation : plan.operation? id = some operation)
    (hOperands : ∀ operand ∈ operation.operands,
      operand < id ∧ ∃ used, memo.find? operand = some used) :
    (memo.store id value).Valid plan := by
  have hInPlan : id < plan.size := Plan.lt_size_of_denote hValue
  have hInside : id < memo.values.size := hValid.size_eq ▸ hInPlan
  constructor
  · simp [Memo.store, hValid.size_eq]
  · intro other v hKept
    rw [find?_store hInside] at hKept
    by_cases hSame : other = id
    · rw [if_pos hSame] at hKept
      cases hKept
      rw [hSame, hValue]
    · rw [if_neg hSame] at hKept
      exact hValid.value other v hKept
  · intro other operation' hKept hOperation' operand hOperand
    rw [find?_store hInside] at hKept ⊢
    by_cases hSame : other = id
    · rw [hSame, hOperation] at hOperation'
      cases hOperation'
      rcases hOperands operand hOperand with ⟨hBackward, used, hUsed⟩
      rw [hSame, if_neg (Nat.ne_of_lt hBackward), hUsed]
      exact ⟨hBackward, rfl⟩
    · rw [if_neg hSame] at hKept
      rcases hValid.closed other operation' hKept hOperation'
          operand hOperand with
        ⟨hBackward, hSome⟩
      refine ⟨hBackward, ?_⟩
      split
      · rfl
      · exact hSome
  · have hNew : id ∉ memo.kept plan := by simp [kept, hUnkept]
    rw [kept_store hValid.size_eq hInPlan,
      Finset.card_insert_of_notMem hNew, ← hValid.counted]
    rfl

end Memo

end QuantumLab

------------------------------------------------------------
-- Failures
------------------------------------------------------------

namespace QuantumLab

variable {R : Type} [Arithmetic R]

namespace Plan

/-
  The faults with which the evaluation of a node can end: no
  such node, an operand that does not come before its user,
  or an operation that fails on the values of its operands.
-/
inductive Failure (plan : Plan R) (id : NodeId) : Fault R → Prop
  | missing :
      plan.size ≤ id →
      plan.Failure id ⟨.missingNode id, some id⟩
  | forward
      {node operand : NodeId}
      {operation : Operation R} :
      plan.Uses id node →
      plan.operation? node = some operation →
      operand ∈ operation.operands →
      node ≤ operand →
      plan.Failure id
        ⟨.unallocatedOperand operation.word node operand, some node⟩
  | compute
      {node : NodeId}
      {operation : Operation R}
      {fault : Fault R} :
      plan.Uses id node →
      plan.operation? node = some operation →
      (∀ operand ∈ operation.operands,
        operand < node ∧ ∃ used, plan.denote operand = .ok used) →
      operation.compute plan.denote node = .error fault →
      plan.Failure id (fault.atNode node)

omit [Arithmetic R] in
theorem Forward.uses
    {plan : Plan R}
    {memo : Memo R}
    {id : NodeId}
    {fault : Fault R}
    (hForward : plan.Forward memo id fault) :
    ∃ node operand operation,
      plan.Uses id node ∧
        plan.operation? node = some operation ∧
          operand ∈ operation.operands ∧ node ≤ operand ∧
            fault = ⟨.unallocatedOperand operation.word node operand,
              some node⟩ := by
  cases hForward with
  | operand hNeeds hOperation hOperand hLater =>
      exact ⟨_, _, _, hNeeds.uses, hOperation, hOperand, hLater, rfl⟩

/- A node with a value does not fail. -/
theorem Failure.denote_ne_ok
    {plan : Plan R}
    {id : NodeId}
    {fault : Fault R}
    {value : Value R}
    (hFailure : plan.Failure id fault)
    (hValue : plan.denote id = .ok value) :
    False := by
  cases hFailure with
  | missing hOutside =>
      exact absurd (lt_size_of_denote hValue) (Nat.not_lt.2 hOutside)
  | forward hUses hOperation hOperand hLater =>
      rcases hUses.exists_denote hValue with ⟨used, hUsed⟩
      have hBackward :=
        (operands_of_denote hUsed hOperation _ hOperand).1
      exact absurd hBackward (Nat.not_lt.2 hLater)
  | compute hUses hOperation hOperands hFault =>
      rcases hUses.exists_denote hValue with ⟨used, hUsed⟩
      rw [denote_eq_compute hOperation
        fun operand hOperand => (hOperands operand hOperand).1,
        hFault] at hUsed
      cases hUsed

end Plan

end QuantumLab

------------------------------------------------------------
-- Answers
------------------------------------------------------------

namespace QuantumLab

variable {R : Type} [Arithmetic R]

namespace Plan

/- The fault of a node on the plain values of its operands, if any. -/
def attempt (plan : Plan R) (node : NodeId) : Except (Fault R) Unit :=
  match plan.operation? node with
  | none => .error ⟨.missingNode node, some node⟩
  | some operation =>
      match operation.compute plan.denote node with
      | .ok _ => .ok ()
      | .error fault => .error (fault.atNode node)

/-
  What the evaluation of a node ends with, in terms of plain
  values alone: the first fault of the nodes that it needs,
  or its value.
-/
def answer
    (plan : Plan R)
    (id : NodeId) : Except (Fault R) (Value R) :=
  if plan.size ≤ id then
    .error ⟨.missingNode id, some id⟩
  else do
    let nodes ← plan.pending (.initial plan) id
    nodes.forM plan.attempt
    plan.denote id

variable {plan : Plan R} {id node : NodeId}

theorem attempt_of_operation
    {operation : Operation R}
    (hOperation : plan.operation? node = some operation) :
    plan.attempt node =
      match operation.compute plan.denote node with
      | .ok _ => .ok ()
      | .error fault => .error (fault.atNode node) := by
  rw [attempt, hOperation]

theorem attempt_of_denote
    {value : Value R}
    (hValue : plan.denote node = .ok value) :
    plan.attempt node = .ok () := by
  rcases denote_eq_ok_iff.1 hValue with
    ⟨operation, hOperation, _, hComputed⟩
  rw [attempt_of_operation hOperation, hComputed]

/- The scheduled nodes that do not fail have values. -/
theorem Schedule.exists_denote
    {memo : Memo R}
    {nodes : List NodeId}
    (hSchedule : plan.Schedule memo id nodes)
    (hNode : node ∈ nodes)
    (hAttempt : plan.attempt node = .ok ()) :
    ∃ value, plan.denote node = .ok value := by
  rcases exists_operation (hSchedule.inside node hNode) with
    ⟨operation, hOperation⟩
  rw [attempt_of_operation hOperation] at hAttempt
  cases hResult : operation.compute plan.denote node with
  | error fault => simp [hResult] at hAttempt
  | ok value =>
      refine ⟨value, denote_eq_ok_iff.2
        ⟨operation, hOperation, fun operand hOperand => ?_, hResult⟩⟩
      exact (hSchedule.closed node hNode operation hOperation
        operand hOperand).1

omit [Arithmetic R] in
/- What ascends has no smaller members after a member. -/
theorem mem_before_or_le
    {before after : List NodeId}
    {other : NodeId}
    (hAscending : (before ++ node :: after).Pairwise (· < ·))
    (hMember : other ∈ before ++ node :: after) :
    other ∈ before ∨ node ≤ other := by
  rw [List.mem_append, List.mem_cons] at hMember
  rcases hMember with hBefore | rfl | hAfter
  · exact .inl hBefore
  · exact .inr (Nat.le_refl other)
  · have hTail := (List.pairwise_append.1 hAscending).2.1
    exact .inr (Nat.le_of_lt
      ((List.pairwise_cons.1 hTail).1 other hAfter))

/-
  The first scheduled node that fails does so on operands
  with values, because these come before it.
-/
theorem Schedule.failure
    {nodes before after : List NodeId}
    {fault : Fault R}
    (hSchedule : plan.Schedule (.initial plan) id nodes)
    (hNodes : nodes = before ++ node :: after)
    (hBefore : ∀ other ∈ before, plan.attempt other = .ok ())
    (hFails : plan.attempt node = .error fault) :
    ∃ operation fault', plan.operation? node = some operation ∧
      (∀ operand ∈ operation.operands,
        operand < node ∧ ∃ used, plan.denote operand = .ok used) ∧
      operation.compute plan.denote node = .error fault' ∧
      fault = fault'.atNode node := by
  have hNode : node ∈ nodes := by simp [hNodes]
  rcases exists_operation (hSchedule.inside node hNode) with
    ⟨operation, hOperation⟩
  have hOperands : ∀ operand ∈ operation.operands,
      operand < node ∧ ∃ used, plan.denote operand = .ok used := by
    intro operand hOperand
    rcases hSchedule.closed node hNode operation hOperation
        operand hOperand with
      ⟨hBackward, hKept | hMember⟩
    · simp at hKept
    · refine ⟨hBackward, hSchedule.exists_denote hMember
        (hBefore operand ?_)⟩
      rcases mem_before_or_le (hNodes ▸ hSchedule.ascending)
          (hNodes ▸ hMember) with
        hEarlier | hLater
      · exact hEarlier
      · exact absurd hBackward (Nat.not_lt.2 hLater)
  rw [attempt_of_operation hOperation] at hFails
  cases hResult : operation.compute plan.denote node with
  | ok value => simp [hResult] at hFails
  | error fault' =>
      rw [hResult] at hFails
      cases hFails
      exact ⟨operation, fault', hOperation, hOperands, hResult, rfl⟩

/-
  The first fault of the nodes that a node needs: an operand
  that does not come before its user, or else the fault of
  the first scheduled node that fails.
-/
inductive FirstFault (plan : Plan R) (id : NodeId) : Fault R → Prop
  | forward
      {fault : Fault R} :
      plan.Forward (.initial plan) id fault →
      plan.FirstFault id fault
  | attempt
      {node : NodeId}
      {nodes before after : List NodeId}
      {fault : Fault R} :
      plan.Schedule (.initial plan) id nodes →
      nodes = before ++ node :: after →
      (∀ other ∈ before, plan.attempt other = .ok ()) →
      plan.attempt node = .error fault →
      plan.FirstFault id fault

/- An answer is the plain value of the node, or the first fault. -/
theorem ends_answer_of_inside
    (hInside : id < plan.size) :
    Ends (fun value => plan.denote id = .ok value)
      (plan.FirstFault id)
      (plan.answer id) := by
  rw [answer, if_neg (Nat.not_le.2 hInside)]
  cases hPending : plan.pending (.initial plan) id with
  | error fault => exact .forward (forward_of_pending hInside hPending)
  | ok nodes =>
      have hSchedule := schedule_of_pending hInside hPending
      rw [ok_bind]
      cases hAttempts : nodes.forM plan.attempt with
      | ok _ =>
          have hRoot := forM_eq_ok_iff.1 hAttempts id hSchedule.root
          rcases hSchedule.exists_denote hSchedule.root hRoot with
            ⟨value, hValue⟩
          exact Ends.of_ok hValue hValue
      | error fault =>
          rcases forM_eq_error_iff.1 hAttempts with
            ⟨before, node, after, hNodes, hBefore, hFails⟩
          exact .attempt hSchedule hNodes hBefore hFails

/- The first fault is a failure. -/
theorem FirstFault.failure
    {fault : Fault R}
    (hFirst : plan.FirstFault id fault) :
    plan.Failure id fault := by
  cases hFirst with
  | forward hForward =>
      rcases hForward.uses with
        ⟨node, operand, operation, hUses, hOperation, hOperand,
          hLater, hFault⟩
      exact hFault ▸ .forward hUses hOperation hOperand hLater
  | @attempt node nodes before after _ hSchedule hNodes hBefore hFails =>
      have hNode : node ∈ nodes := by simp [hNodes]
      rcases hSchedule.failure hNodes hBefore hFails with
        ⟨operation, fault', hOperation, hOperands, hResult, rfl⟩
      exact .compute (hSchedule.needed node hNode).uses
        hOperation hOperands hResult

/- An answer is the plain value of the node, or a failure. -/
theorem ends_answer
    (plan : Plan R)
    (id : NodeId) :
    Ends (fun value => plan.denote id = .ok value)
      (plan.Failure id)
      (plan.answer id) := by
  by_cases hOutside : plan.size ≤ id
  · rw [answer, if_pos hOutside]
    exact .missing hOutside
  · exact (ends_answer_of_inside (Nat.lt_of_not_le hOutside)).imp_error
      fun _ hFirst => hFirst.failure

/- A node with a value has it for an answer. -/
theorem answer_of_denote
    {value : Value R}
    (hValue : plan.denote id = .ok value) :
    plan.answer id = .ok value := by
  have hEnds := plan.ends_answer id
  cases hAnswer : plan.answer id with
  | error fault =>
      rw [hAnswer] at hEnds
      exact (hEnds.denote_ne_ok hValue).elim
  | ok other =>
      rw [hAnswer] at hEnds
      rw [← hValue, ← (show plan.denote id = .ok other from hEnds)]

end Plan

end QuantumLab

------------------------------------------------------------
-- Evaluation
------------------------------------------------------------

namespace QuantumLab

variable {R : Type} [Arithmetic R]

namespace Plan

theorem run_computeNode
    {plan : Plan R}
    {id : NodeId}
    {operation : Operation R}
    (hOperation : plan.operation? id = some operation)
    (memo : Memo R) :
    (plan.computeNode id).run memo =
      match operation.compute memo.fetch id with
      | .ok value => (.ok (), memo.store id value)
      | .error fault => (.error (fault.atNode id), memo) := by
  simp only [computeNode, Session.run_bind, Session.run_get,
    hOperation]
  cases hResult : operation.compute memo.fetch id with
  | ok value => exact Session.run_set _ _
  | error fault => exact Session.run_fail _ _

/- A node that is not there has no value. -/
theorem run_evaluate_of_missing
    {plan : Plan R}
    {id : NodeId}
    (hOutside : plan.size ≤ id)
    (memo : Memo R) :
    (plan.evaluate id).run memo =
      (.error ⟨.missingNode id, some id⟩, memo) := by
  unfold evaluate
  rw [if_pos hOutside]
  rfl

section Inside

variable
  {plan : Plan R}
  {memo : Memo R}
  {id : NodeId}
  (hInside : id < plan.size)

include hInside

/- A kept value is returned as it is. -/
theorem run_evaluate_of_kept
    {value : Value R}
    (hKept : memo.find? id = some value) :
    (plan.evaluate id).run memo = (.ok value, memo) := by
  unfold evaluate
  rw [if_neg (Nat.not_le.2 hInside)]
  simp only [Session.run_bind, Session.run_get, hKept]
  rfl

/- Where no nodes are found to compute, nothing is computed. -/
theorem run_evaluate_of_fault
    {fault : Fault R}
    (hUnkept : memo.find? id = none)
    (hPending : plan.pending memo id = .error fault) :
    (plan.evaluate id).run memo = (.error fault, memo) := by
  unfold evaluate
  rw [if_neg (Nat.not_le.2 hInside)]
  simp only [Session.run_bind, Session.run_get, hUnkept, hPending,
    Session.run_lift]

/- Otherwise the nodes found are computed in order. -/
theorem run_evaluate_of_pending
    {nodes : List NodeId}
    (hUnkept : memo.find? id = none)
    (hPending : plan.pending memo id = .ok nodes) :
    (plan.evaluate id).run memo =
      match (nodes.forM plan.computeNode).run memo with
      | (.ok _, later) => (later.fetch id, later)
      | (.error fault, later) => (.error fault, later) := by
  unfold evaluate
  rw [if_neg (Nat.not_le.2 hInside)]
  simp only [Session.run_bind, Session.run_get, hUnkept, hPending,
    Session.run_lift]
  rcases (nodes.forM plan.computeNode).run memo with ⟨_ | _, later⟩ <;> rfl

end Inside

/- Nodes that can be computed one after another. -/
structure Ready
    (plan : Plan R)
    (memo : Memo R)
    (nodes : List NodeId) : Prop where
  ascending : nodes.Pairwise (· < ·)
  inside : ∀ node ∈ nodes, node < plan.size
  unkept : ∀ node ∈ nodes, memo.find? node = none
  closed : ∀ node ∈ nodes, ∀ operation,
    plan.operation? node = some operation →
      ∀ operand ∈ operation.operands,
        operand < node ∧
          ((memo.find? operand).isSome = true ∨ operand ∈ nodes)

omit [Arithmetic R] in
theorem Schedule.ready
    {plan : Plan R}
    {memo : Memo R}
    {id : NodeId}
    {nodes : List NodeId}
    (hSchedule : plan.Schedule memo id nodes)
    (hUnkept : memo.find? id = none) :
    plan.Ready memo nodes where
  ascending := hSchedule.ascending
  inside := hSchedule.inside
  unkept node hNode := (hSchedule.needed node hNode).unkept hUnkept
  closed := hSchedule.closed

omit [Arithmetic R] in
/- The operands of the first node are computed. -/
theorem Ready.operands
    {plan : Plan R}
    {memo : Memo R}
    {node : NodeId}
    {rest : List NodeId}
    {operation : Operation R}
    (hReady : plan.Ready memo (node :: rest))
    (hOperation : plan.operation? node = some operation) :
    ∀ operand ∈ operation.operands,
      operand < node ∧ ∃ used, memo.find? operand = some used := by
  intro operand hOperand
  rcases hReady.closed node List.mem_cons_self operation hOperation
      operand hOperand with
    ⟨hBackward, hComputed | hLater⟩
  · exact ⟨hBackward, Option.isSome_iff_exists.1 hComputed⟩
  · have hAfter : node ≤ operand := by
      rcases List.mem_cons.1 hLater with hSame | hRest
      · exact Nat.le_of_eq hSame.symm
      · exact Nat.le_of_lt
          ((List.pairwise_cons.1 hReady.ascending).1 operand hRest)
    exact absurd hBackward (Nat.not_lt.2 hAfter)

omit [Arithmetic R] in
/- When the first node is computed, the others can be. -/
theorem Ready.tail
    {plan : Plan R}
    {memo : Memo R}
    {node : NodeId}
    {rest : List NodeId}
    {value : Value R}
    (hReady : plan.Ready memo (node :: rest))
    (hInside : node < memo.values.size) :
    plan.Ready (memo.store node value) rest where
  ascending := (List.pairwise_cons.1 hReady.ascending).2
  inside other hOther :=
    hReady.inside other (List.mem_cons_of_mem node hOther)
  unkept other hOther := by
    have hAfter : node < other :=
      (List.pairwise_cons.1 hReady.ascending).1 other hOther
    rw [Memo.find?_store hInside, if_neg (Nat.ne_of_gt hAfter)]
    exact hReady.unkept other (List.mem_cons_of_mem node hOther)
  closed other hOther operation hOperation operand hOperand := by
    rcases hReady.closed other (List.mem_cons_of_mem node hOther)
        operation hOperation operand hOperand with
      ⟨hBackward, hComputed⟩
    refine ⟨hBackward, ?_⟩
    rw [Memo.find?_store hInside]
    by_cases hSame : operand = node
    · rw [if_pos hSame]
      exact .inl rfl
    · rw [if_neg hSame]
      exact hComputed.imp_right fun hLater => by
        simpa [hSame] using hLater

/-
  Nodes in order are all computed, up to the first that
  fails on the plain values of its operands.
-/
theorem computeNodes_spec
    {plan : Plan R}
    {memo : Memo R}
    {nodes : List NodeId}
    (hValid : memo.Valid plan)
    (hReady : plan.Ready memo nodes) :
    ((nodes.forM plan.computeNode).run memo).2.Valid plan ∧
      ((nodes.forM plan.computeNode).run memo).1 =
        nodes.forM plan.attempt ∧
      (nodes.forM plan.attempt = .ok () → ∀ node,
        (memo.find? node).isSome = true ∨ node ∈ nodes →
          (((nodes.forM plan.computeNode).run memo).2.find?
            node).isSome = true) := by
  induction nodes generalizing memo with
  | nil => exact ⟨hValid, rfl, fun _ node hNode => by simpa using hNode⟩
  | cons node rest ih =>
      have hInside := hReady.inside node List.mem_cons_self
      rcases exists_operation hInside with ⟨operation, hOperation⟩
      have hOperands := hReady.operands hOperation
      have hSame :
          operation.compute memo.fetch node =
            operation.compute plan.denote node := by
        refine Operation.compute_congr fun operand hOperand => ?_
        rcases (hOperands operand hOperand).2 with ⟨used, hUsed⟩
        rw [Memo.fetch_eq_ok hUsed, hValid.value operand used hUsed]
      change _ ∧ _ =
          (plan.attempt node >>= fun _ => rest.forM plan.attempt) ∧
        ((plan.attempt node >>= fun _ => rest.forM plan.attempt) = _ → _)
      rw [Session.run_forM_cons, Session.run_bind,
        run_computeNode hOperation, hSame,
        attempt_of_operation hOperation]
      cases hResult : operation.compute plan.denote node with
      | error fault =>
          refine ⟨hValid, rfl, fun hPasses => ?_⟩
          cases hPasses
      | ok value =>
          have hValue : plan.denote node = .ok value := by
            rw [denote_eq_compute hOperation
              fun operand hOperand => (hOperands operand hOperand).1,
              hResult]
          have hKept : node < memo.values.size :=
            hValid.size_eq ▸ hInside
          have hStored := hValid.store
            (hReady.unkept node List.mem_cons_self) hValue hOperation
            hOperands
          rcases ih hStored (hReady.tail hKept) with
            ⟨hLater, hEqual, hComputed⟩
          refine ⟨hLater, hEqual, fun hPasses other hOther => ?_⟩
          apply hComputed hPasses other
          rw [Memo.find?_store hKept]
          by_cases hFirst : other = node
          · simp [hFirst]
          · simpa [hFirst] using hOther

/-
  The evaluation of a node ends with its answer, whatever
  was kept, and keeps values of nodes.
-/
theorem evaluate_spec
    {plan : Plan R}
    {memo : Memo R}
    (hValid : memo.Valid plan)
    (id : NodeId) :
    ((plan.evaluate id).run memo).2.Valid plan ∧
      ((plan.evaluate id).run memo).1 = plan.answer id := by
  by_cases hOutside : plan.size ≤ id
  · rw [run_evaluate_of_missing hOutside, answer, if_pos hOutside]
    exact ⟨hValid, rfl⟩
  · have hInside : id < plan.size := Nat.lt_of_not_le hOutside
    cases hKept : memo.find? id with
    | some value =>
        rw [run_evaluate_of_kept hInside hKept]
        exact ⟨hValid,
          (answer_of_denote (hValid.value id value hKept)).symm⟩
    | none =>
        rw [answer, if_neg hOutside]
        have hPruned := pending_eq hValid.closed hInside hKept
        cases hPending : plan.pending (.initial plan) id with
        | error fault =>
            rw [hPending] at hPruned
            rw [run_evaluate_of_fault hInside hKept hPruned]
            exact ⟨hValid, rfl⟩
        | ok nodes =>
            rw [hPending] at hPruned
            rw [run_evaluate_of_pending hInside hKept hPruned]
            have hSchedule := schedule_of_pending hInside hPruned
            rcases computeNodes_spec hValid (hSchedule.ready hKept) with
              ⟨hLater, hEqual, hComputed⟩
            -- nodes with kept values do not fail
            have hLeftOut :
                (nodes.filter fun node => (memo.find? node).isNone).forM
                  plan.attempt = nodes.forM plan.attempt := by
              refine forM_filter fun node _ hSome => ?_
              rw [Option.isNone_eq_false_iff,
                Option.isSome_iff_exists] at hSome
              rcases hSome with ⟨value, hSome⟩
              exact attempt_of_denote (hValid.value node value hSome)
            rw [hLeftOut] at hEqual hComputed
            rcases hRun : ((nodes.filter
                fun node => (memo.find? node).isNone).forM
                  plan.computeNode).run memo with
              ⟨result, later⟩
            rw [hRun] at hLater hEqual hComputed
            simp only [ok_bind, ← hEqual]
            cases result with
            | error fault => exact ⟨hLater, rfl⟩
            | ok _ =>
                have hSome := hComputed hEqual.symm id
                  (.inr hSchedule.root)
                rcases Option.isSome_iff_exists.1 hSome with
                  ⟨value, hValue⟩
                simp only [Memo.fetch_eq_ok hValue]
                exact ⟨hLater, (hLater.value id value hValue).symm⟩

/-
  A node evaluates to its value, or fails for a reason that
  has nothing to do with what was computed before.
-/
theorem evaluate_meets
    (plan : Plan R)
    (id : NodeId) :
    Session.Meets (Memo.Valid plan)
      (fun value => plan.denote id = .ok value)
      (plan.Failure id)
      (plan.evaluate id) := by
  intro memo hValid
  rcases evaluate_spec hValid id with ⟨hLater, hAnswer⟩
  exact ⟨hLater, hAnswer ▸ plan.ends_answer id⟩

theorem settles_evaluate
    (plan : Plan R)
    (id : NodeId) :
    Session.Settles (Memo.Valid plan) (plan.evaluate id) :=
  ⟨plan.answer id, fun _ hValid => evaluate_spec hValid id⟩

end Plan

end QuantumLab

------------------------------------------------------------
-- Experiments
------------------------------------------------------------

/-
  An experiment looks at the values kept through evaluations
  alone.  It therefore keeps what each evaluation keeps.
-/

namespace QuantumLab

namespace Plan

variable
  {R : Type}
  [Arithmetic R]
  {plan : Plan R}
  {I : Memo R → Prop}

theorem settles_evaluateMatrix
    (hEvaluate : ∀ id, Session.Settles I (plan.evaluate id))
    (id : NodeId) :
    Session.Settles I (plan.evaluateMatrix id) := by
  refine (hEvaluate id).bind fun value => ?_
  cases value with
  | matrix a => exact Session.Settles.pure a
  | scalar z => exact Session.Settles.lift _
  | vector v => exact Session.Settles.lift _

theorem settles_evolve
    (hEvaluate : ∀ id, Session.Settles I (plan.evaluate id))
    (e : PlannedExperiment R)
    (evolution : PlannedEvolution R)
    (initial : Value R)
    (rho : Mat R) :
    Session.Settles I (plan.evolve e evolution initial rho) := by
  refine (settles_evaluateMatrix hEvaluate _).bind fun h => ?_
  cases evolution.method with
  | schrodinger =>
      cases initial with
      | vector ket =>
          exact (Session.Settles.lift _).bind fun _ =>
            Session.Settles.pure _
      | scalar z => exact Session.Settles.fail _
      | matrix a => exact Session.Settles.fail _
  | lindblad =>
      have hChannels : Session.Settles I
          (plan.evaluateChannels evolution.jumps) :=
        Session.Settles.mapM (fun jump =>
          (settles_evaluateMatrix hEvaluate _).bind fun _ =>
            Session.Settles.pure _) _
      refine hChannels.bind fun channels => ?_
      exact (Session.Settles.lift _).bind fun _ => Session.Settles.pure _

theorem settles_states
    (hEvaluate : ∀ id, Session.Settles I (plan.evaluate id))
    (e : PlannedExperiment R) :
    Session.Settles I (plan.states e) := by
  refine (hEvaluate _).bind fun initial => ?_
  cases densityOf? initial with
  | none => exact Session.Settles.fail _
  | some rho =>
      cases e.evolution with
      | none => exact Session.Settles.pure _
      | some evolution =>
          exact settles_evolve hEvaluate e evolution initial rho

theorem settles_measure
    (hEvaluate : ∀ id, Session.Settles I (plan.evaluate id))
    (tolerance : R)
    (times : List R)
    (states : List (Mat R))
    (m : PlannedMeasurement) :
    Session.Settles I (plan.measure tolerance times states m) := by
  refine (Session.Settles.lift _).bind fun point => ?_
  have hOperators : Session.Settles I
      (m.operators.mapM plan.evaluateMatrix) :=
    Session.Settles.mapM (settles_evaluateMatrix hEvaluate) _
  refine hOperators.bind fun operators => ?_
  split
  · exact (Session.Settles.lift _).bind fun _ => Session.Settles.pure _
  · exact (Session.Settles.lift _).bind fun _ => Session.Settles.pure _

/-
  The outcomes of an experiment do not depend on the values
  kept if those of evaluations do not.
-/
theorem settles_runExperiment
    (hEvaluate : ∀ id, Session.Settles I (plan.evaluate id))
    (tolerance : R)
    (e : PlannedExperiment R) :
    Session.Settles I (plan.runExperiment tolerance e) := by
  unfold runExperiment
  by_cases hOutside : plan.size ≤ e.initialState
  · rw [if_pos hOutside]
    exact Session.Settles.fail _
  · rw [if_neg hOutside]
    refine (settles_states hEvaluate e).bind fun trajectory => ?_
    have hOutcomes : Session.Settles I (e.measurements.mapM
        (plan.measure tolerance (timesOf e) trajectory.2)) :=
      Session.Settles.mapM (settles_measure hEvaluate tolerance _ _) _
    exact hOutcomes.bind fun _ => Session.Settles.pure _

end Plan

end QuantumLab

------------------------------------------------------------
-- Values of nodes in every state
------------------------------------------------------------

namespace QuantumLab

variable {R : Type} [Arithmetic R]

namespace Plan

/- The values that evaluations and experiments leave behind. -/
inductive Reachable (plan : Plan R) : Memo R → Prop
  | initial : plan.Reachable (.initial plan)
  | evaluate
      {memo : Memo R}
      (id : NodeId) :
      plan.Reachable memo →
      plan.Reachable ((plan.evaluate id).run memo).2
  | experiment
      {memo : Memo R}
      (tolerance : R)
      (e : PlannedExperiment R) :
      plan.Reachable memo →
      plan.Reachable ((plan.runExperiment tolerance e).run memo).2

theorem Reachable.valid
    {plan : Plan R}
    {memo : Memo R}
    (hReachable : plan.Reachable memo) :
    memo.Valid plan := by
  induction hReachable with
  | initial => exact Memo.valid_initial plan
  | evaluate id _ ih => exact (plan.settles_evaluate id).keeps ih
  | experiment tolerance e _ ih =>
      exact (settles_runExperiment plan.settles_evaluate
        tolerance e).keeps ih

/- A node has a value, whatever was computed before. -/
def EvaluatesTo
    (plan : Plan R)
    (id : NodeId)
    (value : Value R) : Prop :=
  ∀ memo, plan.Reachable memo →
    ((plan.evaluate id).run memo).1 = .ok value

/-
  The value to which a node evaluates is the one that plain
  recursion gives, and there is one if recursion gives one.
-/
theorem evaluatesTo_iff
    {plan : Plan R}
    {id : NodeId}
    {value : Value R} :
    plan.EvaluatesTo id value ↔ plan.denote id = .ok value := by
  constructor
  · intro hEvaluates
    have hRun := plan.evaluate_meets id _ (Memo.valid_initial plan)
    rw [hEvaluates _ .initial] at hRun
    exact hRun.2
  · intro hValue memo hReachable
    have hRun := plan.evaluate_meets id memo hReachable.valid
    revert hRun
    cases ((plan.evaluate id).run memo).1 with
    | ok other =>
        intro hRun
        rw [hValue] at hRun
        rw [Except.ok.inj hRun.2]
    | error fault =>
        intro hRun
        exact absurd hValue fun h => hRun.2.denote_ne_ok h

end Plan

end QuantumLab
