import QuantumLab.Proofs.Execution.Faults
import QuantumLab.Proofs.Execution.History

/-
  This file compares evaluation with plain recursion at every
  moment of an execution, and says which node a fault names.

  Key definitions include:
    * `Plan.IsForward`, `Plan.Breaks`, `Plan.Blames`
    * `Plan.Occurs`

  Main statements:
    * `Plan.blames_of_answer` says which of the nodes behind
      a node an answer blames for a fault.
    * `Plan.evaluate_refines_recursion` says that evaluation
      agrees with plain recursion, which node its faults
      name, and what is kept at every moment.
-/

------------------------------------------------------------
-- Nodes to blame
------------------------------------------------------------

namespace QuantumLab

variable {R : Type} [Arithmetic R]

namespace Plan

/- A node with an operand that does not come before it. -/
def IsForward (plan : Plan R) (node : NodeId) : Prop :=
  ∃ operation, plan.operation? node = some operation ∧
    ∃ operand ∈ operation.operands, node ≤ operand

/- A node whose operands have values, on which its operation fails. -/
def Breaks (plan : Plan R) (node : NodeId) : Prop :=
  ∃ operation fault, plan.operation? node = some operation ∧
    (∀ operand ∈ operation.operands,
      ∃ used, plan.denote operand = .ok used) ∧
    operation.compute plan.denote node = .error fault

/-
  A node that a node rests on is to blame if an operand of
  it does not come before it, or else if it is the smallest
  one that breaks.
-/
def Blames (plan : Plan R) (id node : NodeId) : Prop :=
  plan.Uses id node ∧
    (plan.IsForward node ∨
      (∀ other, plan.Uses id other → ¬ plan.IsForward other) ∧
        plan.Breaks node ∧
          ∀ other, plan.Uses id other → plan.Breaks other →
            node ≤ other)

variable {plan : Plan R} {id node : NodeId}

omit [Arithmetic R] in
/- Everything that a node rests on is computed when nothing is kept. -/
theorem Schedule.mem_of_uses
    {nodes : List NodeId}
    (hSchedule : plan.Schedule (.initial plan) id nodes)
    (hUses : plan.Uses id node) :
    node ∈ nodes := by
  have hNothing : (Memo.initial plan).Supported plan := by
    intro other operation hKept
    simp at hKept
  exact (hSchedule.mem_iff hNothing (by simp)).2 ⟨hUses, by simp⟩

omit [Arithmetic R] in
/- None of the nodes found has an operand that does not come before it. -/
theorem Schedule.not_isForward
    {memo : Memo R}
    {nodes : List NodeId}
    (hSchedule : plan.Schedule memo id nodes)
    (hMember : node ∈ nodes) :
    ¬ plan.IsForward node := by
  rintro ⟨operation, hOperation, operand, hOperand, hForward⟩
  have hBackward :=
    (hSchedule.closed node hMember operation hOperation operand hOperand).1
  exact absurd hBackward (Nat.not_lt.2 hForward)

/- A node that breaks does not pass. -/
theorem Breaks.attempt_ne_ok
    (hBreaks : plan.Breaks node) :
    plan.attempt node ≠ .ok () := by
  rcases hBreaks with ⟨operation, fault, hOperation, _, hFault⟩
  rw [attempt_of_operation hOperation, hFault]
  simp

/- The first fault names a node to blame. -/
theorem FirstFault.blames
    {fault : Fault R}
    (hFirst : plan.FirstFault id fault) :
    ∃ node, fault.node = some node ∧ plan.Blames id node := by
  cases hFirst with
  | forward hForward =>
      rcases hForward.uses with
        ⟨node, operand, operation, hUses, hOperation, hOperand,
          hLater, rfl⟩
      exact ⟨node, rfl, hUses,
        .inl ⟨operation, hOperation, operand, hOperand, hLater⟩⟩
  | @attempt node nodes before after _ hSchedule hNodes hBefore hFails =>
      have hNode : node ∈ nodes := by simp [hNodes]
      rcases hSchedule.failure hNodes hBefore hFails with
        ⟨operation, fault', hOperation, hOperands, hResult, rfl⟩
      have hValues : ∀ operand ∈ operation.operands,
          ∃ used, plan.denote operand = .ok used :=
        fun operand hOperand => (hOperands operand hOperand).2
      have hOperates :
          Operates node (operation.compute plan.denote node) :=
        Operation.operates_compute hValues
      rw [hResult] at hOperates
      refine ⟨node, hOperates.node_atNode,
        (hSchedule.needed node hNode).uses, .inr ⟨?_, ?_, ?_⟩⟩
      · intro other hUses
        exact hSchedule.not_isForward (hSchedule.mem_of_uses hUses)
      · exact ⟨operation, fault', hOperation, hValues, hResult⟩
      · intro other hUses hBreaks
        rcases mem_before_or_le (hNodes ▸ hSchedule.ascending)
            (hNodes ▸ hSchedule.mem_of_uses hUses) with
          hEarlier | hLater
        · exact absurd (hBefore other hEarlier)
            hBreaks.attempt_ne_ok
        · exact hLater

/- The fault of an answer names a node to blame. -/
theorem blames_of_answer
    {fault : Fault R}
    (hInside : id < plan.size)
    (hAnswer : plan.answer id = .error fault) :
    ∃ node, fault.node = some node ∧ plan.Blames id node := by
  have hEnds := ends_answer_of_inside hInside
  rw [hAnswer] at hEnds
  exact FirstFault.blames hEnds

end Plan

end QuantumLab

------------------------------------------------------------
-- Every moment of an execution
------------------------------------------------------------

namespace QuantumLab

variable {R : Type} [Arithmetic R]

namespace Plan

/-
  The values kept at some moment: before anything was asked
  for, or while an evaluation computes its nodes, when it is
  done with the first of them.  With no node left this is
  where the evaluation ends.
-/
inductive Occurs (plan : Plan R) : Memo R → Prop
  | initial : plan.Occurs (.initial plan)
  | computing
      {memo : Memo R}
      {id : NodeId}
      {done rest : List NodeId} :
      plan.Occurs memo →
      id < plan.size →
      memo.find? id = none →
      plan.pending memo id = .ok (done ++ rest) →
      plan.Occurs ((done.forM plan.computeNode).run memo).2

variable {plan : Plan R} {memo : Memo R}

omit [Arithmetic R] in
/- The first of some nodes can be computed without the others. -/
theorem Ready.take
    {done rest : List NodeId}
    (hReady : plan.Ready memo (done ++ rest)) :
    plan.Ready memo done where
  ascending := (List.pairwise_append.1 hReady.ascending).1
  inside node hNode :=
    hReady.inside node (List.mem_append_left rest hNode)
  unkept node hNode :=
    hReady.unkept node (List.mem_append_left rest hNode)
  closed node hNode operation hOperation operand hOperand := by
    rcases hReady.closed node (List.mem_append_left rest hNode)
        operation hOperation operand hOperand with
      ⟨hBackward, hKept | hMember⟩
    · exact ⟨hBackward, .inl hKept⟩
    · rcases List.mem_append.1 hMember with hDone | hRest
      · exact ⟨hBackward, .inr hDone⟩
      · have hAfter := (List.pairwise_append.1 hReady.ascending).2.2
          node hNode operand hRest
        exact absurd hBackward (Nat.lt_asymm hAfter)

/-
  At every moment the values of nodes are kept, with those
  of their operands.
-/
theorem Occurs.valid
    (hOccurs : plan.Occurs memo) :
    memo.Valid plan := by
  induction hOccurs with
  | initial => exact Memo.valid_initial plan
  | computing _ hInside hUnkept hPending ih =>
      have hReady :=
        (schedule_of_pending hInside hPending).ready hUnkept
      exact (computeNodes_spec ih hReady.take).1

/- An evaluation ends at a moment of its own computation. -/
theorem Occurs.evaluate
    (hOccurs : plan.Occurs memo)
    (id : NodeId) :
    plan.Occurs ((plan.evaluate id).run memo).2 := by
  by_cases hOutside : plan.size ≤ id
  · rw [run_evaluate_of_missing hOutside]
    exact hOccurs
  · have hInside : id < plan.size := Nat.lt_of_not_le hOutside
    cases hKept : memo.find? id with
    | some value =>
        rw [run_evaluate_of_kept hInside hKept]
        exact hOccurs
    | none =>
        cases hPending : plan.pending memo id with
        | error fault =>
            rw [run_evaluate_of_fault hInside hKept hPending]
            exact hOccurs
        | ok nodes =>
            rw [run_evaluate_of_pending hInside hKept hPending]
            have hAll : plan.pending memo id = .ok (nodes ++ []) := by
              rw [hPending, List.append_nil]
            have hDone := hOccurs.computing hInside hKept hAll
            rcases hRun : (nodes.forM plan.computeNode).run memo with
              ⟨result, later⟩
            rw [hRun] at hDone
            cases result with
            | ok _ => exact hDone
            | error fault => exact hDone

/- What evaluations and experiments leave behind occurs. -/
theorem Reachable.occurs
    (hReachable : plan.Reachable memo) :
    plan.Occurs memo := by
  have hSettles : ∀ id,
      Session.Settles plan.Occurs (plan.evaluate id) := fun id =>
    ⟨plan.answer id, fun _ hOccurs =>
      ⟨hOccurs.evaluate id, (evaluate_spec hOccurs.valid id).2⟩⟩
  induction hReachable with
  | initial => exact .initial
  | evaluate id _ ih => exact ih.evaluate id
  | experiment tolerance e _ ih =>
      exact (settles_runExperiment hSettles tolerance e).keeps ih

/-
  At every moment, and so after any evaluations and
  experiments, a node evaluates to a value if and only if
  plain recursion gives that value.  Otherwise the fault
  names a node to blame.  The values kept are the plain ones,
  with the operands of each node kept before it, and they
  are counted.
-/
theorem evaluate_refines_recursion
    (plan : Plan R) :
    (∀ memo, plan.Reachable memo → plan.Occurs memo) ∧
    ∀ memo, plan.Occurs memo →
      (∀ id v, ((plan.evaluate id).run memo).1 = .ok v ↔
        plan.denote id = .ok v) ∧
      (∀ id fault, id < plan.size →
        ((plan.evaluate id).run memo).1 = .error fault →
          ∃ node, fault.node = some node ∧ plan.Blames id node) ∧
      (∀ id v, memo.find? id = some v → plan.denote id = .ok v) ∧
      memo.Closed plan ∧
      memo.computed = (memo.kept plan).card := by
  refine ⟨fun memo hReachable => hReachable.occurs,
    fun memo hOccurs => ?_⟩
  have hValid := hOccurs.valid
  refine ⟨fun id v => ?_, fun id fault hInside hFault => ?_,
    hValid.value, hValid.closed, hValid.counted⟩
  · rw [(evaluate_spec hValid id).2]
    constructor
    · intro hAnswer
      have hEnds := plan.ends_answer id
      rw [hAnswer] at hEnds
      exact hEnds
    · exact answer_of_denote
  · rw [(evaluate_spec hValid id).2] at hFault
    exact blames_of_answer hInside hFault

/-
  The evaluation of a product of a scalar and a matrix, when
  only the scalar is kept yet: it will fail at the product.
-/
theorem evaluate_refines_recursion_midway :
    let memo := (([0].forM scalarTimesMatrix.computeNode).run
      (.initial scalarTimesMatrix)).2
    scalarTimesMatrix.Occurs memo ∧
    memo.computed = (memo.kept scalarTimesMatrix).card ∧
    memo.computed = 1 ∧
    (∃ fault, ((scalarTimesMatrix.evaluate 2).run memo).1 =
      .error fault) ∧
    ∀ fault, ((scalarTimesMatrix.evaluate 2).run memo).1 =
      .error fault →
        ∃ node, fault.node = some node ∧
          scalarTimesMatrix.Blames 2 node := by
  have hOccurs : scalarTimesMatrix.Occurs
      (([0].forM scalarTimesMatrix.computeNode).run
        (.initial scalarTimesMatrix)).2 := by
    have hPending : scalarTimesMatrix.pending
        (.initial scalarTimesMatrix) 2 = .ok ([0] ++ [1, 2]) :=
      rfl
    exact .computing .initial (by decide) rfl hPending
  rcases (evaluate_refines_recursion scalarTimesMatrix).2 _ hOccurs with
    ⟨_, hFaults, _, _, hCounted⟩
  refine ⟨hOccurs, hCounted, rfl, ⟨_, rfl⟩, ?_⟩
  exact fun fault hFault => hFaults 2 fault (by decide) hFault

end Plan

end QuantumLab
