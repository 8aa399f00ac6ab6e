import QuantumLab.Proofs.Execution.History
import QuantumLab.Proofs.Execution.Verification
import QuantumLab.Proofs.Execution.Workload

/-
  This file says what becomes of a plan when two adjacent
  experiments are exchanged: their results are exchanged, and
  as many nodes are computed.

  Key definitions include:
    * `Exchanged`
    * `Plan.Exchanged`

  Main statements:
    * `Plan.Exchanged.wellFormed` says that a plan stays
      well-formed.
    * `Plan.Exchanged.execute` says what an execution leads
      to.
-/

------------------------------------------------------------
-- Lists
------------------------------------------------------------

namespace QuantumLab

variable {α β : Type}

/-
  Two lists are the same, but for the members at a position
  and at the next one, which are exchanged.
-/
inductive Exchanged : Nat → List α → List α → Prop where
  | here
      (a b : α)
      (after : List α) :
      Exchanged 0 (a :: b :: after) (b :: a :: after)
  | later
      {k : Nat}
      {xs ys : List α}
      (a : α)
      (hRest : Exchanged k xs ys) :
      Exchanged (k + 1) (a :: xs) (a :: ys)

theorem exchanged_append
    (before : List α)
    (a b : α)
    (after : List α) :
    Exchanged before.length (before ++ a :: b :: after)
      (before ++ b :: a :: after) := by
  induction before with
  | nil => exact .here a b after
  | cons c before ih => exact .later c ih

namespace Exchanged

variable
  {k : Nat}
  {xs ys : List α}

theorem symm
    (hExchanged : Exchanged k xs ys) :
    Exchanged k ys xs := by
  induction hExchanged with
  | here a b after => exact .here b a after
  | later c _ ih => exact .later c ih

/- What comes before and after the two members is the same. -/
theorem split
    (hExchanged : Exchanged k xs ys) :
    ∃ before a b after, before.length = k ∧
      xs = before ++ a :: b :: after ∧
        ys = before ++ b :: a :: after := by
  induction hExchanged with
  | here a b after => exact ⟨[], a, b, after, rfl, rfl, rfl⟩
  | later c _ ih =>
      rcases ih with ⟨before, a, b, after, rfl, rfl, rfl⟩
      exact ⟨c :: before, a, b, after, rfl, rfl, rfl⟩

/- The same members may follow. -/
theorem append
    (hExchanged : Exchanged k xs ys)
    (more : List α) :
    Exchanged k (xs ++ more) (ys ++ more) := by
  induction hExchanged with
  | here a b after => exact .here a b (after ++ more)
  | later c _ ih => exact .later c ih

theorem mem_iff
    {c : α}
    (hExchanged : Exchanged k xs ys) :
    c ∈ ys ↔ c ∈ xs := by
  induction hExchanged with
  | here a b after =>
      simp only [List.mem_cons]
      exact or_left_comm
  | later d _ ih => rw [List.mem_cons, List.mem_cons, ih]

/- Partners are exchanged as well. -/
theorem forall₂
    {P : α → β → Prop}
    {zs : List β}
    (hExchanged : Exchanged k xs ys)
    (hPartners : List.Forall₂ P xs zs) :
    ∃ ws, Exchanged k zs ws ∧ List.Forall₂ P ys ws := by
  induction hExchanged generalizing zs with
  | here a b after =>
      rcases hPartners with _ | ⟨hFirst, _ | ⟨hSecond, hRest⟩⟩
      exact ⟨_, .here _ _ _, .cons hSecond (.cons hFirst hRest)⟩
  | later c _ ih =>
      rcases hPartners with _ | ⟨hHead, hTail⟩
      rcases ih hTail with ⟨ws, hLater, hPartners⟩
      exact ⟨_, .later _ hLater, .cons hHead hPartners⟩

end Exchanged

end QuantumLab

------------------------------------------------------------
-- Plans
------------------------------------------------------------

namespace QuantumLab

variable {R : Type}

namespace Plan

/- Two plans are the same, but for two adjacent experiments. -/
structure Exchanged
    (k : Nat)
    (plan plan' : Plan R) : Prop where
  nodes : plan'.nodes = plan.nodes
  experiments :
    QuantumLab.Exchanged k plan.experiments plan'.experiments

namespace Exchanged

variable
  {k : Nat}
  {plan plan' : Plan R}

theorem wellFormed
    (hExchanged : plan.Exchanged k plan')
    (hPlan : plan.WellFormed) :
    plan'.WellFormed := by
  cases plan'
  cases hExchanged.nodes
  have hMembers := fun e => hExchanged.experiments.mem_iff (c := e)
  exact
    { backward := hPlan.backward
      refers := fun e hMember =>
        have hRefers := hPlan.refers e ((hMembers e).1 hMember)
        ⟨hRefers.initialState, hRefers.hamiltonian, hRefers.jumps,
          hRefers.operators⟩
      proper := fun e hMember => hPlan.proper e ((hMembers e).1 hMember) }

/- The same nodes are used by a node. -/
theorem uses
    {root node : NodeId}
    (hExchanged : plan.Exchanged k plan')
    (hUses : plan.Uses root node) :
    plan'.Uses root node := by
  induction hUses with
  | self => exact .self
  | operand _ hOperation hOperand ih =>
      refine .operand ih ?_ hOperand
      rw [operation?, hExchanged.nodes]
      exact hOperation

theorem symm
    (hExchanged : plan.Exchanged k plan') :
    plan'.Exchanged k plan :=
  ⟨hExchanged.nodes.symm, hExchanged.experiments.symm⟩

/- The same nodes are used by the experiments. -/
theorem reaches_iff
    {node : NodeId}
    (hExchanged : plan.Exchanged k plan') :
    plan'.Reaches node ↔ plan.Reaches node := by
  constructor
  · rintro ⟨e, hMember, root, hRoot, hUses⟩
    exact ⟨e, hExchanged.experiments.mem_iff.1 hMember, root, hRoot,
      hExchanged.symm.uses hUses⟩
  · rintro ⟨e, hMember, root, hRoot, hUses⟩
    exact ⟨e, hExchanged.experiments.mem_iff.2 hMember, root, hRoot,
      hExchanged.uses hUses⟩

theorem operation?_eq
    (hExchanged : plan.Exchanged k plan')
    (id : NodeId) :
    plan'.operation? id = plan.operation? id := by
  rw [operation?, hExchanged.nodes, operation?]

/- The nodes to compute do not depend on the experiments. -/
theorem exhaust_eq
    (hExchanged : plan.Exchanged k plan')
    (memo : Memo R)
    (fuel : Nat)
    (w : Worklist) :
    Worklist.exhaust plan' memo fuel w =
      Worklist.exhaust plan memo fuel w := by
  induction fuel generalizing w with
  | zero => rfl
  | succ fuel ih =>
      simp only [Worklist.exhaust, hExchanged.operation?_eq, ih]

variable [Arithmetic R]

theorem evaluate_eq
    (hExchanged : plan.Exchanged k plan') :
    plan'.evaluate = plan.evaluate := by
  have hSize : plan'.size = plan.size :=
    congrArg Array.size hExchanged.nodes
  have hCompute : plan'.computeNode = plan.computeNode := by
    funext id
    simp only [computeNode, hExchanged.operation?_eq]
  have hPending : plan'.pending = plan.pending := by
    funext memo id
    simp only [pending, hExchanged.exhaust_eq, hSize]
  funext id
  simp only [evaluate, hSize, hCompute, hPending]

/- An experiment alone does not depend on those beside it. -/
theorem runAlone_eq
    (hExchanged : plan.Exchanged k plan')
    (tolerance : R)
    (e : PlannedExperiment R) :
    plan'.runAlone tolerance e = plan.runAlone tolerance e := by
  have hEvaluate := hExchanged.evaluate_eq
  have hSize : plan'.size = plan.size :=
    congrArg Array.size hExchanged.nodes
  have hMatrix : plan'.evaluateMatrix = plan.evaluateMatrix := by
    funext id
    rw [evaluateMatrix, hEvaluate, evaluateMatrix]
  have hMeasure : plan'.measure = plan.measure := by
    funext tolerance times states m
    rw [measure, hMatrix, measure]
  unfold runAlone runExperiment states evolve evaluateChannels
    Memo.initial
  rw [hEvaluate, hMatrix, hMeasure, hSize]

/-
  The results of the two experiments are exchanged, and as
  many nodes are computed.
-/
theorem execute
    {config : BackendConfig}
    {tolerance : R}
    {result : ExecutionResult R}
    {count : Nat}
    (hExchanged : plan.Exchanged k plan')
    (hResult : plan.execute config tolerance = .ok (result, count)) :
    ∃ result' : ExecutionResult R,
      QuantumLab.Exchanged k result.experiments result'.experiments ∧
        plan'.execute config tolerance = .ok (result', count) := by
  unfold Plan.execute at hResult ⊢
  cases hBackend : config.backend with
  | cpuDense =>
      rw [hBackend] at hResult
      rcases bind_eq_ok_iff.1 hResult with
        ⟨⟨results, memo⟩, hAll, hDone⟩
      cases pure_eq_ok_iff.1 hDone
      have hAlone := runAll_eq (Memo.valid_initial plan) tolerance
        plan.experiments
      have hAlone' := runAll_eq (Memo.valid_initial plan') tolerance
        plan'.experiments
      rw [funext (hExchanged.runAlone_eq tolerance)] at hAlone'
      rw [hAll] at hAlone
      rcases hExchanged.experiments.forall₂ (mapM_eq_ok_iff.1 hAlone.symm)
        with ⟨_, hResults, hPartners⟩
      rw [mapM_eq_ok_iff.2 hPartners] at hAlone'
      rcases map_eq_ok_iff.1 hAlone' with
        ⟨⟨results', memo'⟩, hAll', rfl⟩
      have hReached : {id | plan'.Reaches id} = {id | plan.Reaches id} :=
        Set.ext fun _ => hExchanged.reaches_iff
      have hCount : memo'.computed = memo.computed := by
        rw [computed_of_runAll hAll, computed_of_runAll hAll', hReached]
      refine ⟨⟨results'⟩, hResults, ?_⟩
      simp only [hAll', ok_bind, hCount]
      rfl
  | _ =>
      rw [hBackend] at hResult
      cases hResult

end Exchanged

end Plan

end QuantumLab
