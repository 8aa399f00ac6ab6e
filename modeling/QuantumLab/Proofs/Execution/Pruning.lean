import QuantumLab.Proofs.Execution.Worklist

/-
  This file says what kept values change in the search for
  the nodes to compute: the nodes with kept values are left
  out, and nothing else is different.

  Key definitions include:
    * `Memo.Closed`
    * `Worklist.prune`

  Main statements:
    * `Worklist.exhaust_prune` says that a list without the
      nodes that have kept values is exhausted as the whole
      list is.
    * `Plan.pending_eq` says that the nodes to compute are
      those of an empty memo less the ones with kept values,
      and that the faults are the same.
-/

------------------------------------------------------------
-- Closed sets of nodes
------------------------------------------------------------

namespace QuantumLab

variable {R : Type}

namespace Memo

/-
  The operands of every node with a kept value come before
  it and have kept values.
-/
def Closed (plan : Plan R) (memo : Memo R) : Prop :=
  ∀ id operation, (memo.find? id).isSome = true →
    plan.operation? id = some operation →
      ∀ operand ∈ operation.operands,
        operand < id ∧ (memo.find? operand).isSome = true

@[simp] theorem find?_initial
    (plan : Plan R)
    (id : NodeId) :
    (initial plan).find? id = none := by
  by_cases hInside : id < plan.size
  · simp [initial, find?, hInside]
  · simp [initial, find?, hInside]

end Memo

end QuantumLab

------------------------------------------------------------
-- Lists without the nodes that have values
------------------------------------------------------------

namespace QuantumLab

variable {R : Type}

namespace Worklist

/- The list without the nodes that have kept values. -/
def prune (memo : Memo R) (w : Worklist) : Worklist where
  waiting := w.waiting.filter fun id => (memo.find? id).isNone
  marked := w.marked.mapIdx fun id mark =>
    mark && (memo.find? id).isNone

variable {memo : Memo R} {w : Worklist} {id : NodeId}

@[simp] theorem size_prune :
    (w.prune memo).marked.size = w.marked.size := by
  simp [prune]

@[simp] theorem isMarked_prune :
    (w.prune memo).isMarked id =
      (w.isMarked id && (memo.find? id).isNone) := by
  by_cases hInside : id < w.marked.size
  · simp [prune, isMarked, hInside]
  · simp [prune, isMarked, hInside]

theorem nodes_prune :
    (w.prune memo).nodes =
      w.nodes.filter fun id => (memo.find? id).isNone := by
  rw [nodes, nodes, List.filter_filter, size_prune]
  refine List.filter_congr fun id _ => ?_
  rw [isMarked_prune, Bool.and_comm]

/- A node without a kept value is put on both lists. -/
theorem prune_put
    (hUnkept : memo.find? id = none) :
    (w.put id).prune memo = (w.prune memo).put id := by
  simp [prune, put, hUnkept]

/- A node with a kept value is put on the whole list alone. -/
theorem prune_put_of_kept
    (hKept : (memo.find? id).isSome = true) :
    (w.put id).prune memo = w.prune memo := by
  have hNotNone : (memo.find? id).isNone = false := by
    simpa [← Option.not_isSome] using hKept
  simp only [prune, put, List.filter_cons, hNotNone,
    Bool.false_eq_true, if_false, Worklist.mk.injEq, true_and,
    Array.mapIdx_setIfInBounds, Bool.and_false]
  apply Array.ext
  · simp
  · intro k _ _
    rw [Array.getElem_setIfInBounds]
    split
    · next hSame => simp [← hSame, hNotNone]
    · rfl

theorem prune_single
    {size : Nat}
    (hUnkept : memo.find? id = none) :
    (single size id).prune memo = single size id := by
  have hNothing :
      prune memo ⟨[], Array.replicate size false⟩ =
        ⟨[], Array.replicate size false⟩ := by
    simp only [prune, List.filter_nil, Worklist.mk.injEq, true_and]
    apply Array.ext
    · simp
    · intro k _ _
      simp
  rw [single, prune_put hUnkept, hNothing]

/-
  Operands are put on the list without kept nodes as they
  are on the whole list, with the same fault.
-/
theorem putOperands_prune
    (plan : Plan R)
    (memo : Memo R)
    (word : String)
    (node : NodeId)
    (w : Worklist)
    (operands : List NodeId) :
    putOperands memo word node (w.prune memo) operands =
      prune memo <$>
        putOperands (.initial plan) word node w operands := by
  induction operands generalizing w with
  | nil => rfl
  | cons operand rest ih =>
      by_cases hForward : node ≤ operand
      · rw [putOperands, putOperands, if_pos hForward,
          if_pos hForward]
        rfl
      · rw [putOperands, putOperands, if_neg hForward,
          if_neg hForward, Memo.find?_initial, isMarked_prune]
        cases hMarked : w.isMarked operand with
        | true =>
            have hSkipped :
                (true && (memo.find? operand).isNone ||
                  (memo.find? operand).isSome) = true := by
              cases memo.find? operand with
              | none => rfl
              | some value => rfl
            simp only [hSkipped, Bool.true_or, if_true]
            exact ih w
        | false =>
            have hRest := ih (w.put operand)
            cases hKept : memo.find? operand with
            | none =>
                rw [prune_put hKept] at hRest
                simpa using hRest
            | some value =>
                rw [prune_put_of_kept (by rw [hKept]; rfl)] at hRest
                simpa using hRest

/- Nothing is put on a list when all operands have kept values. -/
theorem putOperands_of_kept
    {word : String}
    {node : NodeId}
    {operands : List NodeId}
    (hKept : ∀ operand ∈ operands,
      operand < node ∧ (memo.find? operand).isSome = true) :
    putOperands memo word node w operands = .ok w := by
  induction operands with
  | nil => rfl
  | cons operand rest ih =>
      rcases hKept operand List.mem_cons_self with ⟨hBackward, hSome⟩
      rw [putOperands, if_neg (Nat.not_le.2 hBackward),
        if_pos (by rw [hSome, Bool.or_true])]
      exact ih fun other hOther =>
        hKept other (List.mem_cons_of_mem _ hOther)

/-
  A list without kept nodes is exhausted as the whole list
  is.  The search for the whole list also looks at kept
  nodes, but puts only kept nodes on the list for them.
-/
theorem exhaust_prune
    {plan : Plan R}
    {root : NodeId}
    (hClosed : memo.Closed plan)
    {fuel fuel' : Nat}
    (hSound : w.Sound plan (.initial plan) root)
    (hPruned : (w.prune memo).Sound plan memo root)
    (hFuel : w.waiting.length + w.unmarked ≤ fuel)
    (hFuel' : (w.prune memo).waiting.length +
      (w.prune memo).unmarked ≤ fuel') :
    exhaust plan memo fuel' (w.prune memo) =
      prune memo <$> exhaust plan (.initial plan) fuel w := by
  induction fuel generalizing w fuel' with
  | zero =>
      have hWaiting : w.waiting = [] :=
        List.length_eq_zero_iff.1 (by omega)
      rw [exhaust_nil _ hWaiting,
        exhaust_nil _ (by simp [prune, hWaiting])]
      rfl
  | succ fuel ih =>
      cases hWaiting : w.waiting with
      | nil =>
          rw [exhaust_nil _ hWaiting,
            exhaust_nil _ (by simp [prune, hWaiting])]
          rfl
      | cons node rest =>
          have hInside : node < plan.size :=
            hSound.size_eq ▸ lt_size_of_isMarked
              (hSound.waiting_marked node (by simp [hWaiting]))
          rcases Plan.exists_operation hInside with
            ⟨operation, hOperation⟩
          have hSame := putOperands_prune plan memo operation.word
            node { w with waiting := rest } operation.operands
          rw [exhaust_cons _ hWaiting hOperation]
          cases hKept : memo.find? node with
          | none =>
              -- both searches look at the node
              have hNext : (w.prune memo).waiting =
                  node :: (prune memo
                    { w with waiting := rest }).waiting := by
                simp [prune, hWaiting, hKept]
              cases fuel' with
              | zero => simp [hNext] at hFuel'
              | succ fuel' =>
                  rw [exhaust_cons _ hNext hOperation]
                  change putOperands memo operation.word node
                      (prune memo { w with waiting := rest }) _ >>= _ =
                    _
                  cases hPut : putOperands (.initial plan)
                      operation.word node { w with waiting := rest }
                      operation.operands with
                  | error fault =>
                      rw [hSame, hPut]
                      rfl
                  | ok later =>
                      rw [hPut] at hSame
                      rw [hSame]
                      rcases hSound.step hWaiting hOperation hPut with
                        ⟨hLater, hFewer⟩
                      rcases hPruned.step hNext hOperation hSame with
                        ⟨hLater', hFewer'⟩
                      exact ih hLater hLater' (by omega) (by omega)
          | some value =>
              -- only the search for the whole list does
              have hPruneTake :
                  prune memo { w with waiting := rest } =
                    w.prune memo := by
                simp [prune, hWaiting, hKept]
              have hOperands := hClosed node operation
                (by rw [hKept]; rfl) hOperation
              rw [putOperands_of_kept hOperands, hPruneTake] at hSame
              rcases map_eq_ok_iff.1 hSame.symm with
                ⟨later, hPut, hLaterPrune⟩
              rw [hPut, ok_bind, ← hLaterPrune]
              rcases hSound.step hWaiting hOperation hPut with
                ⟨hLater, hFewer⟩
              exact ih hLater (hLaterPrune ▸ hPruned) (by omega)
                (hLaterPrune ▸ hFuel')

end Worklist

end QuantumLab

------------------------------------------------------------
-- Nodes to compute
------------------------------------------------------------

namespace QuantumLab

variable {R : Type}

namespace Plan

/-
  With kept values the nodes to compute are the ones of an
  empty memo that have none, and they are not found for the
  same fault.
-/
theorem pending_eq
    {plan : Plan R}
    {memo : Memo R}
    {id : NodeId}
    (hClosed : memo.Closed plan)
    (hInside : id < plan.size)
    (hUnkept : memo.find? id = none) :
    plan.pending memo id =
      List.filter (fun node => (memo.find? node).isNone) <$>
        plan.pending (.initial plan) id := by
  have hPrune : Worklist.prune memo (Worklist.single plan.size id) =
      Worklist.single plan.size id :=
    Worklist.prune_single hUnkept
  have hMeasure := Worklist.measure_single hInside
  have hSame := Worklist.exhaust_prune hClosed
    (sound_single hInside) (hPrune.symm ▸ sound_single hInside)
    hMeasure (hPrune.symm ▸ hMeasure)
  rw [hPrune] at hSame
  rw [pending, pending, hSame]
  cases Worklist.exhaust plan (.initial plan) plan.size
      (Worklist.single plan.size id) with
  | error fault => rfl
  | ok w => exact congrArg Except.ok Worklist.nodes_prune

end Plan

end QuantumLab
