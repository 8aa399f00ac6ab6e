import QuantumLab.Plan.Execution
import QuantumLab.Proofs.Execution.Denotation

/-
  This file says which nodes the worklist of a computation
  yields.

  Key definitions include:
    * `Plan.Needs`
    * `Worklist.Sound`
    * `Plan.Schedule`
    * `Memo.Supported`

  Main statements:
    * `Plan.schedule_of_pending` says that the nodes to
      compute ascend, are all needed, and come with all of
      their operands that are not computed yet.
    * `Plan.forward_of_pending` says that the worklist fails
      only on a needed node with an operand that does not
      come before it.
    * `Plan.Schedule.mem_iff` says which nodes are computed,
      if values are kept together with those of operands.
-/

------------------------------------------------------------
-- Needed nodes
------------------------------------------------------------

namespace QuantumLab

variable {R : Type}

namespace Plan

/-
  The nodes that are reached from a node through operands
  that come before their users and are not computed yet.
-/
inductive Needs
    (plan : Plan R)
    (memo : Memo R)
    (id : NodeId) : NodeId → Prop
  | self : plan.Needs memo id id
  | operand
      {node operand : NodeId}
      {operation : Operation R} :
      plan.Needs memo id node →
      plan.operation? node = some operation →
      operand ∈ operation.operands →
      operand < node →
      memo.find? operand = none →
      plan.Needs memo id operand

theorem Needs.uses
    {plan : Plan R}
    {memo : Memo R}
    {id node : NodeId}
    (hNeeds : plan.Needs memo id node) :
    plan.Uses id node := by
  induction hNeeds with
  | self => exact .self
  | operand _ hOperation hOperand _ _ ih =>
      exact .operand ih hOperation hOperand

end Plan

end QuantumLab

------------------------------------------------------------
-- Marks
------------------------------------------------------------

namespace QuantumLab

namespace Worklist

theorem lt_size_of_isMarked
    {w : Worklist}
    {id : NodeId}
    (hMarked : w.isMarked id = true) :
    id < w.marked.size := by
  apply Nat.lt_of_not_le
  intro hOutside
  have hNone : w.marked[id]? = none :=
    Array.getElem?_eq_none hOutside
  simp [isMarked, hNone] at hMarked

@[simp] theorem size_put (w : Worklist) (id : NodeId) :
    (w.put id).marked.size = w.marked.size := by
  simp [put]

theorem isMarked_put
    {w : Worklist}
    {id : NodeId}
    (hInside : id < w.marked.size)
    (other : NodeId) :
    (w.put id).isMarked other =
      (decide (other = id) || w.isMarked other) := by
  by_cases hSame : other = id
  · subst hSame
    simp [put, isMarked, hInside]
  · have hDifferent : id ≠ other := fun h => hSame h.symm
    simp [put, isMarked, hSame,
      Array.getElem?_setIfInBounds_ne hDifferent]

theorem isMarked_single
    {size : Nat}
    {id : NodeId}
    (hInside : id < size)
    (other : NodeId) :
    (single size id).isMarked other = decide (other = id) := by
  have hNone :
      (⟨[], Array.replicate size false⟩ : Worklist).isMarked other =
        false := by
    by_cases hOther : other < size
    · simp [isMarked, hOther]
    · simp [isMarked, hOther]
  rw [single, isMarked_put (by simpa using hInside), hNone,
    Bool.or_false]

theorem mem_nodes_iff
    {w : Worklist}
    {id : NodeId} :
    id ∈ w.nodes ↔ w.isMarked id = true := by
  rw [nodes, List.mem_filter, List.mem_range]
  constructor
  · intro hMember
    exact hMember.2
  · intro hMarked
    exact ⟨lt_size_of_isMarked hMarked, hMarked⟩

theorem nodes_ascending (w : Worklist) :
    w.nodes.Pairwise (· < ·) :=
  List.Pairwise.filter _ List.pairwise_lt_range

/- The number of nodes that were never put on the list. -/
def unmarked (w : Worklist) : Nat :=
  (List.range w.marked.size).countP fun id => !w.isMarked id

/- One node fewer is unmarked after it is put on the list. -/
theorem unmarked_put
    {w : Worklist}
    {id : Nat}
    (hInside : id < w.marked.size)
    (hFresh : w.isMarked id = false) :
    (w.put id).unmarked + 1 = w.unmarked := by
  have hSplit : ∀ n ≤ w.marked.size,
      (List.range n).countP (fun k => !(w.put id).isMarked k)
          + (if id < n then 1 else 0) =
        (List.range n).countP fun k => !w.isMarked k := by
    intro n hn
    induction n with
    | zero => rfl
    | succ n ih =>
        have hPrior := ih (by omega)
        rw [List.range_succ, List.countP_append, List.countP_append,
          List.countP_singleton, List.countP_singleton,
          isMarked_put hInside]
        by_cases hLast : n = id
        · subst hLast
          simp [hFresh] at hPrior ⊢
          omega
        · by_cases hBelow : id < n
          · have hNext : id < n + 1 := by omega
            simp [hLast, hBelow, hNext] at hPrior ⊢
            omega
          · have hNext : ¬ id < n + 1 := by omega
            simp [hLast, hBelow, hNext] at hPrior ⊢
            omega
  have hAll := hSplit w.marked.size (Nat.le_refl _)
  rw [if_pos hInside] at hAll
  simpa [unmarked] using hAll

/- The number of nodes is enough fuel for a list with one node. -/
theorem measure_single
    {size : Nat}
    {id : NodeId}
    (hInside : id < size) :
    (single size id).waiting.length + (single size id).unmarked ≤
      size := by
  have hAll :
      unmarked ⟨[], Array.replicate size false⟩ ≤ size := by
    apply Nat.le_trans List.countP_le_length
    simp
  have hFewer :
      (single size id).unmarked + 1 =
        unmarked ⟨[], Array.replicate size false⟩ :=
    unmarked_put (by simpa using hInside) (by simp [isMarked, hInside])
  have hLength : (single size id).waiting.length = 1 := rfl
  omega

end Worklist

end QuantumLab

------------------------------------------------------------
-- Sound lists
------------------------------------------------------------

namespace QuantumLab

variable {R : Type}

/-
  The fault of a needed node with an operand that does not
  come before it.
-/
inductive Plan.Forward
    (plan : Plan R)
    (memo : Memo R)
    (id : NodeId) : Fault R → Prop
  | operand
      {node operand : NodeId}
      {operation : Operation R} :
      plan.Needs memo id node →
      plan.operation? node = some operation →
      operand ∈ operation.operands →
      node ≤ operand →
      plan.Forward memo id
        ⟨.unallocatedOperand operation.word node operand, some node⟩

namespace Worklist

/-
  A list that holds needed nodes only, each waiting at most
  once.
-/
structure Sound
    (plan : Plan R)
    (memo : Memo R)
    (id : NodeId)
    (w : Worklist) : Prop where
  size_eq : w.marked.size = plan.size
  nodup : w.waiting.Nodup
  waiting_marked : ∀ node ∈ w.waiting, w.isMarked node = true
  needed : ∀ node, w.isMarked node = true → plan.Needs memo id node
  root : w.isMarked id = true

/-
  Every operand of a node comes before it and is computed
  or on the list.
-/
def Covers
    (plan : Plan R)
    (memo : Memo R)
    (w : Worklist)
    (node : NodeId) : Prop :=
  ∀ operation, plan.operation? node = some operation →
    ∀ operand ∈ operation.operands,
      operand < node ∧
        ((memo.find? operand).isSome = true ∨
          w.isMarked operand = true)

/-
  A list is extended by waiting nodes alone, and each of
  them is one unmarked node fewer.
-/
structure Extends (w later : Worklist) : Prop where
  marked : ∀ node, w.isMarked node = true →
    later.isMarked node = true
  looked : ∀ node, later.isMarked node = true →
    node ∉ later.waiting →
    w.isMarked node = true ∧ node ∉ w.waiting
  measure : later.waiting.length + later.unmarked =
    w.waiting.length + w.unmarked

theorem Extends.refl (w : Worklist) : w.Extends w where
  marked _ hMarked := hMarked
  looked _ hMarked hLooked := ⟨hMarked, hLooked⟩
  measure := rfl

theorem Extends.trans
    {w later last : Worklist}
    (hFirst : w.Extends later)
    (hSecond : later.Extends last) :
    w.Extends last where
  marked node hMarked :=
    hSecond.marked node (hFirst.marked node hMarked)
  looked node hMarked hLooked := by
    rcases hSecond.looked node hMarked hLooked with
      ⟨hMarked, hLooked⟩
    exact hFirst.looked node hMarked hLooked
  measure := hSecond.measure.trans hFirst.measure

theorem Extends.put
    {w : Worklist}
    {id : NodeId}
    (hInside : id < w.marked.size)
    (hFresh : w.isMarked id = false) :
    w.Extends (w.put id) where
  marked node hMarked := by
    rw [isMarked_put hInside, hMarked, Bool.or_true]
  looked node hMarked hLooked := by
    have hNotPut : node ≠ id ∧ node ∉ w.waiting := by
      simpa [Worklist.put] using hLooked
    rw [isMarked_put hInside] at hMarked
    exact ⟨by simpa [hNotPut.1] using hMarked, hNotPut.2⟩
  measure := by
    have hFewer := unmarked_put hInside hFresh
    have hLonger :
        (w.put id).waiting.length = w.waiting.length + 1 := rfl
    omega

theorem Sound.put
    {plan : Plan R}
    {memo : Memo R}
    {id : NodeId}
    {w : Worklist}
    {node : NodeId}
    (hSound : w.Sound plan memo id)
    (hInside : node < plan.size)
    (hFresh : w.isMarked node = false)
    (hNeeds : plan.Needs memo id node) :
    (w.put node).Sound plan memo id := by
  have hInside : node < w.marked.size := hSound.size_eq ▸ hInside
  constructor
  · rw [size_put, hSound.size_eq]
  · refine List.nodup_cons.2 ⟨?_, hSound.nodup⟩
    intro hWaiting
    simp [hSound.waiting_marked node hWaiting] at hFresh
  · intro other hOther
    rw [isMarked_put hInside]
    rcases List.mem_cons.1 hOther with hSame | hWaiting
    · simp [hSame]
    · simp [hSound.waiting_marked other hWaiting]
  · intro other hOther
    rw [isMarked_put hInside] at hOther
    by_cases hSame : other = node
    · exact hSame ▸ hNeeds
    · exact hSound.needed other (by simpa [hSame] using hOther)
  · rw [isMarked_put hInside, hSound.root, Bool.or_true]

/-
  The operands of a needed node are put on the list, or one
  of them does not come before the node.
-/
theorem putOperands_spec
    {plan : Plan R}
    {memo : Memo R}
    {id node : NodeId}
    {operation : Operation R}
    (hNeeds : plan.Needs memo id node)
    (hOperation : plan.operation? node = some operation)
    {w : Worklist}
    (hSound : w.Sound plan memo id)
    {operands : List NodeId}
    (hOperands : ∀ operand ∈ operands,
      operand ∈ operation.operands) :
    match putOperands memo operation.word node w operands with
    | .ok later =>
        later.Sound plan memo id ∧ w.Extends later ∧
          ∀ operand ∈ operands, operand < node ∧
            ((memo.find? operand).isSome = true ∨
              later.isMarked operand = true)
    | .error fault => plan.Forward memo id fault := by
  induction operands generalizing w with
  | nil => exact ⟨hSound, Extends.refl w, by simp⟩
  | cons operand rest ih =>
      have hMember := hOperands operand List.mem_cons_self
      have hRest : ∀ later ∈ rest, later ∈ operation.operands :=
        fun later hLater =>
          hOperands later (List.mem_cons_of_mem _ hLater)
      by_cases hForward : node ≤ operand
      · rw [putOperands, if_pos hForward]
        exact .operand hNeeds hOperation hMember hForward
      · rw [putOperands, if_neg hForward]
        have hBackward : operand < node := Nat.lt_of_not_le hForward
        -- the rest is put on a list that covers the operand
        have hFrom : ∀ {next : Worklist},
            next.Sound plan memo id → w.Extends next →
            ((memo.find? operand).isSome = true ∨
              next.isMarked operand = true) →
            match putOperands memo operation.word node next rest with
            | .ok later =>
                later.Sound plan memo id ∧ w.Extends later ∧
                  ∀ other ∈ operand :: rest, other < node ∧
                    ((memo.find? other).isSome = true ∨
                      later.isMarked other = true)
            | .error fault => plan.Forward memo id fault := by
          intro next hNext hExtends hCovers
          have hLater := ih hNext hRest
          revert hLater
          split
          · rintro ⟨hSound', hExtends', hEach⟩
            refine ⟨hSound', hExtends.trans hExtends', ?_⟩
            intro other hOther
            rcases List.mem_cons.1 hOther with hSame | hTail
            · rw [hSame]
              exact ⟨hBackward,
                hCovers.imp_right (hExtends'.marked operand)⟩
            · exact hEach other hTail
          · intro hFault
            exact hFault
        by_cases hCovered :
            (w.isMarked operand || (memo.find? operand).isSome) = true
        · rw [if_pos hCovered]
          rw [Bool.or_eq_true, or_comm] at hCovered
          exact hFrom hSound (Extends.refl w) hCovered
        · rw [if_neg hCovered]
          rw [Bool.or_eq_true, not_or, Bool.not_eq_true,
            Bool.not_eq_true, Option.isSome_eq_false_iff,
            Option.isNone_iff_eq_none] at hCovered
          have hInside : operand < plan.size :=
            Nat.lt_trans hBackward
              (Plan.lt_size_of_operation hOperation)
          have hPutNeeds : plan.Needs memo id operand :=
            .operand hNeeds hOperation hMember hBackward hCovered.2
          have hInside' : operand < w.marked.size :=
            hSound.size_eq ▸ hInside
          exact hFrom (hSound.put hInside hCovered.1 hPutNeeds)
            (Extends.put hInside' hCovered.1)
            (.inr (by simp [isMarked_put hInside']))

/- What covers a node still does when more nodes are marked. -/
theorem Covers.mono
    {plan : Plan R}
    {memo : Memo R}
    {w later : Worklist}
    {node : NodeId}
    (hCovers : w.Covers plan memo node)
    (hMarked : ∀ other, w.isMarked other = true →
      later.isMarked other = true) :
    later.Covers plan memo node := by
  intro operation hOperation operand hOperand
  rcases hCovers operation hOperation operand hOperand with
    ⟨hBackward, hComputed | hOnList⟩
  · exact ⟨hBackward, .inl hComputed⟩
  · exact ⟨hBackward, .inr (hMarked operand hOnList)⟩

/- A sound list stays sound when its next node is taken off. -/
theorem Sound.take
    {plan : Plan R}
    {memo : Memo R}
    {id node : NodeId}
    {w : Worklist}
    {rest : List NodeId}
    (hSound : w.Sound plan memo id)
    (hWaiting : w.waiting = node :: rest) :
    Sound plan memo id { w with waiting := rest } where
  size_eq := hSound.size_eq
  nodup := (List.nodup_cons.1 (hWaiting ▸ hSound.nodup)).2
  waiting_marked other hOther :=
    hSound.waiting_marked other
      (hWaiting ▸ List.mem_cons_of_mem node hOther)
  needed := hSound.needed
  root := hSound.root

/-
  When the next node is looked at, its operands are put on
  the list, or one of them does not come before the node.
-/
theorem Sound.putOperands_next
    {plan : Plan R}
    {memo : Memo R}
    {id node : NodeId}
    {w : Worklist}
    {rest : List NodeId}
    {operation : Operation R}
    (hSound : w.Sound plan memo id)
    (hWaiting : w.waiting = node :: rest)
    (hOperation : plan.operation? node = some operation) :
    match putOperands memo operation.word node
        { w with waiting := rest } operation.operands with
    | .ok later =>
        later.Sound plan memo id ∧
          Extends { w with waiting := rest } later ∧
          later.Covers plan memo node
    | .error fault => plan.Forward memo id fault := by
  have hNeeds := hSound.needed node
    (hSound.waiting_marked node (by simp [hWaiting]))
  have hPut := putOperands_spec hNeeds hOperation
    (hSound.take hWaiting) (fun _ hOperand => hOperand)
  revert hPut
  split
  · rintro ⟨hLater, hExtends, hCovered⟩
    refine ⟨hLater, hExtends, ?_⟩
    intro operation' hOperation'
    rw [hOperation] at hOperation'
    cases hOperation'
    exact hCovered
  · intro hFault
    exact hFault

/- After a node is looked at, one node fewer is waiting or unmarked. -/
theorem Sound.step
    {plan : Plan R}
    {memo : Memo R}
    {id node : NodeId}
    {w later : Worklist}
    {rest : List NodeId}
    {operation : Operation R}
    (hSound : w.Sound plan memo id)
    (hWaiting : w.waiting = node :: rest)
    (hOperation : plan.operation? node = some operation)
    (hPut : putOperands memo operation.word node
      { w with waiting := rest } operation.operands = .ok later) :
    later.Sound plan memo id ∧
      later.waiting.length + later.unmarked + 1 =
        w.waiting.length + w.unmarked := by
  have hNext := hSound.putOperands_next hWaiting hOperation
  rw [hPut] at hNext
  rcases hNext with ⟨hLater, hExtends, _⟩
  have hMeasure := hExtends.measure
  have hShorter : w.waiting.length = rest.length + 1 := by
    rw [hWaiting, List.length_cons]
  have hUnmarked :
      unmarked { w with waiting := rest } = w.unmarked := rfl
  simp only [hUnmarked] at hMeasure
  exact ⟨hLater, by omega⟩

/-
  If every node that was looked at is covered, then it still
  is after one more node is looked at, and so is this node.
-/
theorem Sound.covers_step
    {plan : Plan R}
    {memo : Memo R}
    {id node : NodeId}
    {w later : Worklist}
    {rest : List NodeId}
    {operation : Operation R}
    (hSound : w.Sound plan memo id)
    (hWaiting : w.waiting = node :: rest)
    (hOperation : plan.operation? node = some operation)
    (hPut : putOperands memo operation.word node
      { w with waiting := rest } operation.operands = .ok later)
    (hLooked : ∀ other, w.isMarked other = true →
      other ∉ w.waiting → w.Covers plan memo other) :
    ∀ other, later.isMarked other = true →
      other ∉ later.waiting → later.Covers plan memo other := by
  have hNext := hSound.putOperands_next hWaiting hOperation
  rw [hPut] at hNext
  rcases hNext with ⟨_, hExtends, hCovered⟩
  intro other hOther hLookedAt
  rcases hExtends.looked other hOther hLookedAt with
    ⟨hBefore, hNotRest⟩
  by_cases hSame : other = node
  · rw [hSame]
    exact hCovered
  · have hNotWaiting : other ∉ w.waiting := by
      rw [hWaiting]
      simpa [hSame] using hNotRest
    exact (hLooked other hBefore hNotWaiting).mono hExtends.marked

theorem exhaust_nil
    {plan : Plan R}
    {memo : Memo R}
    {w : Worklist}
    (fuel : Nat)
    (hWaiting : w.waiting = []) :
    exhaust plan memo fuel w = .ok w := by
  cases fuel with
  | zero => rfl
  | succ fuel => simp only [exhaust, hWaiting]

theorem exhaust_cons
    {plan : Plan R}
    {memo : Memo R}
    {node : NodeId}
    {w : Worklist}
    {rest : List NodeId}
    {operation : Operation R}
    (fuel : Nat)
    (hWaiting : w.waiting = node :: rest)
    (hOperation : plan.operation? node = some operation) :
    exhaust plan memo (fuel + 1) w =
      putOperands memo operation.word node
        { w with waiting := rest } operation.operands >>=
          exhaust plan memo fuel := by
  simp only [exhaust, hWaiting, hOperation]

/-
  With enough fuel no node is left waiting, so every node
  that was put on the list is covered.
-/
theorem exhaust_spec
    {plan : Plan R}
    {memo : Memo R}
    {id : NodeId}
    {fuel : Nat}
    {w : Worklist}
    (hSound : w.Sound plan memo id)
    (hFuel : w.waiting.length + w.unmarked ≤ fuel)
    (hLooked : ∀ node, w.isMarked node = true →
      node ∉ w.waiting → w.Covers plan memo node) :
    match exhaust plan memo fuel w with
    | .ok later =>
        later.Sound plan memo id ∧
          ∀ node, later.isMarked node = true →
            later.Covers plan memo node
    | .error fault => plan.Forward memo id fault := by
  induction fuel generalizing w with
  | zero =>
      have hWaiting : w.waiting = [] :=
        List.length_eq_zero_iff.1 (by omega)
      rw [exhaust_nil _ hWaiting]
      refine ⟨hSound, fun node hMarked => hLooked node hMarked ?_⟩
      simp [hWaiting]
  | succ fuel ih =>
      cases hWaiting : w.waiting with
      | nil =>
          rw [exhaust_nil _ hWaiting]
          refine ⟨hSound, fun node hMarked => hLooked node hMarked ?_⟩
          simp [hWaiting]
      | cons node rest =>
          have hInside : node < plan.size :=
            hSound.size_eq ▸ lt_size_of_isMarked
              (hSound.waiting_marked node (by simp [hWaiting]))
          rcases Plan.exists_operation hInside with
            ⟨operation, hOperation⟩
          rw [exhaust_cons _ hWaiting hOperation]
          cases hPut : putOperands memo operation.word node
              { w with waiting := rest } operation.operands with
          | error fault =>
              have hNext :=
                hSound.putOperands_next hWaiting hOperation
              rw [hPut] at hNext
              exact hNext
          | ok later =>
              rcases hSound.step hWaiting hOperation hPut with
                ⟨hLater, hFewer⟩
              exact ih hLater (by omega)
                (hSound.covers_step hWaiting hOperation hPut hLooked)

end Worklist

end QuantumLab

------------------------------------------------------------
-- Schedules
------------------------------------------------------------

namespace QuantumLab

variable {R : Type}

namespace Plan

/-
  Nodes in an order in which a value can be computed: they
  ascend, all of them are needed, and each comes with its
  operands that are not computed yet.
-/
structure Schedule
    (plan : Plan R)
    (memo : Memo R)
    (id : NodeId)
    (nodes : List NodeId) : Prop where
  ascending : nodes.Pairwise (· < ·)
  inside : ∀ node ∈ nodes, node < plan.size
  needed : ∀ node ∈ nodes, plan.Needs memo id node
  root : id ∈ nodes
  closed : ∀ node ∈ nodes, ∀ operation,
    plan.operation? node = some operation →
      ∀ operand ∈ operation.operands,
        operand < node ∧
          ((memo.find? operand).isSome = true ∨ operand ∈ nodes)

/- The first list of a computation holds the node that is asked for. -/
theorem sound_single
    {plan : Plan R}
    {memo : Memo R}
    {id : NodeId}
    (hInside : id < plan.size) :
    (Worklist.single plan.size id).Sound plan memo id := by
  constructor
  · simp [Worklist.single]
  · simp [Worklist.single, Worklist.put]
  · intro node hNode
    rw [Worklist.isMarked_single hInside]
    simpa [Worklist.single, Worklist.put] using hNode
  · intro node hMarked
    rw [Worklist.isMarked_single hInside, decide_eq_true_eq] at hMarked
    exact hMarked ▸ Needs.self
  · simp [Worklist.isMarked_single hInside]

theorem pending_spec
    {plan : Plan R}
    {memo : Memo R}
    {id : NodeId}
    (hInside : id < plan.size) :
    match plan.pending memo id with
    | .ok nodes => plan.Schedule memo id nodes
    | .error fault => plan.Forward memo id fault := by
  have hSound : (Worklist.single plan.size id).Sound plan memo id :=
    sound_single hInside
  have hLooked : ∀ node,
      (Worklist.single plan.size id).isMarked node = true →
        node ∉ (Worklist.single plan.size id).waiting →
          (Worklist.single plan.size id).Covers plan memo node := by
    intro node hMarked hNotWaiting
    rw [Worklist.isMarked_single hInside, decide_eq_true_eq] at hMarked
    simp [Worklist.single, Worklist.put, hMarked] at hNotWaiting
  have hDone := Worklist.exhaust_spec hSound
    (Worklist.measure_single hInside) hLooked
  unfold pending
  cases hResult : Worklist.exhaust plan memo plan.size
      (Worklist.single plan.size id) with
  | error fault =>
      rw [hResult] at hDone
      simpa [bind, Except.bind] using hDone
  | ok w =>
      rw [hResult] at hDone
      rcases hDone with ⟨hSound, hCovered⟩
      constructor
      · exact w.nodes_ascending
      · intro node hNode
        rw [Worklist.mem_nodes_iff] at hNode
        exact hSound.size_eq ▸ Worklist.lt_size_of_isMarked hNode
      · intro node hNode
        exact hSound.needed node (Worklist.mem_nodes_iff.1 hNode)
      · exact Worklist.mem_nodes_iff.2 hSound.root
      · intro node hNode operation hOperation operand hOperand
        rw [Worklist.mem_nodes_iff] at hNode
        rw [Worklist.mem_nodes_iff]
        exact hCovered node hNode operation hOperation operand hOperand

/-
  The nodes to compute ascend, are all needed, and come with
  all of their operands that are not computed yet.
-/
theorem schedule_of_pending
    {plan : Plan R}
    {memo : Memo R}
    {id : NodeId}
    {nodes : List NodeId}
    (hInside : id < plan.size)
    (hPending : plan.pending memo id = .ok nodes) :
    plan.Schedule memo id nodes := by
  have hSpec := @pending_spec R plan memo id hInside
  rwa [hPending] at hSpec

/-
  Nodes to compute are not found only if a needed node has
  an operand that does not come before it.
-/
theorem forward_of_pending
    {plan : Plan R}
    {memo : Memo R}
    {id : NodeId}
    {fault : Fault R}
    (hInside : id < plan.size)
    (hPending : plan.pending memo id = .error fault) :
    plan.Forward memo id fault := by
  have hSpec := @pending_spec R plan memo id hInside
  rwa [hPending] at hSpec

end Plan

end QuantumLab

------------------------------------------------------------
-- Nodes in use
------------------------------------------------------------

namespace QuantumLab

variable {R : Type}

/-
  Values are kept together with those of their operands.
  They need not be right, nor come from operands that precede
  their users.
-/
def Memo.Supported (plan : Plan R) (memo : Memo R) : Prop :=
  ∀ node operation, (memo.find? node).isSome = true →
    plan.operation? node = some operation →
      ∀ operand ∈ operation.operands,
        (memo.find? operand).isSome = true

namespace Plan

variable
  {plan : Plan R}
  {memo : Memo R}
  {id node : NodeId}
  {nodes : List NodeId}

/- A needed node is one that is used and not kept. -/
theorem Needs.unkept
    (hNeeds : plan.Needs memo id node)
    (hUnkept : memo.find? id = none) :
    memo.find? node = none := by
  cases hNeeds with
  | self => exact hUnkept
  | operand _ _ _ _ hNone => exact hNone

/- What a node rests on is kept or found. -/
theorem Schedule.kept_or_mem
    (hSchedule : plan.Schedule memo id nodes)
    (hSupported : memo.Supported plan)
    (hUses : plan.Uses id node) :
    (memo.find? node).isSome = true ∨ node ∈ nodes := by
  induction hUses with
  | self => exact .inr hSchedule.root
  | operand _ hOperation hOperand ih =>
      rcases ih with hKept | hMember
      · exact .inl (hSupported _ _ hKept hOperation _ hOperand)
      · exact (hSchedule.closed _ hMember _ hOperation _ hOperand).2

/- The nodes found are those that are used and not kept. -/
theorem Schedule.mem_iff
    (hSchedule : plan.Schedule memo id nodes)
    (hSupported : memo.Supported plan)
    (hUnkept : memo.find? id = none) :
    node ∈ nodes ↔ plan.Uses id node ∧ memo.find? node = none := by
  constructor
  · intro hMember
    have hNeeds := hSchedule.needed node hMember
    exact ⟨hNeeds.uses, hNeeds.unkept hUnkept⟩
  · rintro ⟨hUses, hNone⟩
    rcases hSchedule.kept_or_mem hSupported hUses with hKept | hMember
    · simp [hNone] at hKept
    · exact hMember

end Plan

end QuantumLab
