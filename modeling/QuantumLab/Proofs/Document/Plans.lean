import QuantumLab.Document.Plan
import QuantumLab.Plan.Execution
import QuantumLab.Proofs.Document.Values
import QuantumLab.Proofs.Execution.Verification

/-
  This file proves that a plan is read back from its
  document, and that a plan that verifies is read back from
  its text.  The numbers of a plan are machine words: nodes
  and times are counted in unsigned ones, the extents of
  matrices and vectors in signed ones.

  Key definitions include:
    * `Operation.Addressable`, `Plan.Addressable`
    * `Operation.reals`, `PlannedExperiment.reals`,
      `Plan.reals`

  Main statements:
    * `Operation.ofJson_toJson` and
      `PlannedExperiment.ofJson_toJson` say that the parts of
      a plan are read back from their documents.
    * `Plan.legible_toJson` says that the text of a plan that
      verifies can be read back.
    * `Plan.plan_read_back` says that a plan is read
      back and is executed with the same result.
-/

------------------------------------------------------------
-- Operations
------------------------------------------------------------

namespace QuantumLab

theorem Jump.ofJson_toJson
    (jump : Jump Float) :
    ofJson jump.toJson = .ok jump := by
  simp [ofJson, toJson, Rows.find?]

namespace Operation

/- The constants of an operation have extents in machine words. -/
def Addressable : Operation Float → Prop
  | loadMatrix _ data => data.Addressable
  | loadVector _ data => data.Addressable
  | _ => True

/-
  A constant is read from any document of its data.  The
  document is a variable here, so that nothing computes with
  the extents in it.
-/
theorem ofJson_loadMatrix
    {j : Json}
    {data : Mat Float}
    (id : NodeId)
    (name : String)
    (hData : Mat.ofJson j = .ok data) :
    ofJson
        (.ofMembers
          [("id", .nat id), ("op", .str "LoadMatrix"),
            ("name", .str name), ("data", j)]) =
      .ok (loadMatrix name data) := by
  simp [ofJson, Rows.find?, hData]

theorem ofJson_loadVector
    {j : Json}
    {data : Vec Float}
    (id : NodeId)
    (name : String)
    (hData : Vec.ofJson j = .ok data) :
    ofJson
        (.ofMembers
          [("id", .nat id), ("op", .str "LoadVector"),
            ("name", .str name), ("data", j)]) =
      .ok (loadVector name data) := by
  simp [ofJson, Rows.find?, hData]

/-
  An operation is read back from the document of its node,
  whatever the position.
-/
theorem ofJson_toJson
    {operation : Operation Float}
    (hAddressable : operation.Addressable)
    (id : NodeId) :
    ofJson (Node.toJson ⟨id, operation⟩) = .ok operation := by
  cases operation with
  | loadMatrix name data =>
      rw [Node.toJson]
      exact ofJson_loadMatrix id name (Mat.ofJson_toJson hAddressable)
  | loadVector name data =>
      rw [Node.toJson]
      exact ofJson_loadVector id name (Vec.ofJson_toJson hAddressable)
  | integrateLindblad hamiltonian initialState jumps times =>
      simp [ofJson, Node.toJson, word, members, Rows.find?,
        Json.mapM_elements_ofList fun jump _ => Jump.ofJson_toJson jump,
        Json.asList_ofList fun x _ => Json.asReal_real x]
  | measureProjective projectors state =>
      simp [ofJson, Node.toJson, word, members, Rows.find?,
        Json.asList_ofList fun n _ => Json.asNat_nat n]
  | _ => simp [ofJson, Node.toJson, word, members, Rows.find?]

end Operation

theorem Node.ofJson_toJson
    {node : Node Float}
    (hAddressable : node.operation.Addressable) :
    ofJson node.toJson = .ok node := by
  have hId : node.toJson.field "id" = .ok (.nat node.id) := by
    obtain ⟨id, operation⟩ := node
    cases operation <;> simp [toJson, Operation.members, Rows.find?]
  rw [ofJson, hId, ok_bind, Json.asNat_nat, ok_bind,
    Operation.ofJson_toJson hAddressable node.id]
  rfl

------------------------------------------------------------
-- Experiments
------------------------------------------------------------

theorem OutcomeKind.ofJson_word
    (kind : OutcomeKind) :
    ofJson (.str kind.word) = .ok kind := by
  simp [ofJson, ofWord?_word, known]

theorem EvolutionMethod.ofJson_word
    (method : EvolutionMethod) :
    ofJson (.str method.word) = .ok method := by
  simp [ofJson, ofWord?_word, known]

theorem PlannedEvolution.ofJson_toJson
    (evolution : PlannedEvolution Float) :
    ofJson evolution.toJson = .ok evolution := by
  simp [ofJson, toJson, Rows.find?, EvolutionMethod.ofJson_word,
    Json.mapM_elements_ofList fun jump _ => Jump.ofJson_toJson jump,
    Json.asList_ofList fun x _ => Json.asReal_real x]

theorem PlannedMeasurement.ofJson_toJson
    (m : PlannedMeasurement) :
    ofJson m.toJson = .ok m := by
  simp [ofJson, toJson, Rows.find?, OutcomeKind.ofJson_word,
    Json.asList_ofList fun n _ => Json.asNat_nat n]

theorem PlannedExperiment.ofJson_toJson
    (e : PlannedExperiment Float) :
    ofJson e.toJson = .ok e := by
  obtain ⟨name, initialState, evolution, measurements⟩ := e
  have hMeasurements :
      (Json.ofList PlannedMeasurement.toJson measurements).elements.mapM
          PlannedMeasurement.ofJson =
        .ok measurements :=
    Json.mapM_elements_ofList fun m _ =>
      PlannedMeasurement.ofJson_toJson m
  have hEvolution :
      (toJson ⟨name, initialState, evolution, measurements⟩).nullable
          "evolution" PlannedEvolution.ofJson =
        .ok evolution := by
    refine Json.nullable_ofOption ?_ (fun _ _ => Json.noConfusion)
      fun y _ => PlannedEvolution.ofJson_toJson y
    rw [toJson, Json.member?_ofMembers]
    rfl
  simp only [ofJson, hEvolution]
  simp [toJson, Rows.find?, Json.fieldOr_ofMembers, hMeasurements]

------------------------------------------------------------
-- Plans
------------------------------------------------------------

namespace Plan

/-
  The numbers of a plan are machine words: nodes and times
  are counted in unsigned ones, and the extents of constants
  are signed ones.
-/
structure Addressable (plan : Plan Float) : Prop where
  nodes : plan.size ≤ UInt64.size
  constants : ∀ operation ∈ plan.nodes.toList, operation.Addressable
  points : ∀ e ∈ plan.experiments, e.points ≤ UInt64.size

/- Nodes with consecutive positions are read back. -/
theorem readNodes_zipIdx
    (position : Nat)
    {operations : List (Operation Float)}
    (hAddressable : ∀ operation ∈ operations, operation.Addressable) :
    readNodes position
        (((operations.zipIdx position).map fun (operation, id) =>
          (⟨id, operation⟩ : Node Float)).map Node.toJson) =
      .ok operations := by
  induction operations generalizing position with
  | nil => rfl
  | cons operation operations ih =>
      have hNode :
          Node.ofJson (Node.toJson ⟨position, operation⟩) =
            .ok ⟨position, operation⟩ :=
        Node.ofJson_toJson (hAddressable operation List.mem_cons_self)
      have hLater := ih (position + 1) fun later hLater =>
        hAddressable later (List.mem_cons_of_mem _ hLater)
      rw [List.zipIdx_cons, List.map_cons, List.map_cons, readNodes, hNode,
        ok_bind, if_pos rfl, hLater, ok_bind]
      rfl

/- A plan is read back from its document. -/
theorem ofJson_toJson_of_addressable
    {plan : Plan Float}
    (hAddressable : plan.Addressable) :
    ofJson plan.toJson = .ok plan := by
  have hNodes := readNodes_zipIdx 0 hAddressable.constants
  have hExperiments :
      (Json.ofList PlannedExperiment.toJson plan.experiments).elements.mapM
          PlannedExperiment.ofJson =
        .ok plan.experiments :=
    Json.mapM_elements_ofList fun e _ => PlannedExperiment.ofJson_toJson e
  have hField :
      plan.toJson.field "nodes" =
        .ok (Json.ofList Node.toJson plan.nodeList) := by
    rw [toJson, Json.field_ofMembers]
    rfl
  have hOptional :
      plan.toJson.fieldOr "experiments" .ok (.arr []) =
        .ok (Json.ofList PlannedExperiment.toJson plan.experiments) := by
    rw [toJson, Json.fieldOr_ofMembers]
    rfl
  rw [ofJson, hField, ok_bind]
  rw [show (Json.ofList Node.toJson plan.nodeList).elements =
    plan.nodeList.map Node.toJson from rfl, nodeList, hNodes, ok_bind,
    hOptional, ok_bind, hExperiments, ok_bind]
  rfl

end Plan

------------------------------------------------------------
-- Texts of operations
------------------------------------------------------------

variable {number : Float → String}

open Json.Text (ReadsBack)

theorem legible_nats
    {ids : List Nat}
    (hWords : ∀ id ∈ ids, id < UInt64.size) :
    Json.Legible number (Json.ofList Json.nat ids) :=
  .ofList fun id hId => .nat (hWords id hId)

theorem legible_reals
    {xs : List Float}
    (hReads : ∀ x ∈ xs, ReadsBack number x) :
    Json.Legible number (Json.ofList Json.real xs) :=
  .ofList fun x hx => .real (hReads x hx)

theorem legible_jumps
    {jumps : List (Jump Float)}
    (hOperators : ∀ jump ∈ jumps, jump.operator < UInt64.size)
    (hRates : ∀ x ∈ jumps.map Jump.rate, ReadsBack number x) :
    Json.Legible number (Json.ofList Jump.toJson jumps) := by
  refine .ofList fun jump hJump => .ofMembers ?_
  exact .cons (.nat (hOperators jump hJump))
    (.cons (.real (hRates _ (List.mem_map_of_mem hJump))) .nil)

namespace Operation

/- The real numbers of an operation. -/
def reals : Operation Float → List Float
  | loadMatrix _ data => data.reals
  | loadVector _ data => data.reals
  | scalar _ value => value.reals
  | unitaryPropagator _ time => [time]
  | integrateLindblad _ _ jumps times => jumps.map Jump.rate ++ times
  | _ => []

/- The text of an operation can be read back. -/
theorem legible_members
    {operation : Operation Float}
    (hAddressable : operation.Addressable)
    (hOperands : ∀ id ∈ operation.operands, id < UInt64.size)
    (hReads : ∀ x ∈ operation.reals, ReadsBack number x) :
    ∀ m ∈ operation.members, Json.Legible number m.2 := by
  cases operation with
  | loadMatrix name data =>
      exact .cons .str
        (.cons (Mat.legible_toJson hAddressable hReads) .nil)
  | loadVector name data =>
      exact .cons .str
        (.cons (Vec.legible_toJson hAddressable hReads) .nil)
  | scalar name value =>
      exact .cons .str (.cons (Scalar.legible_toJson hReads) .nil)
  | unitaryPropagator hamiltonian time =>
      have hHamiltonian := hOperands hamiltonian (by simp [operands])
      have hTime := hReads time (by simp [reals])
      exact .cons (.nat hHamiltonian) (.cons (.real hTime) .nil)
  | integrateLindblad hamiltonian initialState jumps times =>
      have hHamiltonian := hOperands hamiltonian (by simp [operands])
      have hInitial := hOperands initialState (by simp [operands])
      have hOperators : ∀ jump ∈ jumps, jump.operator < UInt64.size :=
        fun jump hJump => hOperands _
          (by simpa [operands] using .inr (.inr ⟨jump, hJump, rfl⟩))
      rcases List.forall_mem_append.1 hReads with ⟨hRates, hTimes⟩
      exact .cons (.nat hHamiltonian) (.cons (.nat hInitial)
        (.cons (legible_jumps hOperators hRates)
          (.cons (legible_reals hTimes) .nil)))
  | measureProjective projectors state =>
      rcases List.forall_mem_append.1 hOperands with
        ⟨hProjectors, hState⟩
      exact .cons (legible_nats hProjectors)
        (.cons (.nat (hState state List.mem_cons_self)) .nil)
  | matrixAdd lhs rhs
  | matrixMul lhs rhs
  | scalarMul lhs rhs
  | tensorProduct lhs rhs
  | commutator lhs rhs
  | applyUnitaryKet lhs rhs
  | applyUnitaryRho lhs rhs
  | measureExpectation lhs rhs =>
      have hLhs := hOperands lhs (by simp [operands])
      have hRhs := hOperands rhs (by simp [operands])
      exact .cons (.nat hLhs) (.cons (.nat hRhs) .nil)
  | dagger operand
  | trace operand
  | matrixExp operand =>
      exact .cons (.nat (hOperands operand List.mem_cons_self)) .nil

end Operation

theorem Node.legible_toJson
    {node : Node Float}
    (hId : node.id < UInt64.size)
    (hAddressable : node.operation.Addressable)
    (hOperands : ∀ id ∈ node.operation.operands, id < UInt64.size)
    (hReads : ∀ x ∈ node.operation.reals, ReadsBack number x) :
    Json.Legible number node.toJson :=
  .ofMembers (.cons (.nat hId) (.cons .str
    (Operation.legible_members hAddressable hOperands hReads)))

------------------------------------------------------------
-- Texts of experiments
------------------------------------------------------------

/- The real numbers of an evolution. -/
def PlannedEvolution.reals (evolution : PlannedEvolution Float) :
    List Float :=
  evolution.jumps.map Jump.rate ++ evolution.times

/- The real numbers of an experiment. -/
def PlannedExperiment.reals (e : PlannedExperiment Float) : List Float :=
  e.evolution.elim [] PlannedEvolution.reals

theorem PlannedEvolution.legible_toJson
    {evolution : PlannedEvolution Float}
    (hHamiltonian : evolution.hamiltonian < UInt64.size)
    (hOperators : ∀ jump ∈ evolution.jumps, jump.operator < UInt64.size)
    (hReads : ∀ x ∈ evolution.reals, ReadsBack number x) :
    Json.Legible number evolution.toJson := by
  rcases List.forall_mem_append.1 hReads with ⟨hRates, hTimes⟩
  exact .ofMembers (.cons .str (.cons (.nat hHamiltonian)
    (.cons (legible_jumps hOperators hRates)
      (.cons (legible_reals hTimes) .nil))))

theorem PlannedMeasurement.legible_toJson
    {m : PlannedMeasurement}
    (hTime : m.timeIndex < UInt64.size)
    (hOperators : ∀ id ∈ m.operators, id < UInt64.size) :
    Json.Legible number m.toJson :=
  .ofMembers (.cons .str (.cons (.nat hTime) (.cons .str
    (.cons (legible_nats hOperators) .nil))))

/-
  The text of an experiment can be read back: it refers to
  nodes of the plan and to points of its grid only.
-/
theorem PlannedExperiment.legible_toJson
    {plan : Plan Float}
    {e : PlannedExperiment Float}
    (hSize : plan.size ≤ UInt64.size)
    (hPoints : e.points ≤ UInt64.size)
    (hRefers : plan.Refers e)
    (hProper : ∀ m ∈ e.measurements, m.IsProper e.points)
    (hReads : ∀ x ∈ e.reals, ReadsBack number x) :
    Json.Legible number e.toJson := by
  have hEvolution :
      Json.Legible number
        (Json.ofOption PlannedEvolution.toJson e.evolution) := by
    refine .ofOption fun evolution hEvolution => ?_
    have hReals : e.reals = evolution.reals := by
      rw [reals, Option.mem_def.1 hEvolution, Option.elim_some]
    exact PlannedEvolution.legible_toJson
      (Nat.lt_of_lt_of_le (hRefers.hamiltonian _ hEvolution) hSize)
      (fun jump hJump => Nat.lt_of_lt_of_le
        (hRefers.jumps _ hEvolution jump hJump) hSize)
      (hReals ▸ hReads)
  have hMeasurements :
      Json.Legible number
        (Json.ofList PlannedMeasurement.toJson e.measurements) :=
    .ofList fun m hMember => PlannedMeasurement.legible_toJson
      (Nat.lt_of_lt_of_le (hProper m hMember).inside hPoints)
      fun id hId => Nat.lt_of_lt_of_le
        (hRefers.operators m hMember id hId) hSize
  have hInitial : e.initialState < UInt64.size :=
    Nat.lt_of_lt_of_le hRefers.initialState hSize
  exact .ofMembers (.cons .str (.cons (.nat hInitial)
    (.cons hEvolution (.cons hMeasurements .nil))))

------------------------------------------------------------
-- Texts of plans
------------------------------------------------------------

namespace Plan

/- The real numbers of a plan. -/
def reals (plan : Plan Float) : List Float :=
  plan.nodes.toList.flatMap Operation.reals ++
    plan.experiments.flatMap PlannedExperiment.reals

/-
  The text of a plan that verifies can be read back if the
  texts of its real numbers can: every integer in it is a
  node, an extent or a time index.
-/
theorem legible_toJson
    {plan : Plan Float}
    (hAddressable : plan.Addressable)
    (hPlan : plan.WellFormed)
    (hReads : ∀ x ∈ plan.reals, ReadsBack number x) :
    Json.Legible number plan.toJson := by
  rcases List.forall_mem_append.1 hReads with
    ⟨hOperations, hExperiments⟩
  have hNodes :
      Json.Legible number (Json.ofList Node.toJson plan.nodeList) := by
    refine .ofList fun node hNode => ?_
    have hOperation := mem_nodeList_iff.1 hNode
    have hMember : node.operation ∈ plan.nodes.toList :=
      Array.mem_toList_iff.2 (Array.mem_of_getElem? hOperation)
    have hId : node.id < UInt64.size :=
      Nat.lt_of_lt_of_le (Array.getElem?_eq_some_iff.1 hOperation).1
        hAddressable.nodes
    refine Node.legible_toJson hId (hAddressable.constants _ hMember) ?_ ?_
    · intro operand hOperand
      exact Nat.lt_trans (hPlan.backward _ _ hOperation operand hOperand)
        hId
    · intro x hx
      exact hOperations x (List.mem_flatMap.2 ⟨_, hMember, hx⟩)
  have hPlanned :
      Json.Legible number
        (Json.ofList PlannedExperiment.toJson plan.experiments) :=
    .ofList fun e hMember => PlannedExperiment.legible_toJson
      hAddressable.nodes (hAddressable.points e hMember)
      (hPlan.refers e hMember) (hPlan.proper e hMember)
      fun x hx => hExperiments x (List.mem_flatMap.2 ⟨e, hMember, hx⟩)
  exact .ofMembers (.cons hNodes (.cons hPlanned .nil))

/-
  A plan is read back from its document.  A plan that
  verifies and whose numbers are finite is also read back
  from its text, if the texts of its finite numbers are; so
  it is executed with the same result.
-/
theorem plan_read_back
    {plan : Plan Float}
    (hAddressable : plan.Addressable) :
    ofJson plan.toJson = .ok plan ∧
      ∀ number : Float → String,
        (∀ x ∈ plan.reals,
          (Double.parts? x).isSome → ReadsBack number x) →
          (∀ x ∈ plan.reals, (Double.parts? x).isSome) →
            plan.verify = .ok () →
              parse (plan.toJson.renderWith number) = .ok plan ∧
                ∀ parsed, parse (plan.toJson.renderWith number) =
                    .ok parsed →
                  ∀ config tolerance,
                    parsed.execute config tolerance =
                      plan.execute config tolerance := by
  have hRead := ofJson_toJson_of_addressable hAddressable
  refine ⟨hRead, fun number hNumber hFinite hVerified => ?_⟩
  have hLegible : Json.Legible number plan.toJson :=
    legible_toJson hAddressable (verify_eq_ok_iff.1 hVerified)
      fun x hx => hNumber x hx (hFinite x hx)
  have hParsed : parse (plan.toJson.renderWith number) = .ok plan := by
    simp only [parse, readDocument, parseDocument,
      Json.parse?_renderWith hLegible, ok_bind, hRead, hVerified]
    rfl
  refine ⟨hParsed, fun parsed hAgain config tolerance => ?_⟩
  rw [Except.ok.inj (hAgain.symm.trans hParsed)]

/- A spin that decays, with a constant without rows. -/
def decayingSpin : Plan Float :=
  { nodes :=
      #[.loadMatrix "H"
          (.ofEntries 2 2 #[⟨1, 0⟩, ⟨0, 0⟩, ⟨0, 0⟩, ⟨-1, 0⟩]),
        .loadVector "psi" ⟨#[⟨0.6, 0⟩, ⟨0, 0.8⟩]⟩,
        .loadMatrix "none" (.ofEntries 0 3 #[]),
        .scalar "half" ⟨0.5, 0⟩,
        .scalarMul 3 0]
    experiments :=
      [⟨"decay \"1\"", 1, some ⟨.lindblad, 4, [⟨0, 0.1⟩], [0, 0.25]⟩,
        [⟨"energy", 1, .observable, [4]⟩]⟩] }

/- Its numbers have texts that read back. -/
theorem readsBack_decayingSpin :
    ∀ x ∈ decayingSpin.reals, ReadsBack Double.shortestText x := by
  have hText (x : Float) (text : String)
      (hShortest : Double.shortestText x = text)
      (hNumber : Json.Text.number? text.toList = some (.real x, [])) :
      ReadsBack Double.shortestText x := by
    rwa [ReadsBack, hShortest]
  have hReals : decayingSpin.reals =
      [1, 0, 0, 0, 0, 0, -1, 0, 0.6, 0, 0, 0.8, 0.5, 0, 0.1, 0, 0.25] := by
    decide +kernel
  rw [hReals]
  simp only [List.forall_mem_cons, List.not_mem_nil, false_imp_iff,
    implies_true, and_true]
  have hZero := hText 0 "0.0" (by decide +kernel) rfl
  have hOne := hText 1 "1.0" (by decide +kernel) rfl
  have hMinus := hText (-1) "-1.0" (by decide +kernel) rfl
  exact ⟨hOne, hZero, hZero, hZero, hZero, hZero, hMinus, hZero,
    hText 0.6 "0.6" (by decide +kernel) rfl, hZero, hZero,
    hText 0.8 "0.8" (by decide +kernel) rfl,
    hText 0.5 "0.5" (by decide +kernel) rfl, hZero,
    hText 0.1 "0.1" (by decide +kernel) rfl, hZero,
    hText 0.25 "0.25" (by decide +kernel) rfl⟩

theorem plan_read_back_decayingSpin :
    ofJson decayingSpin.toJson = .ok decayingSpin ∧
      parse (decayingSpin.toJson.renderWith Double.shortestText) =
        .ok decayingSpin := by
  have hAddressable : decayingSpin.Addressable := by
    refine ⟨by decide, ?_, by decide⟩
    simp only [decayingSpin, List.forall_mem_cons, List.not_mem_nil,
      false_imp_iff, implies_true, and_true, Operation.Addressable]
    exact ⟨⟨by decide, by decide, by decide⟩,
      show 2 < Nat.pow 2 63 by decide, by decide, by decide, by decide⟩
  have hRead := plan_read_back hAddressable
  refine ⟨hRead.1, (hRead.2 Double.shortestText ?_ ?_ ?_).1⟩
  · exact fun x hx _ => readsBack_decayingSpin x hx
  · decide +kernel
  · decide +kernel

end Plan

end QuantumLab
