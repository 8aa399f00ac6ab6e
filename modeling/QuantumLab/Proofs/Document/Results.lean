import QuantumLab.Document.Result
import QuantumLab.Proofs.Document.Plans

/-
  This file proves that results and reports are read back
  from their documents.  A result has a member for each of
  its parts, which is null where an outcome has no
  expectation.  A report has members only for the parts that
  it carries, and the name of a declaration only next to an
  invariant.

  Key definitions include:
    * `Report.documented`
    * `Report.Issued`

  Main statements:
    * `ExecutionResult.ofJson_toJson` says that results are
      read back.
    * `Report.ofJson_toJson` says what is read from the
      document of any report.
    * `Fault.issued_report` says that every fault is reported
      by an issued report.
    * `results_and_reports_read_back` says that results and
      issued reports are read back.
-/

namespace QuantumLab

------------------------------------------------------------
-- Results
------------------------------------------------------------

theorem StateType.ofJson_word
    (type : StateType) :
    ofJson (.str type.word) = .ok type := by
  simp [ofJson, ofWord?_word, known]

theorem Outcome.member?_expectation
    (outcome : Outcome Float) :
    outcome.toJson.member? "expectation_value" =
      some (Json.ofOption Json.real outcome.expectation) := by
  rw [toJson, Json.member?_ofMembers]
  rfl

theorem Outcome.ofJson_toJson
    (outcome : Outcome Float) :
    ofJson outcome.toJson = .ok outcome := by
  have hExpectation :
      outcome.toJson.nullable "expectation_value" Json.asReal =
        .ok outcome.expectation :=
    Json.nullable_ofOption outcome.member?_expectation
      (fun _ _ => nofun) (fun x _ => Json.asReal_real x)
  rw [ofJson, hExpectation]
  simp [toJson, Rows.find?, OutcomeKind.ofJson_word,
    Json.asList_ofList fun x _ => Json.asReal_real x]

theorem ExperimentResult.ofJson_toJson
    (result : ExperimentResult Float) :
    ofJson result.toJson = .ok result := by
  simp [ofJson, toJson, Rows.find?, StateType.ofJson_word,
    Json.asList_ofList fun x _ => Json.asReal_real x,
    Json.asList_ofList fun outcome _ => Outcome.ofJson_toJson outcome]

theorem ExecutionResult.ofJson_toJson
    (result : ExecutionResult Float) :
    ofJson result.toJson = .ok result := by
  simp [ofJson, toJson, Rows.find?,
    Json.asList_ofList fun e _ => ExperimentResult.ofJson_toJson e]

------------------------------------------------------------
-- Members that may be absent
------------------------------------------------------------

section Members

variable
  {α : Type}
  {encode : α → Json}
  {x : Option α}

@[simp] theorem reverse_presentMember
    (name : String) :
    (presentMember name encode x).reverse =
      presentMember name encode x := by
  cases x <;> rfl

/- Under its name a value is found if it is there. -/
@[simp] theorem find?_presentMember
    (name key : String) :
    Rows.find? key (presentMember name encode x) =
      if name = key then x.map encode else none := by
  cases x with
  | none => simp [presentMember, Rows.find?]
  | some y => simp [presentMember, Rows.find?]

/- A value that is absent if there is none is read back. -/
theorem Json.optional_of_member?
    {name : String}
    {decode : Json → Decode α}
    {j : Json}
    (hMember : j.member? name = x.map encode)
    (hRead : ∀ y, decode (encode y) = .ok y) :
    j.optional name decode = .ok x := by
  rw [optional, hMember]
  cases x with
  | none => rfl
  | some y =>
      rw [Option.map_some]
      simp only [hRead y]
      rfl

end Members

------------------------------------------------------------
-- Reports
------------------------------------------------------------

namespace Report

/-
  What the document of a report keeps: the declaration is
  only written next to an invariant.
-/
def documented {R : Type} (r : Report R) : Report R :=
  { r with declaration := r.invariant.elim "" fun _ => r.declaration }

variable (r : Report Float)

/- The members that go with an invariant. -/
def invariantMembers : List (String × Json) :=
  match r.invariant with
  | some invariant =>
      [("invariant", .str invariant.word),
        ("declaration_name", .str r.declaration)]
  | none => []

theorem toJson_eq :
    r.toJson =
      .ofMembers
        ([("kind", .str r.kind.word), ("message", .str r.message)]
          ++ r.invariantMembers
          ++ presentMember "deviation" Json.real r.deviation
          ++ presentMember "expected_shape" Shape.toJson r.expected
          ++ presentMember "actual_shape" Shape.toJson r.actual
          ++ presentMember "node_id" Json.nat r.node) :=
  rfl

theorem find?_invariantMembers
    (key : String) :
    Rows.find? key r.invariantMembers.reverse =
      if "invariant" = key then
        r.invariant.map fun invariant => .str invariant.word
      else if "declaration_name" = key then
        r.invariant.map fun _ => .str r.declaration
      else
        none := by
  cases hInvariant : r.invariant with
  | none => simp [invariantMembers, hInvariant, Rows.find?]
  | some invariant =>
      by_cases hKey : "invariant" = key
      · subst hKey
        simp [invariantMembers, hInvariant, Rows.find?]
      · simp [invariantMembers, hInvariant, Rows.find?, hKey]

/- No name is given to two members, so each is found where it is written. -/
theorem member?_toJson
    (key : String) :
    r.toJson.member? key =
      ((if "node_id" = key then r.node.map .nat else none).or
        ((if "actual_shape" = key then r.actual.map Shape.toJson
          else none).or
        ((if "expected_shape" = key then r.expected.map Shape.toJson
          else none).or
        ((if "deviation" = key then r.deviation.map .real else none).or
        ((if "invariant" = key then
            r.invariant.map fun invariant => .str invariant.word
          else if "declaration_name" = key then
            r.invariant.map fun _ => .str r.declaration
          else none).or
        (if "message" = key then some (.str r.message)
          else if "kind" = key then some (.str r.kind.word)
          else none)))))) := by
  simp only [toJson_eq, Json.member?_ofMembers, List.reverse_append,
    Rows.find?_append, reverse_presentMember, find?_presentMember,
    find?_invariantMembers]
  simp [Rows.find?]

/- The report of a document has all parts that the document keeps. -/
theorem ofJson_toJson :
    ofJson r.toJson = .ok r.documented := by
  have hField {key : String} {x : Json}
      (hMember : r.toJson.member? key = some x) :
      r.toJson.field key = .ok x := by
    rw [Json.field, hMember]
  have hKind : r.toJson.field "kind" = .ok (.str r.kind.word) :=
    hField (by simp [member?_toJson])
  have hMessage : r.toJson.field "message" = .ok (.str r.message) :=
    hField (by simp [member?_toJson])
  have hWord : r.toJson.member? "invariant" =
      r.invariant.map fun invariant => .str invariant.word := by
    simp [member?_toJson]
  have hInvariant :
      r.toJson.optional "invariant" readInvariant = .ok r.invariant :=
    Json.optional_of_member? hWord fun invariant => by
      simp [readInvariant, Invariant.ofWord?_word, known]
  have hNode : r.toJson.optional "node_id" Json.asNat = .ok r.node :=
    Json.optional_of_member? (by simp [member?_toJson]) Json.asNat_nat
  have hActual :
      r.toJson.optional "actual_shape" Shape.ofJson = .ok r.actual :=
    Json.optional_of_member? (by simp [member?_toJson])
      Shape.ofJson_toJson
  have hExpected :
      r.toJson.optional "expected_shape" Shape.ofJson =
        .ok r.expected :=
    Json.optional_of_member? (by simp [member?_toJson])
      Shape.ofJson_toJson
  have hDeviation :
      r.toJson.optional "deviation" Json.asReal = .ok r.deviation :=
    Json.optional_of_member? (by simp [member?_toJson])
      Json.asReal_real
  have hDeclaration :
      r.toJson.fieldOr "declaration_name" Json.asString "" =
        .ok r.documented.declaration := by
    rw [toJson_eq, Json.fieldOr_ofMembers, ← Json.member?_ofMembers,
      ← toJson_eq, member?_toJson]
    cases hInvariant : r.invariant with
    | none => simp [documented, hInvariant]
    | some invariant => simp [documented, hInvariant]
  simp only [ofJson, hKind, hInvariant, hNode, hActual, hExpected,
    hDeviation, hDeclaration, hMessage, ok_bind, Json.asString_str,
    FaultKind.ofWord?_word, known]
  rfl

theorem documented_eq_iff
    {R : Type}
    {r : Report R} :
    r.documented = r ↔ (r.invariant = none → r.declaration = "") := by
  obtain ⟨kind, message, invariant, declaration⟩ := r
  cases invariant with
  | none => simp [documented, eq_comm]
  | some invariant => simp [documented]

/-
  A report is read back if it names a declaration only with
  an invariant.
-/
theorem ofJson_toJson_eq_ok_iff :
    ofJson r.toJson = .ok r ↔
      (r.invariant = none → r.declaration = "") := by
  rw [ofJson_toJson, ← documented_eq_iff]
  exact ⟨Except.ok.inj, congrArg Except.ok⟩

end Report

------------------------------------------------------------
-- Issued reports
------------------------------------------------------------

section Issued

variable {R : Type} [Arithmetic R]

/-
  The reports that the engine makes: each kind of fault has
  a way to report it, and a report may be blamed on nodes
  afterwards, any number of times.
-/
inductive Report.Issued : Report R → Prop
  | type (message : String) : Issued (.plain .type message)
  | violation
      (invariant : Invariant)
      (declaration : String)
      (deviation : R)
      (detail : String) :
      Issued (.violation invariant declaration deviation detail)
  | mismatch (expected actual : Shape) (subject : String) :
      Issued (.mismatch expected actual subject)
  | unsupported (message : String) :
      Issued (.plain .unsupported message)
  | internal (message : String) : Issued (.plain .internal message)
  | execution (message : String) (node : Option Nat) :
      Issued (.execution message node)
  | atNode {r : Report R} (id : Nat) : Issued r → Issued (r.atNode id)

namespace Report

/- An issued report names a declaration only with an invariant. -/
theorem Issued.declaration_eq
    {r : Report R}
    (hIssued : r.Issued)
    (hNone : r.invariant = none) :
    r.declaration = "" := by
  induction hIssued with
  | violation invariant declaration deviation detail => cases hNone
  | atNode id _ ih => exact ih hNone
  | type message => rfl
  | mismatch expected actual subject => rfl
  | unsupported message => rfl
  | internal message => rfl
  | execution message node => rfl

/- A report that is blamed on no node may be blamed on one or none. -/
theorem Issued.blame
    {r : Report R}
    (hIssued : r.Issued)
    (hFree : r.node = none)
    (node : Option Nat) :
    Issued { r with node } := by
  cases node with
  | none => exact hFree ▸ hIssued
  | some id =>
      have hBlamed : r.atNode id = { r with node := some id } := by
        rw [Report.atNode, hFree, Option.getD_none]
      exact hBlamed ▸ hIssued.atNode id

theorem issued_plain
    {kind : FaultKind}
    (hInvariant : kind ≠ .validation)
    (hShapes : kind ≠ .dimensionMismatch)
    (message : String) :
    (plain kind message : Report R).Issued := by
  cases kind with
  | type => exact .type message
  | unsupported => exact .unsupported message
  | internal => exact .internal message
  | execution => exact .execution message none
  | validation => exact absurd rfl hInvariant
  | dimensionMismatch => exact absurd rfl hShapes

end Report

/- Every fault is reported by an issued report. -/
theorem Fault.issued_report
    (fault : Fault R) :
    fault.report.Issued := by
  obtain ⟨cause, node⟩ := fault
  cases cause with
  | violation invariant declaration deviation detail =>
      exact Report.Issued.blame (.violation _ _ _ _) rfl node
  | mismatch expected actual subject =>
      exact Report.Issued.blame (.mismatch _ _ _) rfl node
  | _ =>
      refine Report.Issued.blame (r := .plain _ _) ?_ rfl node
      apply Report.issued_plain
      · nofun
      · nofun

end Issued

------------------------------------------------------------
-- Results and reports
------------------------------------------------------------

/-
  Results are read back from their documents, and so are the
  reports that the engine issues, with all of their parts
  and the same text.  Among these are the reports of all
  faults.  Of other reports those are read back that name a
  declaration only with an invariant.
-/
theorem results_and_reports_read_back :
    (∀ result : ExecutionResult Float,
      ExecutionResult.ofJson result.toJson = .ok result) ∧
    (∀ r : Report Float, r.Issued →
      Report.ofJson r.toJson = .ok r ∧
        Report.text <$> Report.ofJson r.toJson = .ok r.text) ∧
    (∀ fault : Fault Float,
      Report.ofJson fault.report.toJson = .ok fault.report) ∧
    ∀ r : Report Float, Report.ofJson r.toJson = .ok r ↔
      (r.invariant = none → r.declaration = "") := by
  have hIssued (r : Report Float) (hIssued : r.Issued) :
      Report.ofJson r.toJson = .ok r :=
    r.ofJson_toJson_eq_ok_iff.2 hIssued.declaration_eq
  refine ⟨ExecutionResult.ofJson_toJson, fun r hReport => ?_,
    fun fault => hIssued _ fault.issued_report,
    Report.ofJson_toJson_eq_ok_iff⟩
  refine ⟨hIssued r hReport, ?_⟩
  rw [hIssued r hReport]
  rfl

/- A violated invariant that two nodes were blamed for. -/
theorem results_and_reports_read_back_twiceBlamed :
    let r : Report Float :=
      ((Report.violation .hermiticity "H" 0.5 "").atNode 3).atNode 7
    r.Issued ∧ r.node = some 3 ∧ Report.ofJson r.toJson = .ok r := by
  have hIssued : (((Report.violation .hermiticity "H" 0.5 "" :
      Report Float).atNode 3).atNode 7).Issued :=
    .atNode 7 (.atNode 3 (.violation _ _ _ _))
  exact ⟨hIssued, rfl,
    (results_and_reports_read_back.2.1 _ hIssued).1⟩

end QuantumLab
