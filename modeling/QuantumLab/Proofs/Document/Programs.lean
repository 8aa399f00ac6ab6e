import QuantumLab.Document.Program
import QuantumLab.Plan.Lowering
import QuantumLab.Proofs.Document.Values
import QuantumLab.Proofs.Evaluation.Expressions

/-
  This file proves that a validated program is read back from
  its document.  Expressions nest: an expression is read with
  as much fuel as its document is deep, and each of its parts
  lies deeper in the document.

  Main statements:
    * `Json.depth_lt_of_member?` and `Json.depth_lt_of_mem`
      say that the parts of a document are less deep.
    * `Expr.ofJson_toJson` says that every expression is read
      back, with missing parts and all.
    * `Statement.ofJson_of_toJson` says that every statement
      is read back that has a document.
    * `ValidatedProgram.validated_program_read_back` says that a
      validated program is read back and is lowered to the
      same plan.
-/

------------------------------------------------------------
-- Depth of documents
------------------------------------------------------------

namespace QuantumLab

namespace Json

theorem depth_le_depthOfElements
    {x : Json}
    {xs : List Json}
    (hMember : x ∈ xs) :
    x.depth ≤ depthOfElements xs := by
  induction xs with
  | nil => cases hMember
  | cons y xs ih =>
      rw [depthOfElements]
      rcases List.mem_cons.1 hMember with rfl | hLater
      · exact Nat.le_max_left _ _
      · exact Nat.le_trans (ih hLater) (Nat.le_max_right _ _)

theorem depth_le_depthOfMembers
    {name : String}
    {x : Json}
    {members : List (String × Json)}
    (hMember : (name, x) ∈ members) :
    x.depth ≤ depthOfMembers members := by
  induction members with
  | nil => cases hMember
  | cons m members ih =>
      obtain ⟨key, y⟩ := m
      rw [depthOfMembers]
      rcases List.mem_cons.1 hMember with heq | hLater
      · cases heq
        exact Nat.le_max_left _ _
      · exact Nat.le_trans (ih hLater) (Nat.le_max_right _ _)

/- An element of an array is less deep. -/
theorem depth_lt_of_mem
    {x : Json}
    {xs : List Json}
    (hMember : x ∈ xs) :
    x.depth < (arr xs).depth := by
  rw [depth]
  exact Nat.lt_succ_of_le (depth_le_depthOfElements hMember)

/- A member of an object is less deep. -/
theorem depth_lt_of_member?
    {name : String}
    {j x : Json}
    (hMember : j.member? name = some x) :
    x.depth < j.depth := by
  cases j with
  | obj members =>
      rw [depth]
      exact Nat.lt_succ_of_le
        (depth_le_depthOfMembers (Rows.mem_of_find? hMember))
  | _ => cases hMember

@[simp] theorem ofMembers_ne_null
    (members : List (String × Json)) :
    ofMembers members ≠ null :=
  Json.noConfusion

/-
  Fuel for an object leaves fuel for each of its members.
-/
theorem exists_fuel_of_depth
    {members : List (String × Json)}
    {fuel : Nat}
    (hFuel : (ofMembers members).depth ≤ fuel) :
    ∃ rest, fuel = rest + 1 ∧
      ∀ name x, Rows.find? name members.reverse = some x →
        x.depth ≤ rest := by
  have hParts : ∀ name x, Rows.find? name members.reverse = some x →
      x.depth < (ofMembers members).depth := fun name x hFound =>
    depth_lt_of_member? ((member?_ofMembers members name).trans hFound)
  cases fuel with
  | zero =>
      rw [ofMembers, depth] at hFuel
      exact absurd hFuel (Nat.not_succ_le_zero _)
  | succ rest =>
      refine ⟨rest, rfl, fun name x hFound => ?_⟩
      exact Nat.le_of_lt_succ
        (Nat.lt_of_lt_of_le (hParts name x hFound) hFuel)

end Json

------------------------------------------------------------
-- Expressions
------------------------------------------------------------

namespace Expr

theorem readBinaryOp_word
    (op : BinaryOp) :
    readBinaryOp (.str op.word) = .ok op := by
  simp [readBinaryOp, BinaryOp.ofWord?_word, known]

theorem readUnaryOp_word
    (op : UnaryOp) :
    readUnaryOp (.str op.word) = .ok op := by
  simp [readUnaryOp, UnaryOp.ofWord?_word, known]

theorem elementsToJson_eq_map
    (elements : List (Expr Float)) :
    elementsToJson elements = elements.map toJson := by
  induction elements with
  | nil => rfl
  | cons e elements ih => rw [elementsToJson, ih, List.map_cons]

theorem rowsToJson_eq_map
    (rows : List (List (Expr Float))) :
    rowsToJson rows = rows.map (Json.ofList toJson) := by
  induction rows with
  | nil => rfl
  | cons row rows ih =>
      rw [rowsToJson, ih, List.map_cons, elementsToJson_eq_map]
      rfl

/-
  An expression is read back with as much fuel as its
  document is deep.
-/
def Recovers (e : Expr Float) : Prop :=
  ∀ fuel, e.toJson.depth ≤ fuel → ofJsonWithin fuel e.toJson = .ok e

/- Parts that lie in one array are read back from it. -/
theorem mapM_ofJsonWithin
    {elements : List (Expr Float)}
    {fuel : Nat}
    (hElements : ∀ e ∈ elements, e.Recovers)
    (hFuel : (Json.ofList toJson elements).depth ≤ fuel) :
    (Json.ofList toJson elements).elements.mapM (ofJsonWithin fuel) =
      .ok elements := by
  refine Json.mapM_elements_ofList fun e hMember => ?_
  have hDepth : e.toJson.depth < (Json.ofList toJson elements).depth :=
    Json.depth_lt_of_mem (List.mem_map_of_mem hMember)
  exact hElements e hMember fuel
    (Nat.le_of_lt (Nat.lt_of_lt_of_le hDepth hFuel))

/-
  Every expression is read back.  The induction is on the
  expression; the parts of an object have the fuel that is
  left after it.
-/
theorem recovers
    (e : Expr Float) :
    e.Recovers := by
  induction e using Expr.induction with
  | missing =>
      intro fuel _
      rw [toJson, ofJsonWithin]
  | number z =>
      intro fuel hFuel
      rw [toJson] at hFuel ⊢
      rcases Json.exists_fuel_of_depth hFuel with ⟨rest, rfl, _⟩
      simp [ofJsonWithin, Rows.find?]
  | identifier name =>
      intro fuel hFuel
      rw [toJson] at hFuel ⊢
      rcases Json.exists_fuel_of_depth hFuel with ⟨rest, rfl, _⟩
      simp [ofJsonWithin, Rows.find?]
  | matrix rows ih =>
      intro fuel hFuel
      rw [toJson, rowsToJson_eq_map] at hFuel ⊢
      rcases Json.exists_fuel_of_depth hFuel with ⟨rest, rfl, hParts⟩
      have hDepth := hParts "rows" _ rfl
      have hRows :
          (Json.ofList (Json.ofList toJson) rows).elements.mapM
              (fun j => j.elements.mapM (ofJsonWithin rest)) =
            .ok rows :=
        Json.mapM_elements_ofList fun row hRow =>
          mapM_ofJsonWithin (ih row hRow) (Nat.le_of_lt
            (Nat.lt_of_lt_of_le
              (Json.depth_lt_of_mem (List.mem_map_of_mem hRow)) hDepth))
      change ofJsonWithin (rest + 1)
        (.ofMembers [("expr", .str "Matrix"),
          ("rows", Json.ofList (Json.ofList toJson) rows)]) = _
      simp [ofJsonWithin, Rows.find?, hRows]
  | vector elements ih =>
      intro fuel hFuel
      rw [toJson, elementsToJson_eq_map] at hFuel ⊢
      rcases Json.exists_fuel_of_depth hFuel with ⟨rest, rfl, hParts⟩
      have hElements := mapM_ofJsonWithin ih (hParts "elements" _ rfl)
      rw [Json.ofList] at hElements
      simp [ofJsonWithin, Rows.find?, hElements]
  | binary op lhs rhs ihLhs ihRhs =>
      intro fuel hFuel
      rw [toJson] at hFuel ⊢
      rcases Json.exists_fuel_of_depth hFuel with ⟨rest, rfl, hParts⟩
      have hLhs := ihLhs rest (hParts "lhs" _ rfl)
      have hRhs := ihRhs rest (hParts "rhs" _ rfl)
      simp [ofJsonWithin, Rows.find?, hLhs, hRhs, readBinaryOp_word]
  | unary op operand ih =>
      intro fuel hFuel
      rw [toJson] at hFuel ⊢
      rcases Json.exists_fuel_of_depth hFuel with ⟨rest, rfl, hParts⟩
      have hOperand := ih rest (hParts "operand" _ rfl)
      simp [ofJsonWithin, Rows.find?, hOperand, readUnaryOp_word]
  | call function arguments ih =>
      intro fuel hFuel
      rw [toJson, elementsToJson_eq_map] at hFuel ⊢
      rcases Json.exists_fuel_of_depth hFuel with ⟨rest, rfl, hParts⟩
      have hArguments := mapM_ofJsonWithin ih (hParts "arguments" _ rfl)
      rw [Json.ofList] at hArguments
      simp [ofJsonWithin, Rows.find?, hArguments]

theorem ofJson_toJson
    (e : Expr Float) :
    ofJson e.toJson = .ok e :=
  e.recovers _ (Nat.le_refl _)

end Expr

------------------------------------------------------------
-- Parts of experiments
------------------------------------------------------------

theorem StateKind.find?_word
    (kind : StateKind) :
    [ket, rho].find? (fun other => other.word == kind.word) =
      some kind := by
  cases kind <;> decide

/- An initial state, or none, is read back. -/
theorem InitialState.ofJson_ofOption
    (state : Option (InitialState Float)) :
    ofJson (Json.ofOption toJson state) = .ok state := by
  cases state with
  | none => rfl
  | some state =>
      rw [Json.ofOption, toJson, ofJson]
      · simp [Rows.find?, StateKind.find?_word, known, Expr.ofJson_toJson]
      · exact Json.ofMembers_ne_null _

theorem TimeGrid.ofJson_toJson
    (grid : TimeGrid Float) :
    ofJson grid.toJson = .ok grid := by
  cases grid with
  | regular start step steps => simp [ofJson, toJson, Rows.find?]
  | points times =>
      simp [ofJson, toJson, Rows.find?,
        Json.asList_ofList fun x _ => Json.asReal_real x]

theorem LindbladTerm.ofJson_toJson
    (term : LindbladTerm Float) :
    ofJson term.toJson = .ok term := by
  simp [ofJson, toJson, Rows.find?, Expr.ofJson_toJson]

/- An evolution, or none, is read back. -/
theorem Evolution.ofJson_ofOption
    (evolution : Option (Evolution Float)) :
    ofJson (Json.ofOption toJson evolution) = .ok evolution := by
  cases evolution with
  | none => rfl
  | some evolution =>
      rw [Json.ofOption, toJson, ofJson]
      · simp [Rows.find?, Json.fieldOr_ofMembers, TimeGrid.ofJson_toJson,
          Json.mapM_elements_ofList fun term _ =>
            LindbladTerm.ofJson_toJson term]
      · exact Json.ofMembers_ne_null _

theorem Event.ofJson_toJson
    (event : Event Float) :
    ofJson event.toJson = .ok event := by
  simp [ofJson, toJson, Rows.find?]

------------------------------------------------------------
-- Statements
------------------------------------------------------------

theorem MeasurementKind.ofJson_word
    (kind : MeasurementKind) :
    ofJson (.str kind.word) = .ok kind := by
  cases kind <;> simp [ofJson, word, known]

theorem Experiment.ofJson_toJson
    (e : Experiment Float) :
    ofJson e.name e.toJson = .ok e := by
  simp [ofJson, toJson, Rows.find?, Json.fieldOr_ofMembers,
    Evolution.ofJson_ofOption, InitialState.ofJson_ofOption,
    Json.mapM_elements_ofList fun event _ => Event.ofJson_toJson event]

/- The two members that every statement has. -/
theorem Experiment.field_toJson
    (e : Experiment Float) :
    e.toJson.field "statement" = .ok (.str "Experiment") ∧
      e.toJson.field "name" = .ok (.str e.name) := by
  simp [toJson, Rows.find?]

/- Every statement that has a document is read back from it. -/
theorem Statement.ofJson_of_toJson
    {d : Statement Float}
    {j : Json}
    (hDocument : d.toJson = .ok j) :
    ofJson j = .ok d := by
  cases d with
  | empty => cases hDocument
  | const name value =>
      rw [← Except.ok.inj hDocument]
      simp [ofJson, Rows.find?, Expr.ofJson_toJson]
  | symbol name =>
      rw [← Except.ok.inj hDocument]
      simp [ofJson, Rows.find?]
  | matrix name value =>
      rw [← Except.ok.inj hDocument]
      simp [ofJson, Rows.find?, Expr.ofJson_toJson]
  | function name parameters body =>
      rw [← Except.ok.inj hDocument]
      simp [ofJson, Rows.find?, Expr.ofJson_toJson,
        Json.asList_ofList fun s _ => Json.asString_str s]
  | hamiltonian name parameters expression =>
      rw [← Except.ok.inj hDocument]
      simp [ofJson, Rows.find?, Expr.ofJson_toJson, Json.fieldOr_ofMembers,
        Json.asList_ofList fun s _ => Json.asString_str s]
  | measurement name kind operators =>
      rw [← Except.ok.inj hDocument]
      simp [ofJson, Rows.find?, MeasurementKind.ofJson_word,
        Json.mapM_elements_ofList fun e _ => Expr.ofJson_toJson e]
  | experiment e =>
      rcases e.field_toJson with ⟨hForm, hName⟩
      rw [← Except.ok.inj hDocument]
      simp [ofJson, hForm, hName, Experiment.ofJson_toJson]

/- Only an empty statement has no document. -/
theorem Statement.exists_toJson
    {d : Statement Float}
    (hStatement : d ≠ .empty) :
    ∃ j, d.toJson = .ok j := by
  cases d with
  | empty => exact absurd rfl hStatement
  | _ => exact ⟨_, rfl⟩

------------------------------------------------------------
-- Programs
------------------------------------------------------------

namespace Program

variable {program : Program Float}

/- A program without empty statements has a document. -/
theorem exists_toJson
    (hStatements : ∀ d ∈ program, d ≠ .empty) :
    ∃ j, program.toJson = .ok j := by
  have hAll : ∃ js, program.mapM Statement.toJson = .ok js := by
    induction program with
    | nil => exact ⟨[], rfl⟩
    | cons d program ih =>
        rcases Statement.exists_toJson
          (hStatements d List.mem_cons_self) with ⟨j, hFirst⟩
        rcases ih fun later hLater =>
          hStatements later (List.mem_cons_of_mem d hLater) with ⟨js, hRest⟩
        refine ⟨j :: js, ?_⟩
        rw [List.mapM_cons, hFirst, ok_bind, hRest, ok_bind]
        rfl
  rcases hAll with ⟨js, hDocuments⟩
  exact ⟨.arr js, by rw [toJson, hDocuments]; rfl⟩

/- A program is read back statement by statement. -/
theorem ofJson_of_toJson
    {j : Json}
    (hDocument : program.toJson = .ok j) :
    ofJson j = .ok program := by
  rcases bind_eq_ok_iff.1 hDocument with ⟨js, hDocuments, hDone⟩
  rw [← pure_eq_ok_iff.1 hDone]
  change js.mapM Statement.ofJson = .ok program
  clear hDocument hDone
  induction program generalizing js with
  | nil =>
      cases hDocuments
      rfl
  | cons d program ih =>
      rw [List.mapM_cons] at hDocuments
      rcases bind_eq_ok_iff.1 hDocuments with ⟨first, hFirst, hRest⟩
      rcases bind_eq_ok_iff.1 hRest with ⟨rest, hLater, hDone⟩
      rw [← pure_eq_ok_iff.1 hDone, List.mapM_cons,
        Statement.ofJson_of_toJson hFirst, ok_bind, ih rest hLater,
        ok_bind]
      rfl

end Program

/- A typed program is read back with its shapes. -/
theorem TypedProgram.ofJson_of_toJson
    {typed : TypedProgram Float}
    {j : Json}
    (hDocument : typed.toJson = .ok j) :
    ofJson j = .ok typed := by
  rcases bind_eq_ok_iff.1 hDocument with ⟨statements, hProgram, hDone⟩
  have hShapes :
      (Json.ofTable Shape.toJson typed.shapes).asTable Shape.ofJson =
        .ok typed.shapes :=
    Json.asTable_ofTable fun row _ => Shape.ofJson_toJson row.2
  rw [← pure_eq_ok_iff.1 hDone]
  simp [ofJson, Rows.find?, Program.ofJson_of_toJson hProgram, hShapes]

theorem ValidationResults.readTraces_ofTable
    (traces : Table (Scalar Float)) :
    readTraces (Json.ofTable Scalar.toJson traces) = .ok traces := by
  rw [readTraces, Json.mapM_namedElements_ofTable fun row _ =>
    Scalar.ofJson_toJson row.2, ok_bind, Table.ofList_rows]
  rfl

/- What was established is read back. -/
theorem ValidationResults.ofJson_toJson
    (results : ValidationResults Float) :
    ofJson results.toJson = .ok results := by
  have hBools (t : Table Bool) :
      (Json.ofTable Json.bool t).asTable Json.asBool = .ok t :=
    Json.asTable_ofTable fun row _ => Json.asBool_bool row.2
  simp [ofJson, toJson, Rows.find?, hBools, readTraces_ofTable]

------------------------------------------------------------
-- Validated programs
------------------------------------------------------------

namespace ValidatedProgram

/-
  A validated program without empty statements has a
  document, is read back from it, and so is lowered to the
  same plan.
-/
theorem validated_program_read_back
    {p : ValidatedProgram Float}
    (hStatements : ∀ d ∈ p.typed.program, d ≠ .empty) :
    ∃ j, p.toJson = .ok j ∧ ofJson j = .ok p ∧
      ∀ q, ofJson j = .ok q → q.plan = p.plan := by
  rcases Program.exists_toJson hStatements with ⟨statements, hProgram⟩
  have hTyped : ∃ typed, p.typed.toJson = .ok typed := by
    rw [TypedProgram.toJson, hProgram]
    exact ⟨_, rfl⟩
  rcases hTyped with ⟨typed, hTyped⟩
  have hDocument : p.toJson =
      .ok (.ofMembers
        [("typed_program", typed),
          ("validation_results", p.results.toJson)]) := by
    rw [toJson, hTyped, ok_bind]
    rfl
  have hRead : ofJson
      (.ofMembers
        [("typed_program", typed),
          ("validation_results", p.results.toJson)]) = .ok p := by
    simp [ofJson, Rows.find?, TypedProgram.ofJson_of_toJson hTyped,
      ValidationResults.ofJson_toJson]
  refine ⟨_, hDocument, hRead, fun q hAgain => ?_⟩
  rw [Except.ok.inj (hAgain.symm.trans hRead)]

/- A program with a statement of every form and with missing parts. -/
def drivenSpin : ValidatedProgram Float :=
  { typed :=
      { program :=
          [.const "g" (.unary .sqrt (.number ⟨2, 0⟩)),
            .symbol "s",
            .matrix "A" (.matrix [[.identifier "g", .missing], []]),
            .function "f" ["x", "y"]
              (.binary .power .missing (.identifier "x")),
            .hamiltonian "H" ["t"]
              (.binary .tensor (.identifier "A")
                (.call "f" [.identifier "t", .missing])),
            .measurement "M" .povm [.vector [.number ⟨0.5, -1⟩], .missing],
            .experiment
              ⟨"driven", some ⟨.rho, .identifier "A"⟩,
                some ⟨"psi", "H", .regular 0 0.1 20,
                  [⟨"A", .binary .divide .missing (.identifier "g")⟩]⟩,
                [⟨0.3, "M"⟩]⟩,
            .experiment
              ⟨"still", none,
                some ⟨"", "H", .points [0, 0.25], []⟩, []⟩]
        shapes :=
          Table.ofList
            [("g", .scalar), ("A", .matrix 2 0), ("v", .vector 3)] }
    results :=
      { hermitian := Table.ofList [("A", true), ("H", false)]
        psd := Table.ofList [("M[0]", false)]
        traces := Table.ofList [("A", ⟨0, 2⟩)] } }

theorem validated_program_read_back_drivenSpin :
    ∃ j, drivenSpin.toJson = .ok j ∧ ofJson j = .ok drivenSpin ∧
      ∀ q, ofJson j = .ok q → q.plan = drivenSpin.plan :=
  validated_program_read_back (by simp [drivenSpin])

end ValidatedProgram

end QuantumLab
