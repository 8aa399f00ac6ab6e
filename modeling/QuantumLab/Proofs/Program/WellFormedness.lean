import QuantumLab.Proofs.Lowering.Steps
import QuantumLab.Proofs.Program.Soundness

/-
  This file says which plans programs are lowered to: nothing
  in them refers to what is not there, unless an experiment
  asks for a point of an empty grid or for a measurement
  without operators.

  Key definitions include:
    * `Program.operatorsOf?`
    * `Experiment.Misses`, `Program.IsMalformed`
    * `PlannedExperiment.Serves`

  Main statements:
    * `PlannedExperiment.Serves.proper_iff` says when the
      measurements of an experiment can be made.
    * `Program.wellFormed_iff` says which programs have a
      well-formed plan.
    * `Program.plan_well_formed` says that every lowering is
      well placed throughout, and which of them are reported
      as malformed.
-/

------------------------------------------------------------
-- What is asked for
------------------------------------------------------------

namespace QuantumLab

variable {R : Type}

/- The operators of the measurement of a name that a statement defines. -/
def Statement.operatorsOf?
    (d : Statement R)
    (name : String) : Option (List (Expr R)) :=
  match d with
  | .measurement other _ operators =>
      if other = name then some operators else none
  | _ => none

theorem Statement.operatorsOf?_of_measures
    {d : Statement R}
    {name : String}
    (hMeasures : d.measures name = false) :
    d.operatorsOf? name = none := by
  cases d with
  | measurement other kind operators =>
      have hOther : other ≠ name := by
        simpa [measures] using hMeasures
      exact if_neg hOther
  | _ => rfl

/-
  The operators of the last measurement of a name that a
  program defines.
-/
def Program.operatorsOf?
    (program : Program R)
    (name : String) : Option (List (Expr R)) :=
  program.reverse.findSome? (Statement.operatorsOf? · name)

theorem Program.operatorsOf?_append
    (pre : Program R)
    (d : Statement R)
    (name : String) :
    Program.operatorsOf? (pre ++ [d]) name =
      (d.operatorsOf? name).or (pre.operatorsOf? name) := by
  rw [Program.operatorsOf?, List.reverse_append, List.reverse_singleton,
    List.singleton_append, List.findSome?_cons]
  cases d.operatorsOf? name with
  | none => rfl
  | some operators => rfl

variable [Arithmetic R]

/- The states of an experiment are at one point in time or more. -/
def Experiment.HasPoints (x : Experiment R) : Prop :=
  ∀ evolution, x.evolution = some evolution →
    evolution.grid.times ≠ []

/-
  After some statements an experiment asks for a state at a
  point of an empty grid, or for the outcomes of a
  measurement without operators.
-/
inductive Experiment.Misses
    (pre : Program R)
    (x : Experiment R) : Prop where
  | point
      {evolution : Evolution R}
      {event : Event R}
      (hEvolution : x.evolution = some evolution)
      (hEmpty : evolution.grid.times = [])
      (hEvent : event ∈ x.schedule)
  | operators
      {event : Event R}
      (hEvent : event ∈ x.schedule)
      (hNone : pre.operatorsOf? event.measurement = some [])

/- Some experiment of a program asks for what is not there. -/
def Program.IsMalformed (program : Program R) : Prop :=
  ∃ pre x post, program = pre ++ .experiment x :: post ∧
    x.Misses pre

end QuantumLab

------------------------------------------------------------
-- What is planned
------------------------------------------------------------

namespace QuantumLab

variable {R : Type} [Arithmetic R]

/-
  An experiment of a plan has a measurement for each event of
  an experiment of a program.  Its point is there if there is
  any, and it has operators if those of its name are not
  defined as none.
-/
def PlannedExperiment.Serves
    (pre : Program R)
    (x : Experiment R)
    (e : PlannedExperiment R) : Prop :=
  e.name = x.name ∧
    List.Forall₂
      (fun event m => m.name = event.measurement ∧
        (m.timeIndex < e.points ↔ x.HasPoints) ∧
        (m.operators = [] ↔
          pre.operatorsOf? event.measurement = some []))
      x.schedule e.measurements

/- The measurements can be made unless something is missing. -/
theorem PlannedExperiment.Serves.proper_iff
    {pre : Program R}
    {x : Experiment R}
    {e : PlannedExperiment R}
    (hServes : e.Serves pre x)
    (hSingle : ∀ m ∈ e.measurements, m.kind = .observable →
      m.operators.length = 1) :
    (∀ m ∈ e.measurements, m.IsProper e.points) ↔ ¬ x.Misses pre := by
  constructor
  · intro hProper hMisses
    cases hMisses with
    | @point evolution event hEvolution hEmpty hEvent =>
        rcases exists_of_forall₂_left hServes.2 event hEvent with
          ⟨m, hMember, _, hPoint, _⟩
        exact hPoint.1 (hProper m hMember).inside evolution hEvolution
          hEmpty
    | @operators event hEvent hNone =>
        rcases exists_of_forall₂_left hServes.2 event hEvent with
          ⟨m, hMember, _, _, hOperators⟩
        exact (hProper m hMember).nonempty (hOperators.2 hNone)
  · intro hFinds m hMember
    rcases exists_of_forall₂_right hServes.2 m hMember with
      ⟨event, hEvent, _, hPoint, hOperators⟩
    refine ⟨hPoint.2 ?_, fun hNone => ?_, hSingle m hMember⟩
    · exact fun evolution hEvolution hEmpty =>
        hFinds (.point hEvolution hEmpty hEvent)
    · exact hFinds (.operators hEvent (hOperators.1 hNone))

namespace Lowering

variable
  {s : Lowering R}
  {m : Meaning R}
  {pre : Program R}

/- The measurements of a lowering have operators as they are defined. -/
def CountsOperators (s : Lowering R) (pre : Program R) : Prop :=
  ∀ name,
    (s.measurements.find? name).map (fun entry => entry.2.length) =
      (pre.operatorsOf? name).map List.length

theorem CountsOperators.after
    {d : Statement R}
    {next : Lowering R}
    (hCounts : s.CountsOperators pre)
    (hFollows : s.Follows False m)
    (hAdd : s.addStatement d = .ok next) :
    next.CountsOperators (pre ++ [d]) := by
  intro name
  rw [Program.operatorsOf?_append]
  have hOther : (∀ other, d.measures other = false) →
      (next.measurements.find? name).map (fun entry => entry.2.length) =
        ((d.operatorsOf? name).or (pre.operatorsOf? name)).map
          List.length := by
    intro hMeasures
    have hAdvances :=
      advances_addStatement hFollows (fun h => h.elim) hAdd
    rw [hAdvances.measurements hMeasures,
      Statement.operatorsOf?_of_measures (hMeasures name),
      Option.none_or]
    exact hCounts name
  cases d with
  | measurement declared kind operators =>
      rcases measurements_addMeasurement hFollows hAdd with
        ⟨_, _, _, ids, hMeasurements, hOperators⟩
      rw [hMeasurements, Table.find?_insert, Statement.operatorsOf?]
      by_cases hSame : declared = name
      · simp only [if_pos hSame, Option.map_some, Option.some_or]
        rw [hOperators.length_eq]
      · simp only [if_neg hSame, Option.none_or]
        exact hCounts name
  | empty => exact hOther fun _ => rfl
  | const declared e => exact hOther fun _ => rfl
  | symbol declared => exact hOther fun _ => rfl
  | matrix declared e => exact hOther fun _ => rfl
  | function declared parameters body => exact hOther fun _ => rfl
  | hamiltonian declared parameters e => exact hOther fun _ => rfl
  | experiment x => exact hOther fun _ => rfl

/- The number of points is that of the grid, or one. -/
theorem PlansExperiment.points
    {exact : Prop}
    {table : Table (OutcomeKind × List NodeId)}
    {x : Experiment R}
    {planned : PlannedExperiment R}
    (hPlans : s.PlansExperiment exact m table x planned) :
    timesOf planned.evolution ≠ [] ↔ x.HasPoints := by
  have hEvolution := hPlans.evolution
  unfold Experiment.HasPoints
  generalize planned.evolution = plannedEvolution at hEvolution
  cases hSome : x.evolution with
  | none =>
      rw [hSome] at hEvolution
      cases hEvolution
      simp [timesOf]
  | some evolution =>
      rw [hSome] at hEvolution
      rcases hEvolution with ⟨hBoth⟩
      simp [timesOf, hBoth.times]

/- The nearest point is there if there is any. -/
theorem nearestIndex_lt_iff
    (times : List R)
    (time : R) :
    nearestIndex times time < times.length ↔ times ≠ [] := by
  constructor
  · rintro hInside rfl
    exact absurd hInside (Nat.not_lt_zero _)
  · intro hNonempty
    exact nearestIndex_lt hNonempty time

/- An experiment of a plan serves that of the program. -/
theorem PlansExperiment.serves
    {exact : Prop}
    {table : Table (OutcomeKind × List NodeId)}
    {x : Experiment R}
    {planned : PlannedExperiment R}
    (hPlans : s.PlansExperiment exact m table x planned)
    (hCounts : ∀ name,
      (table.find? name).map (fun entry => entry.2.length) =
        (pre.operatorsOf? name).map List.length) :
    planned.Serves pre x := by
  have hPoints : planned.points =
      (timesOf planned.evolution).length := by
    rw [timesOf_eq, Plan.length_timesOf]
  refine ⟨hPlans.name, hPlans.schedule.imp fun event entry hEvent => ?_⟩
  have hCount := hCounts event.measurement
  rw [hPoints, ← hPlans.points]
  cases hEvent with
  | @measurement kind operators hFound =>
      refine ⟨rfl, nearestIndex_lt_iff _ _, ?_⟩
      rw [hFound, Option.map_some] at hCount
      rcases Option.map_eq_some_iff.1 hCount.symm with
        ⟨defined, hDefined, hLength⟩
      rw [hDefined, Option.some_inj, ← List.length_eq_zero_iff,
        ← List.length_eq_zero_iff, hLength]
  | @observable operator hNone _ =>
      refine ⟨rfl, nearestIndex_lt_iff _ _, ?_⟩
      rw [hNone, Option.map_none] at hCount
      rw [Option.map_eq_none_iff.1 hCount.symm]
      simp

end Lowering

end QuantumLab

------------------------------------------------------------
-- Plans of programs
------------------------------------------------------------

namespace QuantumLab

variable {R : Type} [Arithmetic R]

namespace Program

variable {program : Program R} {s : Lowering R}

theorem countsOperators_of_walk
    (hWalk : program.walk Lowering.addStatement .initial = .ok s) :
    s.Follows False program.meaning ∧ s.CountsOperators program := by
  refine walk_induction
    (I := fun pre s => s.Follows False (Program.meaning pre) ∧
      s.CountsOperators pre)
    ⟨Lowering.follows_initial, fun _ => rfl⟩ ?_ hWalk
  rintro pre s d next ⟨hFollows, hCounts⟩ hAdd
  refine ⟨?_, hCounts.after hFollows hAdd⟩
  rw [meaning_append]
  exact (Lowering.advances_addStatement hFollows (fun h => h.elim)
    hAdd).follows

/- The experiment of a plan at the position of an experiment. -/
theorem serves_of_walk
    {pre post : Program R}
    {x : Experiment R}
    (hWalk : Program.walk Lowering.addStatement .initial
      (pre ++ .experiment x :: post) = .ok s) :
    ∃ e, s.plan.experiments[pre.experiments.length]? = some e ∧
      e.Serves pre x := by
  rcases walk_append.1 hWalk with ⟨mid, hPre, hRest⟩
  rcases walk_cons.1 hRest with ⟨next, hAdd, hPost⟩
  rcases countsOperators_of_walk hPre with ⟨hFollows, hCounts⟩
  rcases Lowering.plans_addExperiment hFollows hAdd with
    ⟨_, hNext, _, planned, hPlanned, hPlans⟩
  exact ⟨planned,
    Lowering.getElem?_experiments hPre hPlanned hNext hPost,
    hPlans.serves hCounts⟩

/- Every experiment of a plan serves one of the program. -/
theorem exists_served
    (hWalk : program.walk Lowering.addStatement .initial = .ok s) :
    ∀ e ∈ s.plan.experiments, ∃ pre x post,
      program = pre ++ .experiment x :: post ∧ e.Serves pre x := by
  refine (walk_induction
    (I := fun program s =>
      (s.Follows False (Program.meaning program) ∧
        s.CountsOperators program) ∧
      ∀ e ∈ s.plan.experiments, ∃ pre x post,
        program = pre ++ .experiment x :: post ∧ e.Serves pre x)
    ⟨⟨Lowering.follows_initial, fun _ => rfl⟩, nofun⟩ ?_ hWalk).2
  rintro program s d next ⟨⟨hFollows, hCounts⟩, hServed⟩ hAdd
  have hAdvances :=
    Lowering.advances_addStatement hFollows (fun h => h.elim) hAdd
  have hOld : ∀ e ∈ s.plan.experiments, ∃ pre x post,
      program ++ [d] = pre ++ .experiment x :: post ∧
        e.Serves pre x := by
    intro e hMember
    rcases hServed e hMember with ⟨pre, x, post, rfl, hServes⟩
    exact ⟨pre, x, post ++ [d], by simp, hServes⟩
  refine ⟨⟨?_, hCounts.after hFollows hAdd⟩, ?_⟩
  · rw [meaning_append]
    exact hAdvances.follows
  · refine hFollows.forall_experiments (fun h => h.elim) hAdd hOld ?_
    rintro x planned rfl hPlans
    exact ⟨program, x, [], rfl, hPlans.serves hCounts⟩

/- A program has a well-formed plan unless it asks for what is not there. -/
theorem wellFormed_iff
    (hWalk : program.walk Lowering.addStatement .initial = .ok s) :
    s.plan.WellFormed ↔ ¬ program.IsMalformed := by
  have hPlaced := Lowering.wellPlaced_initial.runs
    (Lowering.runs_of_walk Lowering.wellPlaced_initial hWalk)
  constructor
  · rintro hPlan ⟨pre, x, post, rfl, hMisses⟩
    rcases serves_of_walk hWalk with ⟨e, hPlace, hServes⟩
    have hMember := List.mem_of_getElem? hPlace
    have hProper := hPlan.proper e hMember
    exact (hServes.proper_iff (hPlaced.single e hMember)).1 hProper
      hMisses
  · intro hFinds
    refine ⟨hPlaced.backward, hPlaced.refers, fun e hMember => ?_⟩
    rcases exists_served hWalk e hMember with
      ⟨pre, x, post, hSplit, hServes⟩
    refine (hServes.proper_iff (hPlaced.single e hMember)).2 ?_
    exact fun hMisses => hFinds ⟨pre, x, post, hSplit, hMisses⟩

end Program

/- The plan of a program that is lowered is reported unless it verifies. -/
theorem ValidatedProgram.plan_of_walk
    {p : ValidatedProgram R}
    {s : Lowering R}
    (hWalk : p.typed.program.walk Lowering.addStatement .initial =
      .ok s) :
    (s.plan.verify = .ok () → p.plan = .ok s.plan) ∧
      (s.plan.verify ≠ .ok () →
        ∃ fault, p.plan = .error (.malformed fault)) := by
  unfold plan
  rw [hWalk]
  cases hVerified : s.plan.verify with
  | ok _ => simp [hVerified]
  | error fault => simp [hVerified]

omit [Arithmetic R] in
/- The listed nodes are numbered by their positions. -/
theorem Plan.id_of_getElem?_nodeList
    {plan : Plan R}
    {k : Nat}
    {node : Node R}
    (hNode : plan.nodeList[k]? = some node) :
    node.id = k := by
  rw [nodeList, List.getElem?_map, List.getElem?_zipIdx] at hNode
  rcases Option.map_eq_some_iff.1 hNode with ⟨pair, hPair, rfl⟩
  rcases Option.map_eq_some_iff.1 hPair with ⟨operation, _, rfl⟩
  exact Nat.zero_add k

namespace Program

/-
  When every statement of a program is lowered, validated or
  not, the states on the way are well placed: each node has a
  shape and comes after its operands, and names, measurements
  and experiments refer to nodes that are there.  The point
  of an event is there if the grid has any, and its
  measurement has operators if it is defined with any.  The
  plan is reported as malformed exactly when an event asks
  for what is not there, and is returned otherwise.
-/
theorem plan_well_formed
    {p : ValidatedProgram R}
    {s : Lowering R}
    (hWalk : p.typed.program.walk Lowering.addStatement .initial =
      .ok s) :
    (∀ pre post : Program R, p.typed.program = pre ++ post → ∃ t,
      pre.walk Lowering.addStatement .initial = .ok t ∧
        Lowering.Runs .initial t ∧ Lowering.Runs t s) ∧
    (∀ t, Lowering.Runs (.initial : Lowering R) t → t.WellPlaced) ∧
    (∀ k (node : Node R), s.plan.nodeList[k]? = some node →
      node.id = k) ∧
    s.WellPlaced ∧
    (∀ (pre post : Program R) x,
      p.typed.program = pre ++ .experiment x :: post → ∃ e,
        s.plan.experiments[pre.experiments.length]? = some e ∧
          e.Serves pre x) ∧
    ((∃ fault, p.plan = .error (.malformed fault)) ↔
      p.typed.program.IsMalformed) ∧
    (¬ p.typed.program.IsMalformed →
      p.plan = .ok s.plan ∧ s.plan.WellFormed) := by
  have hInitial : (Lowering.initial : Lowering R).WellPlaced :=
    Lowering.wellPlaced_initial
  have hPlan := wellFormed_iff hWalk
  rcases p.plan_of_walk hWalk with ⟨hReturned, hReported⟩
  refine ⟨fun pre post hSplit => ?_, fun t hRuns => hInitial.runs hRuns,
    fun k node hNode => Plan.id_of_getElem?_nodeList hNode,
    hInitial.runs (Lowering.runs_of_walk hInitial hWalk),
    fun pre post x hSplit => ?_, ?_, fun hFinds => ?_⟩
  · rw [hSplit] at hWalk
    rcases walk_append.1 hWalk with ⟨t, hPre, hPost⟩
    have hRuns := Lowering.runs_of_walk hInitial hPre
    exact ⟨t, hPre, hRuns,
      Lowering.runs_of_walk (hInitial.runs hRuns) hPost⟩
  · rw [hSplit] at hWalk
    exact serves_of_walk hWalk
  · constructor
    · rintro ⟨fault, hFault⟩
      by_contra hFinds
      rw [hReturned (Plan.verify_eq_ok_iff.2 (hPlan.2 hFinds))] at hFault
      cases hFault
    · intro hMalformed
      exact hReported fun hVerified =>
        hPlan.1 (Plan.verify_eq_ok_iff.1 hVerified) hMalformed
  · have hWellFormed := hPlan.2 hFinds
    exact ⟨hReturned (Plan.verify_eq_ok_iff.2 hWellFormed),
      hWellFormed⟩

/-
  A qubit is measured by a name whose measurement has no
  operators.  No validation lets this program pass.
-/
def emptyReadout : ValidatedProgram Float where
  typed := ⟨[.measurement "readout" .povm [],
    .experiment ⟨"qubit",
      some ⟨.ket, .vector [.number ⟨1, 0⟩, .number ⟨0, 0⟩]⟩, none,
      [⟨0, "readout"⟩]⟩], .empty⟩
  results := .empty

/- The program is lowered, and its plan is reported as malformed. -/
theorem plan_well_formed_emptyReadout :
    ∃ s fault,
      emptyReadout.typed.program.walk Lowering.addStatement .initial =
        .ok s ∧
      s.WellPlaced ∧ emptyReadout.plan = .error (.malformed fault) := by
  have hLowered : (emptyReadout.typed.program.walk
      Lowering.addStatement .initial).isOk = true := by
    decide +kernel
  have hMalformed : emptyReadout.typed.program.IsMalformed :=
    ⟨[.measurement "readout" .povm []], _, [], rfl,
      .operators List.mem_cons_self rfl⟩
  cases hWalk : emptyReadout.typed.program.walk
      Lowering.addStatement .initial with
  | error stop =>
      rw [hWalk] at hLowered
      cases hLowered
  | ok s =>
      rcases plan_well_formed hWalk with
        ⟨_, _, _, hPlaced, _, hReported, _⟩
      rcases hReported.2 hMalformed with ⟨fault, hFault⟩
      exact ⟨s, fault, rfl, hPlaced, hFault⟩

end Program

end QuantumLab
