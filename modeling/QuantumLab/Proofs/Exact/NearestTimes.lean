import QuantumLab.Proofs.Exact.Reals
import QuantumLab.Proofs.Program.WellFormedness

/-
  This file says which point of a time grid is chosen for a
  requested time in exact arithmetic.  The choice is a scan
  that keeps the nearest point seen so far, and replaces it
  only by a point that is strictly nearer.

  Key definitions include:
    * `IsNearest`
    * `nearer`
    * `KeepsNearest`

  Main statements:
    * `KeepsNearest.foldl` says what the scan knows of the
      points that it has seen.
    * `nearestIndex_le_iff` says that on an ascending grid
      the choice moves on to the next point halfway between
      the two.
    * `nearest_time_chosen` says that the choice is the
      earliest of the nearest points, and what follows from
      it on ascending grids.
    * `Program.measured_at_nearest` says the same of the
      measurements of a plan.
-/

------------------------------------------------------------
-- Nearest points
------------------------------------------------------------

namespace QuantumLab

variable {times : List ℝ} {time : ℝ} {i : Nat}

/- The earliest of the points that are nearest to a time. -/
structure IsNearest
    (times : List ℝ)
    (time : ℝ)
    (i : Nat) : Prop where
  inside : i < times.length
  minimal : ∀ j (_ : j < times.length),
    |times[i] - time| ≤ |times[j] - time|
  first : ∀ j (_ : j < i),
    |times[i] - time| < |times[j] - time|

/- There is one nearest point only that no other precedes. -/
theorem IsNearest.unique
    {j : Nat}
    (hLeft : IsNearest times time i)
    (hRight : IsNearest times time j) :
    i = j := by
  rcases Nat.lt_trichotomy i j with hLess | hSame | hLess
  · exact absurd (hLeft.minimal j hRight.inside)
      (not_le.2 (hRight.first i hLess))
  · exact hSame
  · exact absurd (hRight.minimal i hLeft.inside)
      (not_le.2 (hLeft.first j hLess))

/- Of two points the lower one is nearer up to halfway between them. -/
theorem abs_sub_le_abs_sub_iff
    {low high : ℝ}
    (hLess : low < high) :
    |low - time| ≤ |high - time| ↔ 2 * time ≤ low + high := by
  constructor
  · intro hNearer
    by_contra hBeyond
    rcases abs_cases (low - time) with ⟨hLow, _⟩ | ⟨hLow, _⟩ <;>
      rcases abs_cases (high - time) with ⟨hHigh, _⟩ | ⟨hHigh, _⟩ <;>
      linarith
  · intro hWithin
    rcases abs_cases (low - time) with ⟨hLow, _⟩ | ⟨hLow, _⟩ <;>
      rcases abs_cases (high - time) with ⟨hHigh, _⟩ | ⟨hHigh, _⟩ <;>
      linarith

end QuantumLab

------------------------------------------------------------
-- The scan of a grid
------------------------------------------------------------

namespace QuantumLab

variable {times : List ℝ} {time : ℝ} {best : Nat × ℝ}

/- The best point so far with its distance, after one more point. -/
noncomputable def nearer
    (time : ℝ)
    (best : Nat × ℝ)
    (point : ℝ × Nat) : Nat × ℝ :=
  if |point.1 - time| < best.2 then (point.2, |point.1 - time|) else best

theorem nearestIndex_cons
    (first : ℝ)
    (rest : List ℝ)
    (time : ℝ) :
    nearestIndex (first :: rest) time =
      ((rest.zipIdx 1).foldl (nearer time) (0, |first - time|)).1 := by
  simp only [nearestIndex, Arithmetic.abs_real, Arithmetic.less_real,
    decide_eq_true_eq]
  rfl

/- The point that is kept is the nearest of those seen, at its distance. -/
structure KeepsNearest
    (seen : List ℝ)
    (time : ℝ)
    (best : Nat × ℝ) : Prop extends IsNearest seen time best.1 where
  distance : best.2 = |seen[best.1] - time|

/- The first point is the nearest of itself. -/
theorem keepsNearest_singleton
    (first time : ℝ) :
    KeepsNearest [first] time (0, |first - time|) where
  inside := Nat.zero_lt_one
  minimal j hInside := by
    obtain rfl : j = 0 := Nat.lt_one_iff.1 hInside
    exact le_rfl
  first j hEarlier := absurd hEarlier (Nat.not_lt_zero j)
  distance := rfl

/- One more point is chosen only if it is strictly nearer. -/
theorem KeepsNearest.nearer
    {seen : List ℝ}
    (hKeepsNearest : KeepsNearest seen time best)
    (point : ℝ) :
    KeepsNearest (seen ++ [point]) time
      (nearer time best (point, seen.length)) := by
  have hInside := hKeepsNearest.inside
  unfold QuantumLab.nearer
  split
  case isTrue hNearer =>
    have hStrict : ∀ j (_ : j < seen.length),
        |point - time| < |seen[j] - time| := by
      intro j hEarlier
      calc |point - time| < best.2 := hNearer
        _ = |seen[best.1] - time| := hKeepsNearest.distance
        _ ≤ |seen[j] - time| := hKeepsNearest.minimal j hEarlier
    refine
      ⟨⟨by simp, fun j hBound => ?_, fun j hEarlier => ?_⟩, by simp⟩
    · simp only [List.getElem_concat_length]
      rw [List.getElem_append]
      split
      case isTrue hEarlier => exact (hStrict j hEarlier).le
      case isFalse hLast => simp
    · simp only [List.getElem_concat_length]
      rw [List.getElem_append_left hEarlier]
      exact hStrict j hEarlier
  case isFalse hFarther =>
    have hKept : |seen[best.1] - time| ≤ |point - time| :=
      hKeepsNearest.distance ▸ not_lt.1 hFarther
    refine
      ⟨⟨by simp; omega, fun j hBound => ?_, fun j hEarlier => ?_⟩, ?_⟩
    · rw [List.getElem_append_left hInside, List.getElem_append]
      split
      case isTrue hEarlier => exact hKeepsNearest.minimal j hEarlier
      case isFalse hLast => simpa using hKept
    · rw [List.getElem_append_left hInside,
        List.getElem_append_left (hEarlier.trans hInside)]
      exact hKeepsNearest.first j hEarlier
    · rw [List.getElem_append_left hInside]
      exact hKeepsNearest.distance

/- The scan of further points, numbered on from those seen. -/
theorem KeepsNearest.foldl
    (rest : List ℝ)
    {seen : List ℝ}
    (hKeepsNearest : KeepsNearest seen time best) :
    KeepsNearest (seen ++ rest) time
      ((rest.zipIdx seen.length).foldl (QuantumLab.nearer time) best) := by
  induction rest generalizing seen best with
  | nil => simpa using hKeepsNearest
  | cons point rest ih =>
      have hLater := ih (hKeepsNearest.nearer point)
      simpa using hLater

/- The point chosen is the earliest of the nearest. -/
theorem isNearest_nearestIndex
    (hNonempty : times ≠ [])
    (time : ℝ) :
    IsNearest times time (nearestIndex times time) := by
  cases times with
  | nil => exact absurd rfl hNonempty
  | cons first rest =>
      rw [nearestIndex_cons]
      exact ((keepsNearest_singleton first time).foldl rest).toIsNearest

theorem isNearest_iff
    (hNonempty : times ≠ [])
    (time : ℝ)
    (i : Nat) :
    IsNearest times time i ↔ nearestIndex times time = i := by
  constructor
  · exact (isNearest_nearestIndex hNonempty time).unique
  · rintro rfl
    exact isNearest_nearestIndex hNonempty time

end QuantumLab

------------------------------------------------------------
-- Ascending grids
------------------------------------------------------------

namespace QuantumLab

variable
  {times : List ℝ}
  (hAscending : times.Pairwise (· < ·))

include hAscending

/- A grid ascends between any two of its points. -/
theorem getElem_lt_getElem
    {i j : Nat}
    (hEarlier : i < j)
    (hInside : j < times.length) :
    times[i] < times[j] :=
  List.pairwise_iff_getElem.1 hAscending i j
    (hEarlier.trans hInside) hInside hEarlier

theorem getElem_le_getElem
    {i j : Nat}
    (hOrder : i ≤ j)
    (hInside : j < times.length) :
    times[i] ≤ times[j] := by
  rcases Nat.eq_or_lt_of_le hOrder with rfl | hEarlier
  · exact le_rfl
  · exact (getElem_lt_getElem hAscending hEarlier hInside).le

/- Up to halfway to the next point no later point is chosen. -/
theorem nearestIndex_le_iff
    (time : ℝ)
    {i : Nat}
    (hNext : i + 1 < times.length) :
    nearestIndex times time ≤ i ↔ 2 * time ≤ times[i] + times[i + 1] := by
  have hNonempty : times ≠ [] := by
    rintro rfl
    exact absurd hNext (Nat.not_lt_zero _)
  have hNearest := isNearest_nearestIndex hNonempty time
  generalize nearestIndex times time = chosen at hNearest
  have hInside := hNearest.inside
  constructor
  · intro hWithin
    have hStep := getElem_lt_getElem hAscending (Nat.lt_succ_self i) hNext
    have hBelow := getElem_le_getElem hAscending hWithin
      (Nat.lt_of_succ_lt hNext)
    have hMinimal := hNearest.minimal (i + 1) hNext
    have hHalfway :=
      (abs_sub_le_abs_sub_iff (hBelow.trans_lt hStep)).1 hMinimal
    linarith
  · intro hHalfway
    by_contra hBeyond
    have hLater : i < chosen := not_le.1 hBeyond
    have hAbove := getElem_le_getElem hAscending
      (Nat.succ_le_of_lt hLater) hInside
    have hApart := getElem_lt_getElem hAscending hLater hInside
    have hNearer : |times[i] - time| ≤ |times[chosen] - time| :=
      (abs_sub_le_abs_sub_iff hApart).2 (by linarith)
    exact absurd hNearer (not_le.2 (hNearest.first i hLater))

/- Of two nearest points the earlier one is chosen. -/
theorem nearestIndex_of_tie
    {time : ℝ}
    {i j : Nat}
    (hOrder : i < j)
    (hInside : j < times.length)
    (hTie : |times[i] - time| = |times[j] - time|)
    (hMinimal : ∀ k (_ : k < times.length),
      |times[i] - time| ≤ |times[k] - time|) :
    nearestIndex times time = i := by
  have hNonempty : times ≠ [] := by
    rintro rfl
    exact absurd hInside (Nat.not_lt_zero _)
  refine (isNearest_iff hNonempty time i).1
    ⟨hOrder.trans hInside, hMinimal, fun k hEarlier => ?_⟩
  by_contra hNearer
  -- The two points are as far below the time as above it.
  have hBelow := getElem_lt_getElem hAscending hEarlier
    (hOrder.trans hInside)
  have hAbove := getElem_lt_getElem hAscending hOrder hInside
  have hHalfway := (abs_sub_le_abs_sub_iff hBelow).1 (not_lt.1 hNearer)
  have hTime : 2 * time = times[i] + times[j] := by
    rcases abs_cases (times[i] - time) with ⟨hLow, _⟩ | ⟨hLow, _⟩ <;>
      rcases abs_cases (times[j] - time) with
        ⟨hHigh, _⟩ | ⟨hHigh, _⟩ <;>
      linarith
  linarith

/- A time that is not after the first point is at the first point. -/
theorem nearestIndex_of_le_head
    {time first : ℝ}
    (hFirst : times.head? = some first)
    (hBefore : time ≤ first) :
    nearestIndex times time = 0 := by
  rw [← Nat.le_zero]
  cases times with
  | nil => cases hFirst
  | cons head rest =>
      cases hFirst
      cases rest with
      | nil => exact Nat.le_zero.2 rfl
      | cons second rest =>
          have hStep : first < second :=
            List.rel_of_pairwise_cons hAscending List.mem_cons_self
          refine (nearestIndex_le_iff hAscending time (by simp)).2 ?_
          simp only [List.getElem_cons_zero, List.getElem_cons_succ]
          linarith

/- A time that is not before the last point is at the last point. -/
theorem nearestIndex_of_getLast_le
    {time last : ℝ}
    (hLast : times.getLast? = some last)
    (hAfter : last ≤ time) :
    nearestIndex times time = times.length - 1 := by
  have hNonempty : times ≠ [] := by
    rintro rfl
    cases hLast
  have hInside := nearestIndex_lt hNonempty time
  by_contra hOther
  have hNext : times.length - 2 + 1 < times.length := by omega
  have hWithin : nearestIndex times time ≤ times.length - 2 := by omega
  have hHalfway := (nearestIndex_le_iff hAscending time hNext).1 hWithin
  have hPlace : times.length - 2 + 1 = times.length - 1 := by omega
  simp only [hPlace] at hHalfway hNext
  have hStep := getElem_lt_getElem hAscending
    (show times.length - 2 < times.length - 1 by omega) hNext
  rw [List.getLast?_eq_getElem?, List.getElem?_eq_some_iff] at hLast
  rcases hLast with ⟨_, rfl⟩
  linarith

/- A later time is never at an earlier point. -/
theorem monotone_nearestIndex :
    Monotone (nearestIndex times) := by
  intro early late hOrder
  by_contra hBack
  have hBack : nearestIndex times late < nearestIndex times early :=
    not_le.1 hBack
  have hNonempty : times ≠ [] := by
    rintro rfl
    exact absurd hBack (Nat.not_lt_zero _)
  have hNext : nearestIndex times late + 1 < times.length := by
    have hInside := nearestIndex_lt hNonempty early
    omega
  have hLate := (nearestIndex_le_iff hAscending late hNext).1 le_rfl
  have hEarly := (nearestIndex_le_iff hAscending early hNext).2
    (by linarith)
  omega

omit hAscending in
/-
  The point chosen for a time is the earliest of the nearest,
  or the point numbered zero if there is none.  On an
  ascending grid a tie goes to the earlier point, times
  before the first and after the last point are at those
  points, and a later time is never at an earlier point.
-/
theorem nearest_time_chosen
    (times : List ℝ) :
    (times = [] → ∀ time, nearestIndex times time = 0) ∧
    (times ≠ [] → ∀ time i,
      IsNearest times time i ↔ nearestIndex times time = i) ∧
    (times.Pairwise (· < ·) →
      (∀ time i j (_ : i < j) (_ : j < times.length),
        |times[i] - time| = |times[j] - time| →
        (∀ k (_ : k < times.length),
          |times[i] - time| ≤ |times[k] - time|) →
        nearestIndex times time = i) ∧
      (∀ time i (_ : i + 1 < times.length),
        nearestIndex times time ≤ i ↔
          2 * time ≤ times[i] + times[i + 1]) ∧
      (∀ time, (∃ first ∈ times.head?, time ≤ first) →
        nearestIndex times time = 0) ∧
      (∀ time, (∃ last ∈ times.getLast?, last ≤ time) →
        nearestIndex times time = times.length - 1) ∧
      Monotone (nearestIndex times)) := by
  refine ⟨?_, fun hNonempty => isNearest_iff hNonempty,
    fun hAscending => ⟨?_, ?_, ?_, ?_, monotone_nearestIndex hAscending⟩⟩
  · rintro rfl time
    rfl
  · intro time i j hOrder hInside hTie hMinimal
    exact nearestIndex_of_tie hAscending hOrder hInside hTie hMinimal
  · intro time i hNext
    exact nearestIndex_le_iff hAscending time hNext
  · rintro time ⟨first, hFirst, hBefore⟩
    exact nearestIndex_of_le_head hAscending hFirst hBefore
  · rintro time ⟨last, hLast, hAfter⟩
    exact nearestIndex_of_getLast_le hAscending hLast hAfter

omit hAscending in
/- Halfway between two points it is the earlier one that is chosen. -/
theorem nearest_time_chosen_halfway :
    nearestIndex [0, 1] (1 / 2 : ℝ) = 0 ∧
      nearestIndex [0, 1 / 2, 1, 3 / 2] (10 : ℝ) = 3 := by
  rcases nearest_time_chosen [0, 1] with ⟨_, _, hPair⟩
  rcases hPair (by norm_num) with ⟨_, hHalfway, _⟩
  rcases nearest_time_chosen [0, 1 / 2, 1, 3 / 2] with ⟨_, _, hGrid⟩
  rcases hGrid (by norm_num) with ⟨_, _, _, hLast, _⟩
  refine ⟨Nat.le_zero.1 ((hHalfway (1 / 2) 0 (by simp)).2 ?_),
    hLast 10 ⟨3 / 2, rfl, by norm_num⟩⟩
  norm_num

end QuantumLab

------------------------------------------------------------
-- Measurements of plans
------------------------------------------------------------

namespace QuantumLab

namespace Program

variable {s : Lowering ℝ} {pre post : Program ℝ} {x : Experiment ℝ}

/-
  Every event of an experiment is measured at the point of
  the planned times that is the earliest of the nearest.
-/
theorem measured_at_nearest
    (hWalk : Program.walk Lowering.addStatement .initial
      (pre ++ .experiment x :: post) = .ok s) :
    ∃ e, s.plan.experiments[pre.experiments.length]? = some e ∧
      List.Forall₂ (fun event measured =>
          measured.timeIndex =
            nearestIndex (Lowering.timesOf e.evolution) event.time ∧
          (Lowering.timesOf e.evolution ≠ [] →
            IsNearest (Lowering.timesOf e.evolution) event.time
              measured.timeIndex))
        x.schedule e.measurements := by
  rcases walk_append.1 hWalk with ⟨mid, hPre, hRest⟩
  rcases walk_cons.1 hRest with ⟨next, hAdd, hPost⟩
  rcases countsOperators_of_walk hPre with ⟨hFollows, _⟩
  rcases Lowering.plans_addExperiment hFollows hAdd with
    ⟨_, hNext, _, planned, hPlanned, hPlans⟩
  refine ⟨planned, Lowering.getElem?_experiments hPre hPlanned hNext hPost,
    hPlans.schedule.imp fun event measured hEvent => ?_⟩
  have hIndex : measured.timeIndex =
      nearestIndex (Lowering.timesOf planned.evolution) event.time := by
    cases hEvent <;> rfl
  refine ⟨hIndex, fun hNonempty => ?_⟩
  rw [hIndex]
  exact isNearest_nearestIndex hNonempty event.time

end Program

end QuantumLab
