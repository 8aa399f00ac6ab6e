import QuantumLab.Fault

/-
  This file defines the time grids on which states evolve,
  the check that a grid ascends, and the choice of the grid
  point nearest to a time.

  Key definitions include:
    * `TimeGrid`
    * `TimeGrid.times`
    * `firstUnordered?`
    * `requireAscending`
    * `nearestIndex`
-/

namespace QuantumLab

open Arithmetic

variable {R : Type} [Arithmetic R]

------------------------------------------------------------
-- Grids
------------------------------------------------------------

/-
  A time grid: equal steps from a start, or any points.
-/
inductive TimeGrid (R : Type) where
  | regular (start step : R) (steps : Nat)
  | points (times : List R)
deriving DecidableEq, Repr

/-
  The points of a grid.  Point `k` of a regular grid is the
  start plus `k` steps, computed by one multiplication.
-/
def TimeGrid.times : TimeGrid R → List R
  | regular start step steps =>
      (List.range (steps + 1)).map fun k => start + ofNat k * step
  | points times => times

------------------------------------------------------------
-- Order
------------------------------------------------------------

/-
  The first step, numbered from `k`, that does not lead
  forward in time, and its length.
-/
def firstUnorderedFrom? (k : Nat) : List R → Option (Nat × R)
  | [] => none
  | [_] => none
  | a :: b :: rest =>
      if less 0.0 (b - a) then firstUnorderedFrom? (k + 1) (b :: rest)
      else some (k, b - a)

/- The first step that does not lead forward in time, and its length. -/
def firstUnordered? (times : List R) : Option (Nat × R) :=
  firstUnorderedFrom? 1 times

/- Refuses an empty list of times and one that does not ascend. -/
def requireAscending (times : List R) : Except (Fault R) Unit :=
  if times.isEmpty then
    refuse .emptyTimeGrid
  else
    match firstUnordered? times with
    | some (step, difference) =>
        refuse (.unorderedTimeGrid step difference)
    | none => .ok ()

------------------------------------------------------------
-- The nearest point
------------------------------------------------------------

/-
  The index of the time nearest to a given one.  A later
  time is chosen only if it is strictly nearer than all
  before it; the index is zero if there is no time.
-/
def nearestIndex (times : List R) (time : R) : Nat :=
  match times with
  | [] => 0
  | first :: rest =>
      let choose (best : Nat × R) (point : R × Nat) : Nat × R :=
        let distance := abs (point.1 - time)
        if less distance best.2 then (point.2, distance) else best
      ((rest.zipIdx 1).foldl choose (0, abs (first - time))).1

end QuantumLab
