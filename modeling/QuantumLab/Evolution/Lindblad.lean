import QuantumLab.Dense.Guarded
import QuantumLab.TimeGrid

/-
  This file integrates the Lindblad equation of an open
  quantum system by the classical fourth-order Runge-Kutta
  method, one step between two points of a time grid.

  Key definitions include:
    * `Channel`
    * `Lindblad`
    * `Lindblad.derivative`
    * `Lindblad.step`
    * `Lindblad.integrate`
-/

namespace QuantumLab

open Arithmetic

/-
  A dissipation channel: a jump operator and its rate.
-/
structure Channel (R : Type) where
  operator : Mat R
  rate : R
deriving DecidableEq, Repr

/-
  The generator of the motion of a density matrix.
-/
structure Lindblad (R : Type) where
  hamiltonian : Mat R
  channels : List (Channel R)
deriving DecidableEq, Repr

namespace Lindblad

variable {R : Type} [Arithmetic R]

------------------------------------------------------------
-- The equation of motion
------------------------------------------------------------

/- The contribution of one channel to the derivative. -/
def dissipator (channel : Channel R) (rho : Mat R) : Mat R :=
  let jump := channel.operator
  let counter := jump.dagger * jump
  Mat.scaleReal channel.rate
    (jump * rho * jump.dagger
      - Mat.scaleReal 0.5 (counter * rho + rho * counter))

/- The derivative of a density matrix with respect to time. -/
def derivative (system : Lindblad R) (rho : Mat R) : Mat R :=
  system.channels.foldl
    (fun total channel => total + dissipator channel rho)
    (Mat.scale (-Scalar.i) (system.hamiltonian.commutator rho))

/- The density matrix one step of length `dt` later. -/
def step (system : Lindblad R) (rho : Mat R) (dt : R) : Mat R :=
  let k1 := system.derivative rho
  let k2 := system.derivative (rho + Mat.scaleReal (0.5 * dt) k1)
  let k3 := system.derivative (rho + Mat.scaleReal (0.5 * dt) k2)
  let k4 := system.derivative (rho + Mat.scaleReal dt k3)
  rho + Mat.scaleReal (dt / 6.0)
    (k1 + Mat.scaleReal 2.0 k2 + Mat.scaleReal 2.0 k3 + k4)

------------------------------------------------------------
-- Trajectories
------------------------------------------------------------

/-
  Refuses channels whose operators do not have the shape of
  the Hamiltonian.
-/
def requireChannels
    (system : Lindblad R) : Except (Fault R) Unit :=
  system.channels.zipIdx.forM fun (channel, k) =>
    if channel.operator.shape = system.hamiltonian.shape then .ok ()
    else refuse (.mismatch system.hamiltonian.shape
      channel.operator.shape
      ("Lindblad jump operator " ++ Nat.repr k))

/- Refuses matrices that do not act on one space. -/
def requireDimensions
    (system : Lindblad R)
    (rho : Mat R) : Except (Fault R) Unit := do
  Guarded.requireSquare system.hamiltonian "Lindblad Hamiltonian"
  if rho.shape ≠ system.hamiltonian.shape then
    refuse (.mismatch system.hamiltonian.shape rho.shape
      "Lindblad initial density matrix")
  system.requireChannels

/- The states at the times after the first, from the state at the first. -/
def statesAfter
    (system : Lindblad R)
    (rho : Mat R) : List R → List (Mat R)
  | [] => []
  | [_] => []
  | a :: b :: rest =>
      let next := system.step rho (b - a)
      next :: statesAfter system next (b :: rest)

/- The states at all points of a time grid. -/
def integrate
    (system : Lindblad R)
    (rho : Mat R)
    (times : List R) : Except (Fault R) (List (Mat R)) := do
  requireAscending times
  system.requireDimensions rho
  return rho :: system.statesAfter rho times

end Lindblad

end QuantumLab
